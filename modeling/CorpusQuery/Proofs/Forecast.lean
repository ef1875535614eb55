import CorpusQuery.Proofs.Farthest
import CorpusQuery.Proofs.Stability

/-! What the kind of the next token tells of an expression: that it reads the token, or that it goes on or
fails where it is. In the grammar, where a part does not read the next token, it does the same for all the
tokens that it does not read, and reads each of those that it says it misses. -/
namespace CorpusQuery

/-- What an expression does at a token. -/
inductive Forecast where
  | reads | passes | fails
  deriving DecidableEq

/-- A token of the kind is what a message means by the terminal: characters of a regular expression may
come from many tokens, though not from those that delimit it. -/
def Terminal.answers (kind : Terminal) : Terminal → Bool
  | .regExpChars => kind != .quote && kind != .backslash && kind != .whitespace
  | t => kind == t

namespace NonTerminal

def begins (r : NonTerminal) (k : Terminal) : Bool := r.starts k || r == .query && k == .whitespace

def firstMisses : NonTerminal → List Terminal
  | .regExpRaw | .phraseQuery | .phraseWord => [.regExpChars]
  | r => Terminal.all.filter r.starts

end NonTerminal

namespace Grammar

namespace Expr

/-- What an expression does at a token of a kind, or at the end. -/
def forecast (k : Option Terminal) : Expr → Forecast
  | .done => .passes
  | .reject _ => .fails
  | .token kind _ => if k = some kind then .reads else .fails
  | .trivia => if k = some .whitespace then .reads else .passes
  | .escape => if k = some .backslash then .reads else .fails
  | .run stop => if k.any fun k => k != stop && k != .backslash then .reads else .fails
  | .call r => if k.any r.begins then .reads else .fails
  | .andThen first second =>
    match first.forecast k with
    | .passes => second.forecast k
    | other => other
  | .orElse first second =>
    match first.forecast k with
    | .fails => second.forecast k
    | other => other
  | .optional body | .many body =>
    match body.forecast k with
    | .reads => .reads
    | _ => .passes
  | .attempt body => body.forecast k
  | .next kinds yes no => if k.any kinds.contains then yes.forecast k else no.forecast k

def mayPass (e : Expr) : Bool :=
  e.forecast none == .passes || Terminal.all.any fun k => e.forecast (some k) == .passes

def firstMisses : Expr → List Terminal
  | .done | .trivia | .escape | .run _ => []
  | .reject kinds => kinds
  | .token kind _ => [kind]
  | .call r => r.firstMisses
  | .andThen first second =>
    first.firstMisses ++ if first.mayPass then second.firstMisses else []
  | .orElse first second | .next _ first second => first.firstMisses ++ second.firstMisses
  | .optional body | .attempt body | .many body => body.firstMisses

/-- Does the same at all tokens that it does not read, and reads those that it says it misses. -/
def honest (e : Expr) : Bool :=
  (Terminal.all.all fun k =>
    e.forecast (some k) == .reads || e.forecast (some k) == e.forecast none) &&
  e.firstMisses.all fun t => Terminal.all.all fun k =>
    !k.answers t || e.forecast (some k) == .reads

/-- The parts that may be entered after others are honest. -/
def honestWithin : Expr → Bool
  | .andThen first second => first.honestWithin && second.honestWithin && second.honest
  | .orElse first second => first.honestWithin && second.honestWithin && first.solid
  | .optional body | .attempt body => body.honestWithin
  | .many body => body.honestWithin && (Expr.many body).honest
  | .next _ yes no => yes.honestWithin && no.honestWithin
  | .done | .reject _ | .token _ _ | .trivia | .escape | .run _ | .call _ => true

end Expr

theorem body_honestWithin (r : NonTerminal) : (body r).honestWithin = true := by
  cases r <;> decide

theorem forecast_body (r : NonTerminal) (k : Option Terminal) :
    (body r).forecast k = (Expr.call r).forecast k := by
  have table : (body r).forecast none = (Expr.call r).forecast none ∧
      Terminal.all.all (fun k => (body r).forecast (some k) == (Expr.call r).forecast (some k)) =
        true := by
    cases r <;> decide
  cases k with
  | none => exact table.1
  | some k => simpa using List.all_eq_true.mp table.2 k k.mem_all

theorem firstMisses_of_body {r : NonTerminal} {t : Terminal} (h : t ∈ (body r).firstMisses) :
    t ∈ r.firstMisses := by
  have table : (body r).firstMisses.all (fun t => r.firstMisses.contains t) = true := by
    cases r <;> decide
  simpa using List.all_eq_true.mp table t h

end Grammar

theorem StartRule.honest_expr (start : StartRule) :
    start.expr.honest = true ∧ start.expr.honestWithin = true := by
  cases start <;> decide

/-! ### Runs do what is foreseen -/

/-- `p` is `o` for the part of a grammar that returns to `c` where it fails. -/
structure Outcome.Rewound (o p : Outcome) (c : Cursor) : Prop where
  matched : p.matched = o.matched
  cursor : p.cursor = if o.matched then o.cursor else c
  misses : p.misses = o.misses
  events : o.events <:+: p.events

theorem Outcome.rewound_rule (r : NonTerminal) (o : Outcome) (c : Cursor) :
    o.Rewound (Recognizer.rule r (fun _ => o) c) c := by
  have wrapped (enter leave : Event) : o.events <:+: enter :: o.events ++ [leave] :=
    ⟨[enter],[leave],by simp⟩
  simp only [Recognizer.rule]
  split
  next ends => exact ⟨rfl,(if_pos ends).symm,rfl,wrapped ..⟩
  next fails => exact ⟨rfl,(if_neg fails).symm,rfl,wrapped ..⟩

theorem Outcome.rewound_attempt (o : Outcome) (c : Cursor) :
    o.Rewound (Recognizer.attempt (fun _ => o) c) c := by
  simp only [Recognizer.attempt]
  split
  next ends => exact ⟨rfl,(if_pos ends).symm,rfl,List.infix_refl _⟩
  next fails => exact ⟨rfl,(if_neg fails).symm,rfl,List.infix_refl _⟩

namespace Grammar

structure Idle (e : Expr) (c : Cursor) (matched : Bool) (o : Outcome) : Prop where
  matched : o.matched = matched
  cursor : o.cursor = c
  misses : ∀ m ∈ o.misses, m.offset = c.offset ∧ ∃ t ∈ e.firstMisses, m.expected = .terminal t

/-- Where a part reads nothing, its whole may come to the same. -/
theorem Idle.within {a e : Expr} {c : Cursor} {before after : Bool} {o p : Outcome}
    (h : Idle a c before o) (matched : p.matched = after) (cursor : p.cursor = c)
    (misses : p.misses = o.misses) (more : ∀ t ∈ a.firstMisses, t ∈ e.firstMisses) :
    Idle e c after p where
  matched := matched
  cursor := cursor
  misses m member := by
    rw [misses] at member
    obtain ⟨here,t,sought,same⟩ := h.misses m member
    exact ⟨here,t,more t sought,same⟩

theorem Idle.rewound {a e : Expr} {c : Cursor} {matched : Bool} {o p : Outcome} (h : Idle a c matched o)
    (rewound : o.Rewound p c) (more : ∀ t ∈ a.firstMisses, t ∈ e.firstMisses) : Idle e c matched p := by
  refine h.within (rewound.matched.trans h.matched) ?_ rewound.misses more
  rw [rewound.cursor,h.cursor,ite_self]

inductive Foreseen (e : Expr) (c : Cursor) (o : Outcome) : Forecast → Prop where
  /-- A terminal of some tokens is matched at the start. -/
  | reads (n : Nat) (tag : Terminal) : n ≠ 0 → n ≤ c.rest.length →
      Event.Shows o.events (⟨c.offset,(c.advance n).offset⟩,tag) → Foreseen e c o .reads
  | passes : Idle e c true o → Foreseen e c o .passes
  | fails : Idle e c false o → Foreseen e c o .fails

namespace Foreseen

variable {a b e : Expr} {c : Cursor} {o p : Outcome} {f : Forecast}

theorem idle_of_passes (h : Foreseen e c o .passes) : Idle e c true o := by
  cases h with
  | passes idle => exact idle

theorem idle_of_fails (h : Foreseen e c o .fails) : Idle e c false o := by
  cases h with
  | fails idle => exact idle

theorem take (tag : Terminal) {n : Nat} (nonzero : n ≠ 0) (fits : n ≤ c.rest.length) :
    Foreseen e c (Recognizer.take tag n c) .reads := by
  apply Foreseen.reads n tag nonzero fits
  rw [Recognizer.take_eq tag nonzero fits]
  exact List.infix_refl _

theorem reads_of (h : Foreseen a c o .reads) (more : o.events <:+: p.events) :
    Foreseen e c p .reads := by
  cases h with
  | reads n tag nonzero fits shown => exact .reads n tag nonzero fits (shown.trans more)

theorem mono (h : Foreseen a c o f) (more : ∀ t ∈ a.firstMisses, t ∈ e.firstMisses) :
    Foreseen e c o f := by
  cases h with
  | reads n tag nonzero fits shown => exact .reads n tag nonzero fits shown
  | passes idle => exact .passes (idle.within idle.matched idle.cursor rfl more)
  | fails idle => exact .fails (idle.within idle.matched idle.cursor rfl more)

/-- What a first part leaves where it is the second part goes on with. -/
theorem after {matched : Bool} (h : Foreseen b c p f) (first : Idle a c matched o)
    (isFirst : ∀ t ∈ a.firstMisses, t ∈ e.firstMisses)
    (isSecond : ∀ t ∈ b.firstMisses, t ∈ e.firstMisses) : Foreseen e c (o.followedBy p) f := by
  have misses {matched : Bool} (second : Idle b c matched p) : ∀ m ∈ (o.followedBy p).misses,
      m.offset = c.offset ∧ ∃ t ∈ e.firstMisses, m.expected = .terminal t := by
    intro m member
    rcases List.mem_append.mp member with before | behind
    · obtain ⟨here,t,sought,same⟩ := first.misses m before
      exact ⟨here,t,isFirst t sought,same⟩
    · obtain ⟨here,t,sought,same⟩ := second.misses m behind
      exact ⟨here,t,isSecond t sought,same⟩
  cases h with
  | reads n tag nonzero fits shown =>
    exact .reads n tag nonzero fits (shown.trans (List.suffix_append ..).isInfix)
  | passes idle => exact .passes ⟨idle.matched,idle.cursor,misses idle⟩
  | fails idle => exact .fails ⟨idle.matched,idle.cursor,misses idle⟩

end Foreseen

theorem Expr.mayPass_of_forecast {e : Expr} {k : Option Terminal} (passes : e.forecast k = .passes) :
    e.mayPass = true := by
  unfold mayPass
  cases k with
  | none => simp [passes]
  | some k => exact Bool.or_eq_true_iff.mpr (.inr (List.any_eq_true.mpr ⟨k,k.mem_all,by simp [passes]⟩))

theorem runLength_eq_zero_iff (stop : Terminal) (c : Cursor) : Recognizer.runLength stop c.rest = 0 ↔
    (c.kind?.any fun k => k != stop && k != .backslash) = false := by
  cases split : c.rest with
  | nil => simp [Recognizer.runLength,Cursor.kind?,Cursor.kindAt?,split]
  | cons token rest =>
    by_cases accepted : (token.kind != stop && token.kind != .backslash) = true
    · simp [Recognizer.runLength,Cursor.kind?,Cursor.kindAt?,split,accepted]
    · simp [Recognizer.runLength,Cursor.kind?,Cursor.kindAt?,split,accepted]

namespace Foreseen

variable (c : Cursor)

theorem reject (kinds : List Terminal) :
    Foreseen (.reject kinds) c ((Recognizer.miss kinds).andThen .reject c) .fails := by
  refine .fails ⟨rfl,rfl,fun m member => ?_⟩
  rw [misses_reject] at member
  obtain ⟨k,among,rfl⟩ := List.mem_map.mp member
  exact ⟨rfl,k,among,rfl⟩

theorem token (kind tag : Terminal) : Foreseen (.token kind tag) c (Recognizer.token kind tag c)
    ((Expr.token kind tag).forecast c.kind?) := by
  by_cases at_ : c.isAt kind = true
  · have ahead := Cursor.isAt_iff.mp at_
    simp only [Expr.forecast,ahead,if_true,Recognizer.token,at_]
    exact .take tag Nat.one_ne_zero (Cursor.one_le_of_isAt at_)
  · have ahead := Cursor.isAt_iff.not.mp at_
    simp only [Expr.forecast,ahead,if_false]
    refine .fails ⟨by simp [Recognizer.token,at_],by simp [Recognizer.token,at_],fun m member => ?_⟩
    rw [misses_token,if_neg at_,List.mem_singleton] at member
    exact ⟨member ▸ rfl,kind,List.mem_singleton.mpr rfl,member ▸ rfl⟩

theorem trivia :
    Foreseen .trivia c (Recognizer.trivia c) (Expr.trivia.forecast c.kind?) := by
  by_cases white : c.isAt .whitespace = true
  · have ahead := Cursor.isAt_iff.mp white
    simp only [Expr.forecast,ahead,if_true,Recognizer.trivia,Recognizer.token,white]
    exact .take _ Nat.one_ne_zero (Cursor.one_le_of_isAt white)
  · have ahead := Cursor.isAt_iff.not.mp white
    simp only [Expr.forecast,ahead,if_false,Recognizer.trivia,white]
    exact .passes ⟨rfl,rfl,by simp [Recognizer.done]⟩

theorem escape :
    Foreseen .escape c (Recognizer.escape c) (Expr.escape.forecast c.kind?) := by
  by_cases at_ : c.isAt .backslash = true
  · have ahead := Cursor.isAt_iff.mp at_
    simp only [Expr.forecast,ahead,if_true,Recognizer.escape,at_]
    exact .take _ (by split <;> simp) (escape_fits at_)
  · have ahead := Cursor.isAt_iff.not.mp at_
    simp only [Expr.forecast,ahead,if_false,Recognizer.escape,at_]
    exact .fails ⟨rfl,rfl,by simp [Recognizer.reject]⟩

theorem run (stop : Terminal) :
    Foreseen (.run stop) c (Recognizer.run stop c) ((Expr.run stop).forecast c.kind?) := by
  by_cases zero : Recognizer.runLength stop c.rest = 0
  · have ahead := (runLength_eq_zero_iff stop c).mp zero
    simp only [Expr.forecast,ahead,Bool.false_eq_true,if_false,Recognizer.run,zero,if_true]
    exact .fails ⟨rfl,rfl,by simp [Recognizer.reject]⟩
  · have ahead := (runLength_eq_zero_iff stop c).not.mp zero
    simp only [Expr.forecast,Bool.eq_true_of_not_eq_false ahead,if_true,Recognizer.run,zero,if_false]
    exact .take _ zero (runLength_le ..)

theorem call {r : NonTerminal} {o : Outcome} (h : Foreseen (body r) c o ((body r).forecast c.kind?)) :
    Foreseen (.call r) c (Recognizer.rule r (fun _ => o) c) ((Expr.call r).forecast c.kind?) := by
  rw [forecast_body] at h
  by_cases begins : c.kind?.any r.begins = true
  · simp only [Expr.forecast,begins,if_true] at h ⊢
    exact h.reads_of (o.rewound_rule r c).events
  · simp only [Expr.forecast,begins,Bool.false_eq_true,if_false] at h ⊢
    exact .fails (h.idle_of_fails.rewound (o.rewound_rule r c) fun t => firstMisses_of_body)

end Foreseen

/-- Every run does what the kind of the next token tells. -/
theorem Runs.foreseen {e : Expr} {c : Cursor} {o : Outcome} (h : Runs e c o) :
    Foreseen e c o (e.forecast c.kind?) := by
  induction h with
  | done => exact .passes ⟨rfl,rfl,by simp [Recognizer.done]⟩
  | reject => exact .reject ..
  | token => exact .token ..
  | trivia => exact .trivia _
  | escape => exact .escape _
  | run => exact .run ..
  | call _ ih => exact .call _ ih
  | @andThen a c o b p _ matched _ ihFirst ihSecond =>
    unfold Expr.forecast
    cases same : a.forecast c.kind? with
    | reads => exact (same ▸ ihFirst).reads_of (List.prefix_append ..).isInfix
    | fails => simp [(same ▸ ihFirst).idle_of_fails.matched] at matched
    | passes =>
      have idle := (same ▸ ihFirst).idle_of_passes
      rw [idle.cursor] at ihSecond
      have both : (Expr.andThen a b).firstMisses = a.firstMisses ++ b.firstMisses := by
        rw [Expr.firstMisses,if_pos (Expr.mayPass_of_forecast same)]
      exact ihSecond.after idle (fun t among => both ▸ List.mem_append_left _ among)
        fun t among => both ▸ List.mem_append_right _ among
  | @andThenFails a c o b _ fails ih =>
    unfold Expr.forecast
    cases same : a.forecast c.kind? with
    | passes => simp [(same ▸ ih).idle_of_passes.matched] at fails
    | reads | fails => exact (same ▸ ih).mono fun t => List.mem_append_left _
  | @orElse a c o b _ matched ih =>
    unfold Expr.forecast
    cases same : a.forecast c.kind? with
    | fails => simp [(same ▸ ih).idle_of_fails.matched] at matched
    | reads | passes => exact (same ▸ ih).mono fun t => List.mem_append_left _
  | @orElseSecond a c o b p _ fails _ ihFirst ihSecond =>
    unfold Expr.forecast
    cases same : a.forecast c.kind? with
    | reads => exact (same ▸ ihFirst).reads_of (List.prefix_append ..).isInfix
    | passes => simp [(same ▸ ihFirst).idle_of_passes.matched] at fails
    | fails =>
      have idle := (same ▸ ihFirst).idle_of_fails
      rw [idle.cursor] at ihSecond
      exact ihSecond.after idle (fun t => List.mem_append_left _) fun t => List.mem_append_right _
  | @optional a c o _ ih =>
    unfold Expr.forecast
    cases same : a.forecast c.kind? with
    | reads => exact (same ▸ ih).reads_of (List.infix_refl _)
    | passes =>
      have idle := (same ▸ ih).idle_of_passes
      exact .passes (idle.within rfl idle.cursor rfl fun _ => id)
    | fails =>
      have idle := (same ▸ ih).idle_of_fails
      exact .passes (idle.within rfl idle.cursor rfl fun _ => id)
  | @attempt a c o _ ih =>
    unfold Expr.forecast
    cases same : a.forecast c.kind? with
    | reads => exact (same ▸ ih).reads_of (o.rewound_attempt c).events
    | passes => exact .passes ((same ▸ ih).idle_of_passes.rewound (o.rewound_attempt c) fun _ => id)
    | fails => exact .fails ((same ▸ ih).idle_of_fails.rewound (o.rewound_attempt c) fun _ => id)
  | @manyMore a c o p _ matched less _ ih _ =>
    unfold Expr.forecast
    cases same : a.forecast c.kind? with
    | reads => exact (same ▸ ih).reads_of (List.prefix_append ..).isInfix
    | passes => simp [(same ▸ ih).idle_of_passes.cursor] at less
    | fails => simp [(same ▸ ih).idle_of_fails.matched] at matched
  | @manyStays a c o _ matched _ ih =>
    unfold Expr.forecast
    cases same : a.forecast c.kind? with
    | fails => simp [(same ▸ ih).idle_of_fails.matched] at matched
    | reads | passes => exact (same ▸ ih).mono fun _ => id
  | @manyEnds a c o _ fails ih =>
    unfold Expr.forecast
    cases same : a.forecast c.kind? with
    | reads => exact (same ▸ ih).reads_of (List.infix_refl _)
    | passes => simp [(same ▸ ih).idle_of_passes.matched] at fails
    | fails => exact .passes ((same ▸ ih).idle_of_fails.within rfl rfl rfl fun _ => id)
  | nextYes ahead _ ih =>
    rw [Expr.forecast,if_pos ahead]
    exact ih.mono fun t => List.mem_append_left _
  | nextNo ahead _ ih =>
    rw [Expr.forecast,if_neg (by simp [ahead])]
    exact ih.mono fun t => List.mem_append_right _

end Grammar

end CorpusQuery
