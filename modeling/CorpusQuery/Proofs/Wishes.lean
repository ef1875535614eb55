import CorpusQuery.Proofs.Forecast

/-! Who follows the message of a refused text gets further. The tokens before the error, with one more of
the kind that is asked for, are read as before up to there; then the part that asked for the token, or one
that comes first, reads it. -/
namespace CorpusQuery

namespace Event

/-- A token that starts at `stop` is in a matched terminal, which ends with it. -/
def Takes (events : List Event) (stop : Nat) (last : Token) : Prop :=
  ∃ x, Shows events x ∧ x.1.start ≤ stop ∧ x.1.stop = stop + last.byteLength

theorem Takes.mono {events more : List Event} {stop : Nat} {last : Token} (h : Takes events stop last)
    (isPart : events <:+: more) : Takes more stop last := by
  obtain ⟨x,shown,starts,ends⟩ := h
  exact ⟨x,shown.trans isPart,starts,ends⟩

def Within (events : List Event) (stop : Nat) : Prop := ∀ x, Shows events x → x.1.stop ≤ stop

theorem Within.part {events more : List Event} {stop : Nat} (h : Within more stop)
    (isPart : events <:+: more) : Within events stop :=
  fun x shown => h x (shown.trans isPart)

theorem within_lastEnd (events : List Event) : Within events (lastEnd events) :=
  fun x shown => (lastEnd_le_iff ..).mp (Nat.le_refl _) x shown.mem_matched

end Event

/-- A token of the kind at the offset is what is missed. -/
def Miss.Asks (m : Miss) (offset : Nat) (kind : Terminal) : Prop :=
  m.offset = offset ∧ ∃ t, m.expected = .terminal t ∧ kind.answers t = true

/-- In a text, `d` has the next `k` tokens of `c` before it, then one more and nothing else. -/
structure Cursor.Cut (full : Text) (k : Nat) (last : Token) (c d : Cursor) : Prop where
  offset : d.offset = c.offset
  rest : d.rest = c.rest.take k ++ [last]
  fits : k ≤ c.rest.length
  inside : c.In full

namespace Cursor.Cut

variable {full : Text} {k n : Nat} {last : Token} {c d : Cursor}

theorem length_take (h : c.Cut full k last d) : (c.rest.take k).length = k := by
  rw [List.length_take,Nat.min_eq_left h.fits]

theorem length_rest (h : c.Cut full k last d) : d.rest.length = k + 1 := by
  rw [h.rest,List.length_append,h.length_take,List.length_singleton]

theorem shares (h : c.Cut full k last d) : c.Shares k d where
  offset := h.offset
  ahead := by rw [h.rest,List.take_left' h.length_take]
  fits := h.fits

theorem advance (h : c.Cut full k last d) (le : n ≤ k) :
    (c.advance n).Cut full (k - n) last (d.advance n) where
  offset := h.shares.offset_advance le
  rest := by
    simp only [rest_advance]
    rw [h.rest,List.drop_append_of_le_length (by rw [h.length_take]; exact le),List.drop_take]
  fits := (h.shares.advance le).fits
  inside := h.inside.advance n

theorem kind?_last (h : c.Cut full 0 last d) : d.kind? = some last.kind := by
  simp [kind?,kindAt?,h.rest]

theorem offset_last (h : c.Cut full k last d) :
    (d.advance (k + 1)).offset = (c.advance k).offset + last.byteLength := by
  have final : (d.advance k).rest = [last] := by
    rw [rest_advance,h.rest,List.drop_left' h.length_take]
  rw [← advance_advance,← h.shares.offset_advance (Nat.le_refl k),Cursor.advance,final]
  simp

theorem offset_lt (h : c.Cut full k last d) (fits : n ≤ c.rest.length) (more : k < n) :
    (c.advance k).offset < (c.advance n).offset := by
  obtain ⟨m,rfl⟩ := Nat.exists_eq_add_of_lt more
  have reaches : (c.advance k).Reaches (c.advance (k + m + 1)) :=
    ⟨m + 1,by rw [advance_advance,Nat.add_assoc]⟩
  apply reaches.offset_lt (h.inside.advance k)
  simp only [rest_advance,List.length_drop]
  omega

theorem offset_lt_of_pos (h : c.Cut full k last d) (pos : 0 < k) :
    c.offset < (c.advance k).offset := by
  have start : c.Cut full 0 last ⟨c.offset,[last]⟩ := ⟨rfl,rfl,Nat.zero_le _,h.inside⟩
  have less := start.offset_lt h.fits pos
  rwa [advance_zero] at less

theorem le_of_offset_le (h : c.Cut full k last d) (fits : n ≤ c.rest.length)
    (le : (c.advance n).offset ≤ (c.advance k).offset) : n ≤ k := by
  by_contra more
  exact Nat.not_lt.mpr le (h.offset_lt fits (Nat.lt_of_not_le more))

end Cursor.Cut

/-- What comes of two runs, of which the second sees the first tokens of the other and one more. -/
inductive Outcome.Answered (k : Nat) (last : Token) (c d : Cursor) (o p : Outcome) : Prop where
  /-- The second run reads the added token. -/
  | taken : Event.Takes p.events (c.advance k).offset last → Answered k last c d o p
  /-- Both runs have come to the same, and the first has not asked for such a token. -/
  | agree (n : Nat) : n ≤ k → p.matched = o.matched → o.cursor = c.advance n →
      p.cursor = d.advance n → (∀ m ∈ o.misses, ¬m.Asks (c.advance k).offset last.kind) →
      Answered k last c d o p

namespace Outcome.Answered

open Event

variable {full : Text} {k n : Nat} {last : Token} {c d : Cursor} {o p o' p' : Outcome}

theorem start (cut : c.Cut full k last d) (pos : 0 < k) (matched : p.matched = o.matched)
    (here : o.cursor = c) (here' : p.cursor = d) (misses : ∀ m ∈ o.misses, m.offset = c.offset) :
    Answered k last c d o p := by
  apply agree 0 (Nat.zero_le k) matched (by simpa using here) (by simpa using here')
  rintro m member ⟨far,-⟩
  have near := misses m member
  have := cut.offset_lt_of_pos pos
  omega

theorem le_of_within (cut : c.Cut full k last d) {tag : Terminal} (nonzero : n ≠ 0)
    (fits : n ≤ c.rest.length)
    (within : Within (Recognizer.take tag n c).events (c.advance k).offset) : n ≤ k := by
  rw [Recognizer.take_eq tag nonzero fits] at within
  exact cut.le_of_offset_le fits (within (⟨c.offset,(c.advance n).offset⟩,tag) (List.infix_refl _))

theorem take (cut : c.Cut full k last d) (tag : Terminal) (nonzero : n ≠ 0) (le : n ≤ k) :
    Answered k last c d (Recognizer.take tag n c) (Recognizer.take tag n d) := by
  have fits := le.trans cut.fits
  have fits' := le.trans cut.shares.fits'
  rw [Recognizer.take_eq tag nonzero fits,Recognizer.take_eq tag nonzero fits']
  exact .agree n le rfl rfl rfl (by simp)

theorem take_last (cut : c.Cut full k last d) (tag : Terminal) (o : Outcome) :
    Answered k last c d o (Recognizer.take tag (k + 1) d) := by
  apply taken
  rw [Recognizer.take_eq tag (Nat.succ_ne_zero k) cut.length_rest.ge]
  refine ⟨(⟨d.offset,(d.advance (k + 1)).offset⟩,tag),List.infix_refl _,?_,cut.offset_last⟩
  rw [cut.offset]
  exact (Cursor.reaches_advance ..).offset_le

theorem token (cut : c.Cut full k last d) (pos : 0 < k) (kind tag : Terminal) :
    Answered k last c d (Recognizer.token kind tag c) (Recognizer.token kind tag d) := by
  have same := cut.shares.isAt_eq pos kind
  cases at_ : c.isAt kind with
  | true =>
    rw [at_] at same
    simp only [Recognizer.token,at_,same,if_true]
    exact take cut tag Nat.one_ne_zero pos
  | false =>
    rw [at_] at same
    simp only [Recognizer.token,at_,same,Bool.false_eq_true,if_false]
    exact start cut pos rfl rfl rfl (by simp)

theorem trivia (cut : c.Cut full k last d) (pos : 0 < k) :
    Answered k last c d (Recognizer.trivia c) (Recognizer.trivia d) := by
  simp only [Recognizer.trivia,cut.shares.isAt_eq pos]
  split
  · exact token cut pos ..
  · exact start cut pos rfl rfl rfl (by simp [Recognizer.done])

/-- Where a backslash comes last, it takes the added token with it. -/
theorem escape (cut : c.Cut full k last d) (pos : 0 < k)
    (within : Within (Recognizer.escape c).events (c.advance k).offset) :
    Answered k last c d (Recognizer.escape c) (Recognizer.escape d) := by
  have same := cut.shares.isAt_eq pos .backslash
  cases at_ : c.isAt .backslash with
  | false =>
    rw [at_] at same
    simp only [Recognizer.escape,at_,same,Bool.false_eq_true,if_false]
    exact start cut pos rfl rfl rfl (by simp [Recognizer.reject])
  | true =>
    rw [at_] at same
    have two : (d.kindAt? 1).isSome = true := by
      have behind : 1 < d.rest.length := by
        rw [cut.length_rest]
        omega
      simp [Cursor.kindAt?,behind]
    simp only [Recognizer.escape,at_,same,two,if_true] at within ⊢
    have le := le_of_within cut (by split <;> simp) (Grammar.escape_fits at_) within
    by_cases more : (c.kindAt? 1).isSome = true
    · rw [if_pos more] at le ⊢
      exact take cut _ (by simp) le
    · have short : c.rest.length ≤ 1 := by simpa [Cursor.kindAt?] using more
      have one : k = 1 := by
        have := cut.fits
        omega
      subst one
      exact take_last cut ..

/-- A run that takes all the tokens before takes the added one too, or stops at it. -/
theorem run (cut : c.Cut full k last d) (pos : 0 < k) (stop : Terminal)
    (within : Within (Recognizer.run stop c).events (c.advance k).offset) :
    Answered k last c d (Recognizer.run stop c) (Recognizer.run stop d) := by
  have same := congrArg (Recognizer.runLength stop) cut.shares.ahead
  rw [Grammar.runLength_take,Grammar.runLength_take] at same
  unfold Recognizer.run at within ⊢
  rcases eq_or_ne (Recognizer.runLength stop c.rest) 0 with zero | nonzero
  · have zero' : Recognizer.runLength stop d.rest = 0 := by omega
    simp only [zero,zero',if_true]
    exact start cut pos rfl rfl rfl (by simp [Recognizer.reject])
  · have nonzero' : Recognizer.runLength stop d.rest ≠ 0 := by omega
    simp only [nonzero,nonzero',if_false] at within ⊢
    have le := le_of_within cut nonzero (Grammar.runLength_le ..) within
    have atMost := Grammar.runLength_le stop d.rest
    rw [cut.length_rest] at atMost
    by_cases equal : Recognizer.runLength stop d.rest = Recognizer.runLength stop c.rest
    · rw [equal]
      exact take cut _ nonzero le
    · have all : Recognizer.runLength stop d.rest = k + 1 := by omega
      rw [all]
      exact take_last cut ..

theorem followedBy (h : Answered k last c d o p) (cut : c.Cut full k last d)
    (within : Within (o.followedBy o').events (c.advance k).offset)
    (next : ∀ j, o.cursor.Cut full j last p.cursor →
      Within o'.events (o.cursor.advance j).offset → Answered j last o.cursor p.cursor o' p') :
    Answered k last c d (o.followedBy o') (p.followedBy p') := by
  cases h with
  | taken takes => exact .taken (takes.mono (List.prefix_append ..).isInfix)
  | agree n le _ here here' misses =>
    have stop : (c.advance n).advance (k - n) = c.advance k := by
      rw [Cursor.advance_advance,Nat.add_sub_of_le le]
    rw [here,here'] at next
    have later := next (k - n) (cut.advance le) (by
      rw [stop]
      exact within.part (List.suffix_append ..).isInfix)
    cases later with
    | taken takes =>
      rw [stop] at takes
      exact .taken (takes.mono (List.suffix_append ..).isInfix)
    | agree m le' matched far far' misses' =>
      rw [stop] at misses'
      rw [Cursor.advance_advance] at far far'
      exact .agree (n + m) (by omega) matched far far' (List.forall_mem_append.mpr ⟨misses,misses'⟩)

/-- Where only one of the runs matches, they have parted at the added token, which the second has
read whatever it does later. -/
theorem of_unlike (h : Answered k last c d o p) {matched : Bool} (first : o.matched = matched)
    (second : p.matched = !matched) (more : p.events <:+: p'.events) : Answered k last c d o' p' := by
  cases h with
  | taken takes => exact .taken (takes.mono more)
  | agree _ _ same =>
    rw [first,second] at same
    cases matched <;> cases same

/-- Where only one of the runs gets on, they have parted at the added token as well. -/
theorem of_apart (h : Answered k last c d o p) (cut : c.Cut full k last d)
    (apart : ¬(p.cursor.rest.length < d.rest.length ↔ o.cursor.rest.length < c.rest.length))
    (more : p.events <:+: p'.events) : Answered k last c d o' p' := by
  cases h with
  | taken takes => exact .taken (takes.mono more)
  | agree n le _ here here' =>
    refine absurd ?_ apart
    have := cut.fits
    have := cut.length_rest
    rw [here,here']
    simp only [Cursor.rest_advance,List.length_drop]
    omega

theorem restart (h : Answered k last c d o p) (matched : Bool) :
    Answered k last c d { o with matched, cursor := c } { p with matched, cursor := d } := by
  cases h with
  | taken takes => exact .taken takes
  | agree _ _ _ _ _ misses => exact .agree 0 (Nat.zero_le k) rfl (by simp) (by simp) misses

theorem rewound (h : Answered k last c d o p) (first : o.Rewound o' c) (second : p.Rewound p' d) :
    Answered k last c d o' p' := by
  cases h with
  | taken takes => exact .taken (takes.mono second.events)
  | agree n le matched here here' misses =>
    have cursor := first.cursor
    have cursor' := second.cursor
    have same := second.matched.trans (matched.trans first.matched.symm)
    rw [← first.misses] at misses
    rw [matched] at cursor'
    split at cursor
    next ends =>
      rw [if_pos ends] at cursor'
      exact .agree n le same (cursor.trans here) (cursor'.trans here') misses
    next fails =>
      rw [if_neg fails] at cursor'
      exact .agree 0 (Nat.zero_le k) same (by simpa using cursor) (by simpa using cursor') misses

end Outcome.Answered

namespace Grammar

open Event Outcome

variable {full : Text} {k : Nat} {last : Token} {e : Expr} {c d : Cursor} {o o' p : Outcome}

/-- At the added token an honest expression reads it, or has not asked for such a token. -/
theorem Runs.answered_last (h : Runs e c o) (h' : Runs e d p) (honest : e.honest = true)
    (cut : c.Cut full 0 last d) (within : Within o.events (c.advance 0).offset) :
    Answered 0 last c d o p := by
  simp only [Expr.honest,Bool.and_eq_true,List.all_eq_true,Bool.or_eq_true,beq_iff_eq,
    Bool.not_eq_true'] at honest
  obtain ⟨steady,reads⟩ := honest
  have foreseen' := h'.foreseen
  rw [cut.kind?_last] at foreseen'
  by_cases takes : e.forecast (some last.kind) = .reads
  · rw [takes] at foreseen'
    cases foreseen' with
    | reads n tag nonzero fits shown =>
      obtain rfl : n = 0 + 1 := by
        rw [cut.length_rest] at fits
        omega
      refine .taken ⟨_,shown,?_,cut.offset_last⟩
      rw [cut.offset,Cursor.advance_zero]
  · -- The first run may not read, and so does what an honest expression does wherever it does not.
    have stops := (steady last.kind last.kind.mem_all).resolve_left takes
    have foreseen := h.foreseen
    have same : e.forecast c.kind? = e.forecast (some last.kind) := by
      cases ahead : c.kind? with
      | none => exact stops.symm
      | some k =>
        refine ((steady k k.mem_all).resolve_left fun reads => ?_).trans stops.symm
        rw [ahead,reads] at foreseen
        cases foreseen with
        | reads n tag nonzero fits shown =>
          exact nonzero (Nat.le_zero.mp (cut.le_of_offset_le fits (within _ shown)))
    rw [same] at foreseen
    have idle {matched : Bool} (first : Idle e c matched o) (second : Idle e d matched p) :
        Answered 0 last c d o p := by
      refine .agree 0 (Nat.le_refl 0) (second.matched.trans first.matched.symm)
        (by simpa using first.cursor) (by simpa using second.cursor) ?_
      rintro m member ⟨-,t,expected,answers⟩
      obtain ⟨-,t',sought,same⟩ := first.misses m member
      obtain rfl := Expected.terminal.inj (expected.symm.trans same)
      exact takes ((reads t sought last.kind last.kind.mem_all).resolve_left (by simp [answers]))
    cases known : e.forecast (some last.kind) with
    | reads => exact absurd known takes
    | passes =>
      rw [known] at foreseen foreseen'
      exact idle foreseen.idle_of_passes foreseen'.idle_of_passes
    | fails =>
      rw [known] at foreseen foreseen'
      exact idle foreseen.idle_of_fails foreseen'.idle_of_fails

/-- However many tokens are left before the added one, another run of the expression is answered; without
any, the expression has to be honest. -/
def Replays (full : Text) (last : Token) (e : Expr) (c : Cursor) (o : Outcome) : Prop :=
  ∀ k d p, Runs e d p → c.Cut full k last d → 0 < k → Within o.events (c.advance k).offset →
    Answered k last c d o p

namespace Replays

variable {a b : Expr} {kinds : List Terminal}

theorem after (h : Replays full last e c o) (runs : Runs e c o) (h' : Runs e d p)
    (honest : e.honest = true) (cut : c.Cut full k last d)
    (within : Within o.events (c.advance k).offset) : Answered k last c d o p := by
  rcases Nat.eq_zero_or_pos k with rfl | pos
  · exact runs.answered_last h' honest cut within
  · exact h k d p h' cut pos within

theorem reject (kinds : List Terminal) (c : Cursor) :
    Replays full last (.reject kinds) c ((Recognizer.miss kinds).andThen .reject c) := by
  intro k d p h' cut pos _
  cases h'
  refine .start cut pos rfl rfl rfl fun m member => ?_
  rw [misses_reject] at member
  obtain ⟨_,-,rfl⟩ := List.mem_map.mp member
  rfl

theorem call {r : NonTerminal} (inner : Replays full last (body r) c o) :
    Replays full last (.call r) c (Recognizer.rule r (fun _ => o) c) := by
  intro k d p h' cut pos within
  have rewound := o.rewound_rule r c
  cases h' with
  | call inner' =>
    have answered := inner k d _ inner' cut pos (within.part rewound.events)
    exact answered.rewound rewound (Outcome.rewound_rule ..)

theorem optional (body : Replays full last a c o) :
    Replays full last (.optional a) c { o with matched := true } := by
  intro k d p h' cut pos within
  cases h' with
  | optional body' =>
    cases body k d _ body' cut pos within with
    | taken takes => exact .taken takes
    | agree n le _ here here' misses => exact .agree n le rfl here here' misses

theorem attempt (body : Replays full last a c o) :
    Replays full last (.attempt a) c (Recognizer.attempt (fun _ => o) c) := by
  intro k d p h' cut pos within
  have rewound := o.rewound_attempt c
  cases h' with
  | attempt body' =>
    have answered := body k d _ body' cut pos (within.part rewound.events)
    exact answered.rewound rewound (Outcome.rewound_attempt ..)

/-- The second part has to be honest: no shared token may be left for it. -/
theorem andThen (first : Replays full last a c o) (matched : o.matched = true)
    (runs : Runs b o.cursor o') (second : Replays full last b o.cursor o') (honest : b.honest = true) :
    Replays full last (.andThen a b) c (o.followedBy o') := by
  intro k d p h' cut pos within
  have before := within.part (List.prefix_append ..).isInfix
  cases h' with
  | andThen first' _ second' =>
    have answered := first k d _ first' cut pos before
    exact answered.followedBy cut within fun j => second.after runs second' honest
  | andThenFails first' fails =>
    have answered := first k d _ first' cut pos before
    exact answered.of_unlike matched fails (List.infix_refl _)

theorem andThenFails (first : Replays full last a c o) (fails : o.matched = false) :
    Replays full last (.andThen a b) c o := by
  intro k d p h' cut pos within
  cases h' with
  | andThenFails first' => exact first k d _ first' cut pos within
  | andThen first' matched =>
    have answered := first k d _ first' cut pos within
    exact answered.of_unlike fails matched (List.prefix_append ..).isInfix

theorem orElse (first : Replays full last a c o) (matched : o.matched = true) :
    Replays full last (.orElse a b) c o := by
  intro k d p h' cut pos within
  cases h' with
  | orElse first' => exact first k d _ first' cut pos within
  | orElseSecond first' fails =>
    have answered := first k d _ first' cut pos within
    exact answered.of_unlike matched fails (List.prefix_append ..).isInfix

/-- A first part that fails without reading leaves all tokens to the second. -/
theorem orElseSecond (first : Replays full last a c o) (fails : o.matched = false)
    (solid : a.solid = true) (second : Replays full last b o.cursor o') :
    Replays full last (.orElse a b) c (o.followedBy o') := by
  intro k d p h' cut pos within
  have before := within.part (List.prefix_append ..).isInfix
  cases h' with
  | orElse first' matched =>
    have answered := first k d _ first' cut pos before
    exact answered.of_unlike fails matched (List.infix_refl _)
  | orElseSecond first' fails' second' =>
    have stays' := first'.stays fails' (.inl solid)
    have answered := first k d _ first' cut pos before
    refine answered.followedBy cut within fun j cut' => ?_
    have left := cut'.length_rest
    rw [stays',cut.length_rest] at left
    exact second j _ _ second' cut' (by omega)

theorem manyMore (first : Replays full last a c o) (matched : o.matched = true)
    (less : o.cursor.rest.length < c.rest.length) (runs : Runs (.many a) o.cursor o')
    (second : Replays full last (.many a) o.cursor o') (honest : (Expr.many a).honest = true) :
    Replays full last (.many a) c (o.followedBy o') := by
  intro k d p h' cut pos within
  have before := within.part (List.prefix_append ..).isInfix
  cases h' with
  | manyMore first' _ _ second' =>
    have answered := first k d _ first' cut pos before
    exact answered.followedBy cut within fun j => second.after runs second' honest
  | manyStays first' _ stays =>
    have answered := first k d _ first' cut pos before
    exact answered.of_apart cut (fun iff => stays (iff.mpr less)) (List.infix_refl _)
  | manyEnds first' fails =>
    have answered := first k d _ first' cut pos before
    exact answered.of_unlike matched fails (List.infix_refl _)

theorem manyStays (first : Replays full last a c o) (matched : o.matched = true)
    (stays : ¬o.cursor.rest.length < c.rest.length) : Replays full last (.many a) c o := by
  intro k d p h' cut pos within
  cases h' with
  | manyStays first' => exact first k d _ first' cut pos within
  | manyMore first' _ less =>
    have answered := first k d _ first' cut pos within
    exact answered.of_apart cut (fun iff => stays (iff.mp less)) (List.prefix_append ..).isInfix
  | manyEnds first' fails =>
    have answered := first k d _ first' cut pos within
    exact answered.of_unlike matched fails (List.infix_refl _)

theorem manyEnds (first : Replays full last a c o) (fails : o.matched = false) :
    Replays full last (.many a) c { o with matched := true, cursor := c } := by
  intro k d p h' cut pos within
  cases h' with
  | manyEnds first' => exact (first k d _ first' cut pos within).restart true
  | manyMore first' matched =>
    have answered := first k d _ first' cut pos within
    exact answered.of_unlike fails matched (List.prefix_append ..).isInfix
  | manyStays first' matched =>
    have answered := first k d _ first' cut pos within
    exact answered.of_unlike fails matched (List.infix_refl _)

theorem nextYes (ahead : c.kind?.any kinds.contains = true) (yes : Replays full last a c o) :
    Replays full last (.next kinds a b) c o := by
  intro k d p h' cut pos within
  have same := cut.shares.kind?_eq pos
  cases h' with
  | nextYes _ yes' => exact yes k d _ yes' cut pos within
  | nextNo ahead' => simp [same,ahead] at ahead'

theorem nextNo (ahead : c.kind?.any kinds.contains = false) (no : Replays full last b c o) :
    Replays full last (.next kinds a b) c o := by
  intro k d p h' cut pos within
  have same := cut.shares.kind?_eq pos
  cases h' with
  | nextNo _ no' => exact no k d _ no' cut pos within
  | nextYes ahead' => simp [same,ahead] at ahead'

end Replays

theorem Runs.replays (last : Token) (h : Runs e c o) (honest : e.honestWithin = true) :
    Replays full last e c o := by
  -- On the first run. The second goes the same way, or has read the added token where the ways part.
  induction h with
  | done =>
    intro k d p h' cut pos _
    cases h'
    exact .start cut pos rfl rfl rfl (by simp [Recognizer.done])
  | reject => exact .reject _ _
  | token =>
    intro k d p h' cut pos _
    cases h'
    exact .token cut pos ..
  | trivia =>
    intro k d p h' cut pos _
    cases h'
    exact .trivia cut pos
  | escape =>
    intro k d p h' cut pos within
    cases h'
    exact .escape cut pos within
  | run =>
    intro k d p h' cut pos within
    cases h'
    exact .run cut pos _ within
  | call _ ih => exact .call (ih (body_honestWithin _))
  | andThen _ matched second ihFirst ihSecond =>
    simp only [Expr.honestWithin,Bool.and_eq_true] at honest
    exact .andThen (ihFirst honest.1.1) matched second (ihSecond honest.1.2) honest.2
  | andThenFails _ fails ih =>
    simp only [Expr.honestWithin,Bool.and_eq_true] at honest
    exact .andThenFails (ih honest.1.1) fails
  | orElse _ matched ih =>
    simp only [Expr.honestWithin,Bool.and_eq_true] at honest
    exact .orElse (ih honest.1.1) matched
  | orElseSecond first fails _ ihFirst ihSecond =>
    simp only [Expr.honestWithin,Bool.and_eq_true] at honest
    exact .orElseSecond (ihFirst honest.1.1) fails honest.2 (ihSecond honest.1.2)
  | optional _ ih => exact .optional (ih honest)
  | attempt _ ih => exact .attempt (ih honest)
  | manyMore _ matched less rest ihFirst ihSecond =>
    have whole := honest
    simp only [Expr.honestWithin,Bool.and_eq_true] at honest
    exact .manyMore (ihFirst honest.1) matched less rest (ihSecond whole) honest.2
  | manyStays _ matched stays ih =>
    simp only [Expr.honestWithin,Bool.and_eq_true] at honest
    exact .manyStays (ih honest.1) matched stays
  | manyEnds _ fails ih =>
    simp only [Expr.honestWithin,Bool.and_eq_true] at honest
    exact .manyEnds (ih honest.1) fails
  | nextYes ahead _ ih =>
    simp only [Expr.honestWithin,Bool.and_eq_true] at honest
    exact .nextYes ahead (ih honest.1)
  | nextNo ahead _ ih =>
    simp only [Expr.honestWithin,Bool.and_eq_true] at honest
    exact .nextNo ahead (ih honest.2)

end Grammar

def Token.endingBy (offset : Nat) (tokens : List Token) : List Token :=
  ((located 0 tokens).filter fun x => x.1 + x.2.byteLength ≤ offset).map Prod.snd

theorem Token.lt_of_mem_located {tokens : List Token} (proper : ∀ t ∈ tokens, t.text ≠ []) {base : Nat}
    {x : Nat × Token} (member : x ∈ located base tokens) : base < x.1 + x.2.byteLength := by
  induction tokens generalizing base with
  | nil => simp [located] at member
  | cons token rest ih =>
    obtain ⟨nonempty,proper⟩ := List.forall_mem_cons.mp proper
    have pos := byteLength_pos nonempty
    rcases List.mem_cons.mp member with rfl | later
    · exact Nat.lt_add_of_pos_right pos
    · exact Nat.lt_of_le_of_lt (Nat.le_add_right ..) (ih proper later)

theorem Token.map_filter_located {tokens : List Token} (proper : ∀ t ∈ tokens, t.text ≠ [])
    {base stop n : Nat} (same : stop = base + span (tokens.take n)) :
    ((located base tokens).filter fun x => x.1 + x.2.byteLength ≤ stop).map Prod.snd =
      tokens.take n := by
  induction tokens generalizing base n with
  | nil => simp [located]
  | cons token rest ih =>
    cases n with
    | zero =>
      rw [List.take_zero,List.map_eq_nil_iff,List.filter_eq_nil_iff]
      intro x member
      have past := lt_of_mem_located proper member
      exact decide_eq_true_iff.not.mpr (Nat.not_le.mpr (same ▸ past))
    | succ n =>
      rw [List.take_succ_cons,span_cons,← Nat.add_assoc] at same
      have kept : base + token.byteLength ≤ stop := same ▸ Nat.le_add_right ..
      have later := ih (List.forall_mem_cons.mp proper).2 same
      simp only [located,List.filter_cons,kept,decide_true,if_true,List.map_cons,later,
        List.take_succ_cons]

theorem Token.endingBy_span {tokens : List Token} (proper : ∀ t ∈ tokens, t.text ≠ []) (n : Nat) :
    endingBy (span (tokens.take n)) tokens = tokens.take n :=
  map_filter_located proper (Nat.zero_add _).symm

theorem Outcome.mem_misses_of_wishes {o : Outcome} {m : Miss} (wish : m ∈ o.wishes)
    (inside : m.expected ≠ .endOfInput) : m ∈ o.misses := by
  unfold wishes at wish
  split at wish
  · refine (List.mem_append.mp wish).resolve_right fun last => inside ?_
    rw [List.mem_singleton.mp last]
  · exact wish

theorem exists_span_take {source : Text} {start : StartRule} {e : SyntaxError}
    (fails : (parse source start).error = some e) :
    ∃ k ≤ (tokenize source).length, Token.span ((tokenize source).take k) = e.offset := by
  obtain ⟨x⟩ := reading source start
  obtain ⟨n,reach⟩ := x.trail.reach
  have stop : e.offset = Token.span ((tokenize source).take n) := by
    rw [offset_of_error fails,x.farthest_eq,reach]
    exact Nat.zero_add _
  refine ⟨min n (tokenize source).length,Nat.min_le_right ..,?_⟩
  rw [stop,← List.take_eq_take_min]

/-- Whoever adds what a message asks for to the tokens before the error gets further: a terminal is
matched that has the added token at its end. -/
theorem parse_takes_expected (source : Text) (start : StartRule) {e : SyntaxError}
    (fails : (parse source start).error = some e) {t : Terminal} (wished : .terminal t ∈ e.expected)
    (token : Token) (answers : token.kind.answers t = true) :
    let kept := Token.endingBy e.offset (tokenize source)
    let events := (start.recognizer ⟨0,kept ++ [token]⟩).events
    Token.span kept = e.offset ∧
      (∃ x ∈ Entry.terminals (Event.matched [] events),
        x.1.start ≤ e.offset ∧ x.1.stop = e.offset + token.byteLength) ∧
      Event.lastEnd (parse source start).events + token.byteLength ≤ Event.lastEnd events := by
  intro kept events
  obtain ⟨k,fits,span⟩ := exists_span_take fails
  have same : kept = (tokenize source).take k := by
    unfold kept
    rw [← span]
    exact Token.endingBy_span (fun _ => Token.text_ne_nil) k
  have stop : (Cursor.advance ⟨0,tokenize source⟩ k).offset = e.offset := (Nat.zero_add _).trans span
  have farthest := offset_eq_lastEnd fails
  have within : Event.Within (start.recognizer ⟨0,tokenize source⟩).events
      (Cursor.advance ⟨0,tokenize source⟩ k).offset := by
    rw [stop,farthest]
    exact Event.within_lastEnd _
  have cut : Cursor.Cut source k token ⟨0,tokenize source⟩ ⟨0,kept ++ [token]⟩ :=
    ⟨rfl,same ▸ rfl,fits,Cursor.in_tokenize source⟩
  have runs := start.runs_expr ⟨0,tokenize source⟩
  obtain ⟨honest,honestWithin⟩ := start.honest_expr
  have answered := Grammar.Replays.after (runs.replays token honestWithin) runs (start.runs_expr _) honest
    cut within
  have takes : Event.Takes events e.offset token := by
    cases answered with
    | taken takes => exact stop ▸ takes
    | agree _ _ _ _ _ refuses =>
      obtain ⟨m,wish,here,expected⟩ := (mem_expected_of_error fails _).mp wished
      refine absurd ⟨here.trans stop.symm,t,expected,answers⟩ (refuses m ?_)
      exact Outcome.mem_misses_of_wishes wish (by simp [expected])
  obtain ⟨x,shown,starts,ends⟩ := takes
  refine ⟨same ▸ span,⟨x,shown.mem_matched,starts,ends⟩,?_⟩
  rw [← farthest,← ends]
  exact Event.within_lastEnd _ x shown

/-- An attribute value without quotes is refused, and a quote is read in its place. -/
theorem parse_takes_expected_quote :
    (parse "[a=x]".toList .query).error = some ⟨3,some 'x',[.terminal .quote]⟩ ∧
      ∃ x ∈ Entry.terminals (Event.matched [] (StartRule.query.recognizer
          ⟨0,tokenize "[a=".toList ++ [⟨.quote,['"']⟩]⟩).events),
        x.1.start ≤ 3 ∧ x.1.stop = 4 := by
  have fails : (parse "[a=x]".toList .query).error = some ⟨3,some 'x',[.terminal .quote]⟩ := by
    simp only [parse,StartRule.recognizer,Grammar.recognize_eq]
    decide +kernel
  have kept : Token.endingBy 3 (tokenize "[a=x]".toList) = tokenize "[a=".toList := by decide +kernel
  have further := (parse_takes_expected _ .query fails (List.mem_singleton.mpr rfl) ⟨.quote,['"']⟩ rfl).2.1
  rw [kept] at further
  exact ⟨fails,further⟩

end CorpusQuery
