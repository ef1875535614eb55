import CorpusQuery.Proofs.Protocol
import Mathlib.Logic.Relation

/-! Runs of the grammar come to an end. A machine runs expressions step by step and with no guard: it enters
rules wherever they are called, and goes round in a repetition as long as its body matches. It ends since
each match of a rule, and of the body of a repetition, has read a token. -/
namespace CorpusQuery

namespace Cursor

def Moved (c d : Cursor) : Prop := ∃ n, 0 < n ∧ n ≤ c.rest.length ∧ d = c.advance n

theorem Reaches.moved {c d : Cursor} (h : c.Reaches d) (less : d.rest.length < c.rest.length) :
    c.Moved d := by
  obtain ⟨n,fits,rfl⟩ := h.within
  refine ⟨n,Nat.pos_of_ne_zero fun zero => ?_,fits,rfl⟩
  simp [zero] at less

end Cursor

namespace Grammar

/-- What is to be done when the innermost part of a run has ended. -/
inductive Frame where
  | andThen (second : Expr)
  | orElse (second : Expr)
  | optional
  | attempt (start : Cursor)
  /-- A repetition that has tried `body` from `start` on. -/
  | many (body : Expr) (start : Cursor)
  | rule (r : NonTerminal) (start : Cursor)

/-- What a run does next. -/
inductive Control where
  | enter (e : Expr)
  /-- Looks whether the token `n` places ahead belongs to a run of tokens. -/
  | scan (stop : Terminal) (n : Nat)
  /-- The innermost part has ended. -/
  | back (matched : Bool)

/-- A run of an expression at one moment, with what was reported so far. The innermost frame is first. -/
structure Machine where
  control : Control
  cursor : Cursor
  frames : List Frame
  events : List Event
  misses : List Miss

namespace Machine

def endWith (m : Machine) (o : Outcome) : Machine where
  control := .back o.matched
  cursor := o.cursor
  frames := m.frames
  events := m.events ++ o.events
  misses := m.misses ++ o.misses

def inRun (stop : Terminal) (kind : Option Terminal) : Bool :=
  kind.any fun k => k != stop && k != .backslash

def enter (m : Machine) : Expr → Machine
  | .done => m.endWith (Recognizer.done m.cursor)
  | .reject kinds => m.endWith ((Recognizer.miss kinds).andThen .reject m.cursor)
  | .token kind tag => m.endWith (Recognizer.token kind tag m.cursor)
  | .trivia => m.endWith (Recognizer.trivia m.cursor)
  | .escape => m.endWith (Recognizer.escape m.cursor)
  | .run stop =>
    if inRun stop m.cursor.kind? then { m with control := .scan stop 1 }
    else m.endWith (Recognizer.reject m.cursor)
  | .call r =>
    { m with
      control := .enter (body r)
      frames := .rule r m.cursor :: m.frames
      events := m.events ++ [.enter (.nonTerminal r) m.cursor.offset] }
  | .andThen first second => { m with control := .enter first, frames := .andThen second :: m.frames }
  | .orElse first second => { m with control := .enter first, frames := .orElse second :: m.frames }
  | .optional body => { m with control := .enter body, frames := .optional :: m.frames }
  | .attempt body => { m with control := .enter body, frames := .attempt m.cursor :: m.frames }
  | .many body => { m with control := .enter body, frames := .many body m.cursor :: m.frames }
  | .next kinds yes no =>
    { m with control := .enter (if m.cursor.kind?.any kinds.contains then yes else no) }

/-- Goes on with the innermost frame, of which the part has ended. -/
def resume (m : Machine) (matched : Bool) : Frame → Machine
  | .andThen second => { m with control := if matched then .enter second else .back false }
  | .orElse second => { m with control := if matched then .back true else .enter second }
  | .optional => { m with control := .back true }
  | .attempt start =>
    { m with control := .back matched, cursor := if matched then m.cursor else start }
  | .many body start =>
    if matched then { m with control := .enter (.many body) }
    else { m with control := .back true, cursor := start }
  | .rule r start =>
    if matched then
      { m with control := .back true, events := m.events ++ [.leave m.cursor.offset] }
    else
      { m with
        control := .back false
        cursor := start
        events := m.events ++ [.fail (.nonTerminal r)] }

/-- One step of a run; none when all parts have ended. -/
def next? (m : Machine) : Option Machine :=
  match m.control with
  | .enter e => some (m.enter e)
  | .scan stop n =>
    some (if inRun stop (m.cursor.kindAt? n) then { m with control := .scan stop (n + 1) }
      else m.endWith (Recognizer.take .regExpChars n m.cursor))
  | .back matched =>
    match m.frames with
    | [] => none
    | frame :: frames => some ({ m with frames }.resume matched frame)

abbrev Leads : Machine → Machine → Prop := Relation.ReflTransGen fun m m' => m.next? = some m'

/-- From here on there are only finitely many steps. -/
abbrev Halts : Machine → Prop := Acc fun m' m => m.next? = some m'

section Returns

variable {m m' : Machine} {a b e : Expr} {c d : Cursor} {o p : Outcome} {frame : Frame}

theorem Leads.halts (leads : m.Leads m') (last : m'.next? = none) : m.Halts := by
  induction leads using Relation.ReflTransGen.head_induction_on with
  | refl => exact ⟨_,fun m' step => by simp [last] at step⟩
  | head step _ ih =>
    refine ⟨_,fun other step' => ?_⟩
    obtain rfl := Option.some.inj (step.symm.trans step')
    exact ih

/-- Entered anywhere at the cursor, an expression comes back with the outcome. -/
def Returns (e : Expr) (c : Cursor) (o : Outcome) : Prop :=
  ∀ frames events misses, Leads ⟨.enter e,c,frames,events,misses⟩
    ⟨.back o.matched,o.cursor,frames,events ++ o.events,misses ++ o.misses⟩

theorem Returns.resume (h : Returns a d o) {frames : List Frame} {events : List Event}
    {misses : List Miss} (step : m.next? = some ⟨.enter a,d,frame :: frames,events,misses⟩) :
    m.Leads (Machine.resume ⟨.back o.matched,o.cursor,frames,events ++ o.events,misses ++ o.misses⟩
      o.matched frame) :=
  .head step (.tail (h _ _ _) rfl)

theorem Leads.followedBy {frames : List Frame} {events : List Event} {misses : List Miss}
    (first : m.Leads ⟨.enter b,o.cursor,frames,events ++ o.events,misses ++ o.misses⟩)
    (second : Returns b o.cursor p) :
    m.Leads ⟨.back p.matched,p.cursor,frames,events ++ (o.followedBy p).events,
      misses ++ (o.followedBy p).misses⟩ := by
  have both := first.trans (second frames _ _)
  simpa only [Outcome.followedBy,List.append_assoc] using both

/-- Up to where a run of tokens ends, the next token belongs to it unless this is the end. -/
theorem inRun_iff {stop : Terminal} {n : Nat} (le : n ≤ Recognizer.runLength stop c.rest) :
    inRun stop (c.kindAt? n) = true ↔ n < Recognizer.runLength stop c.rest := by
  rw [Cursor.kindAt?]
  generalize c.rest = tokens at le ⊢
  induction tokens generalizing n with
  | nil => simp [inRun,Recognizer.runLength]
  | cons token rest ih =>
    cases inside : token.kind != stop && token.kind != .backslash with
    | false =>
      simp only [Recognizer.runLength,List.takeWhile_cons,inside] at le ⊢
      obtain rfl := Nat.le_zero.mp le
      simp [inRun,inside]
    | true =>
      simp only [Recognizer.runLength,List.takeWhile_cons,inside] at ih le ⊢
      cases n with
      | zero => simp [inRun,inside]
      | succ n => simpa using ih (Nat.le_of_succ_le_succ le)

/-- Scanning stops behind the last token of a run. -/
theorem leads_scan {stop : Terminal} {n : Nat} (le : n ≤ Recognizer.runLength stop c.rest)
    (same : m.cursor = c) : Leads { m with control := .scan stop n }
      (m.endWith (Recognizer.take .regExpChars (Recognizer.runLength stop c.rest) c)) := by
  subst same
  obtain ⟨left,total⟩ := Nat.exists_eq_add_of_le le
  have looked := inRun_iff le
  induction left generalizing n with
  | zero =>
    obtain rfl : n = Recognizer.runLength stop m.cursor.rest := total.symm
    have last := Bool.eq_false_iff.mpr (mt looked.mp (Nat.lt_irrefl _))
    refine .single ?_
    simp only [next?,last,Bool.false_eq_true,if_false]
    rfl
  | succ left ih =>
    have more : n + 1 ≤ Recognizer.runLength stop m.cursor.rest := by omega
    refine .head ?_ (ih more (by omega) (inRun_iff more))
    simp only [next?,looked.mpr more,if_true]

end Returns

end Machine

namespace Expr

/-- Repeats only what reads a token when it matches. -/
def progressive : Expr → Bool
  | .andThen first second | .orElse first second => first.progressive && second.progressive
  | .optional body | .attempt body => body.progressive
  | .many body => body.progressive && !body.nullable
  | .next _ yes no => yes.progressive && no.progressive
  | _ => true

def parts : Expr → List Expr
  | .call r => [body r]
  | .andThen first second | .orElse first second => [first,second]
  | .optional body | .attempt body | .many body => [body]
  | .next _ yes no => [yes,no]
  | _ => []

abbrev Within : Expr → Expr → Prop := Relation.ReflTransGen fun part e => part ∈ e.parts

end Expr

theorem progressive_body (r : NonTerminal) : (body r).progressive = true := by cases r <;> rfl

theorem progressive_of_mem_parts {part e : Expr} (member : part ∈ e.parts)
    (progressive : e.progressive = true) : part.progressive = true := by
  cases e with
  | done | reject | token | trivia | escape | run => simp [Expr.parts] at member
  | call r =>
    obtain rfl := List.mem_singleton.mp member
    exact progressive_body r
  | optional body | attempt body =>
    obtain rfl := List.mem_singleton.mp member
    exact progressive
  | many body =>
    obtain rfl := List.mem_singleton.mp member
    exact (Bool.and_eq_true_iff.mp progressive).1
  | andThen first second | orElse first second | next _ first second =>
    obtain ⟨first,second⟩ := Bool.and_eq_true_iff.mp progressive
    rcases List.mem_pair.mp member with rfl | rfl
    · exact first
    · exact second

theorem progressive_of_within {part e : Expr} (within : part.Within e)
    (progressive : e.progressive = true) : part.progressive = true := by
  induction within with
  | refl => exact progressive
  | tail _ member ih => exact ih (progressive_of_mem_parts member progressive)

open Machine in
theorem Runs.returns {e : Expr} {c : Cursor} {o : Outcome} (h : Runs e c o)
    (progressive : e.progressive = true) : Returns e c o := by
  induction h with
  | done | reject | token | trivia | escape => exact fun _ _ _ => .single rfl
  | @run stop c =>
    intro frames events misses
    have looked : inRun stop c.kind? = true ↔ _ := inRun_iff (Nat.zero_le _)
    unfold Recognizer.run
    split
    next zero =>
      have out : inRun stop c.kind? = false := by simpa [zero] using looked
      refine .single ?_
      simp [next?,enter,out,endWith]
    next zero =>
      have pos := Nat.pos_of_ne_zero zero
      refine .head ?_ (leads_scan (m := ⟨.enter (.run stop),c,frames,events,misses⟩) pos rfl)
      simp only [next?,enter,looked.mpr pos,if_true]
  | @call r c o _ ih =>
    intro frames events misses
    have back := (ih (progressive_body r)).resume (m := ⟨.enter (.call r),c,frames,events,misses⟩) rfl
    cases matched : o.matched <;> simpa [resume,Recognizer.rule,matched] using back
  | @andThen a c o b p _ matched _ ihFirst ihSecond =>
    obtain ⟨first,second⟩ := Bool.and_eq_true_iff.mp progressive
    intro frames events misses
    have back := (ihFirst first).resume
      (m := ⟨.enter (.andThen a b),c,frames,events,misses⟩) rfl
    simp only [matched,resume,if_true] at back
    exact back.followedBy (ihSecond second)
  | @andThenFails a c o b _ fails ih =>
    obtain ⟨first,-⟩ := Bool.and_eq_true_iff.mp progressive
    intro frames events misses
    have back := (ih first).resume (m := ⟨.enter (.andThen a b),c,frames,events,misses⟩) rfl
    simpa [fails,resume] using back
  | @orElse a c o b _ matched ih =>
    obtain ⟨first,-⟩ := Bool.and_eq_true_iff.mp progressive
    intro frames events misses
    have back := (ih first).resume (m := ⟨.enter (.orElse a b),c,frames,events,misses⟩) rfl
    simpa [matched,resume] using back
  | @orElseSecond a c o b p _ fails _ ihFirst ihSecond =>
    obtain ⟨first,second⟩ := Bool.and_eq_true_iff.mp progressive
    intro frames events misses
    have back := (ihFirst first).resume (m := ⟨.enter (.orElse a b),c,frames,events,misses⟩) rfl
    simp only [fails,resume,Bool.false_eq_true,if_false] at back
    exact back.followedBy (ihSecond second)
  | @optional a c o _ ih =>
    intro frames events misses
    exact (ih progressive).resume (m := ⟨.enter (.optional a),c,frames,events,misses⟩) rfl
  | @attempt a c o _ ih =>
    intro frames events misses
    have back := (ih progressive).resume (m := ⟨.enter (.attempt a),c,frames,events,misses⟩) rfl
    cases matched : o.matched <;> simpa [resume,Recognizer.attempt,matched] using back
  | @manyMore a c o p _ matched _ _ ihFirst ihSecond =>
    intro frames events misses
    have back := (ihFirst (Bool.and_eq_true_iff.mp progressive).1).resume
      (m := ⟨.enter (.many a),c,frames,events,misses⟩) rfl
    simp only [matched,resume,if_true] at back
    exact back.followedBy (ihSecond progressive)
  | manyStays first matched still =>
    -- The guard is not needed: a body that has matched has read a token.
    have notNullable := (Bool.and_eq_true_iff.mp progressive).2
    exact absurd (first.shrinks.2 matched (by simpa using notNullable)) still
  | @manyEnds a c o _ fails ih =>
    intro frames events misses
    have back := (ih (Bool.and_eq_true_iff.mp progressive).1).resume
      (m := ⟨.enter (.many a),c,frames,events,misses⟩) rfl
    simpa [fails,resume] using back
  | @nextYes c kinds yes o no ahead _ ih =>
    intro frames events misses
    refine .head ?_ (ih (Bool.and_eq_true_iff.mp progressive).1 frames events misses)
    simp only [next?,enter,ahead,if_true]
  | @nextNo c kinds no o yes ahead _ ih =>
    intro frames events misses
    refine .head ?_ (ih (Bool.and_eq_true_iff.mp progressive).2 frames events misses)
    simp only [next?,enter,ahead,Bool.false_eq_true,if_false]

open Machine in
/-- A repetition whose body matches and reads nothing goes on for ever. -/
theorem not_halts_many {body : Expr} {c : Cursor} (idle : Returns body c (Recognizer.done c))
    (frames : List Frame) (events : List Event) (misses : List Miss) :
    ¬Halts ⟨.enter (.many body),c,frames,events,misses⟩ := by
  intro halts
  have round : Relation.TransGen (fun m m' : Machine => m.next? = some m')
      ⟨.enter (.many body),c,frames,events,misses⟩ ⟨.enter (.many body),c,frames,events,misses⟩ := by
    have comes := idle (.many body c :: frames) events misses
    simp only [Recognizer.done,List.append_nil] at comes
    exact .head' rfl (comes.tail rfl)
  have accessible := halts.transGen
  generalize (⟨.enter (.many body),c,frames,events,misses⟩ : Machine) = m at round accessible
  induction accessible with
  | intro m _ ih => exact ih m (Relation.transGen_swap.mpr round) round

/-! ### The functions of the grammar -/

/-- A function of the grammar: one for each rule, those that rules share, and those that start. -/
inductive Routine where
  | rule (r : NonTerminal)
  /-- What stands in parentheses. -/
  | group
  | positionPair
  /-- Escapes and runs up to a token of the kind `stop`. -/
  | elements (stop : Terminal)
  /-- A start rule with the white space round it. -/
  | entry (start : StartRule)

namespace Routine

open Grammar.Expr in
def expr : Routine → Expr
  | .rule r => .call r
  | .group => steps [mark .lParen,.trivia,grouped,.trivia,mark .rParen]
  | .positionPair => Grammar.positionPair
  | .elements stop => Expr.elements stop
  | .entry start => start.expr

/-- The rule as which a function reports itself, if it does. -/
def rule? : Routine → Option NonTerminal
  | .rule r => some r
  | _ => none

def run (f : Routine) : Recognizer := f.expr.recognizer recognize

end Routine

/-- A function ends because what it does again and again reads tokens. Its parts are those of the rules that
it calls as well, so that the recursion of the rules is among them. -/
structure Routine.Terminates (f : Routine) : Prop where
  /-- If it matches, it has read a token. -/
  reads : ∀ c, (f.run c).matched = true → c.Moved (f.run c).cursor
  /-- If it reports itself as a rule and fails, it has read nothing. -/
  rewinds : f.rule?.isSome = true → ∀ c, (f.run c).matched = false → (f.run c).cursor = c
  /-- A repetition in it that goes on has read a token since it came round before. -/
  repeats : ∀ body, (Expr.many body).Within f.expr → ∀ c,
    (body.recognizer recognize c).matched = true → c.Moved (body.recognizer recognize c).cursor
  /-- Without any guard, it comes back from wherever it is called, with the outcome; so does each
  repetition and each other part of it. -/
  returns : ∀ part, part.Within f.expr → ∀ c, Machine.Returns part c (part.recognizer recognize c)
  /-- Nor does it go on then, if nothing is left to go on with. -/
  halts : ∀ part, part.Within f.expr → ∀ c events misses,
    Machine.Halts ⟨.enter part,c,[],events,misses⟩

theorem Runs.moved {e : Expr} {c : Cursor} {o : Outcome} (h : Runs e c o) (notNullable : e.nullable = false)
    (matched : o.matched = true) : c.Moved o.cursor :=
  h.orderly.reaches.moved (h.shrinks.2 matched notNullable)

theorem Routine.progressive_expr (f : Routine) : f.expr.progressive = true := by
  cases f <;> rfl

theorem Routine.not_nullable_expr (f : Routine) : f.expr.nullable = false := by
  cases f <;> rfl

/-- Every function of the grammar terminates, on every list of tokens. -/
theorem Routine.terminates (f : Routine) : f.Terminates where
  reads := fun c => (runs_recognizer f.expr c).moved f.not_nullable_expr
  rewinds := by
    intro isRule c fails
    cases f with
    | rule r =>
      simp only [run,expr,Expr.recognizer] at fails ⊢
      rw [recognize] at fails ⊢
      exact cursor_rule fails
    | group | positionPair | elements | entry => simp [rule?] at isRule
  repeats := by
    intro body within c
    have progressive := progressive_of_within within f.progressive_expr
    refine (runs_recognizer body c).moved ?_
    simpa using (Bool.and_eq_true_iff.mp progressive).2
  returns := fun part within c =>
    (runs_recognizer part c).returns (progressive_of_within within f.progressive_expr)
  halts := fun part within c events misses =>
    ((runs_recognizer part c).returns (progressive_of_within within f.progressive_expr) [] events
      misses).halts rfl

end Grammar

end CorpusQuery
