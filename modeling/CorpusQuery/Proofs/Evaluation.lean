import Mathlib.Data.List.Basic
import Mathlib.Data.Nat.Basic
import Mathlib.Data.Nat.Init
import Mathlib.Order.Basic
import Mathlib.Tactic.Common
import CorpusQuery.Grammar

/-! How expressions of the grammar run, as a relation. The recognizer of a rule is guarded so that
its recursion ends; the guard never fires, and a run enters the body of a rule without it. -/
namespace CorpusQuery

namespace Cursor

@[simp] theorem advance_zero (c : Cursor) : c.advance 0 = c := by simp [advance]

@[simp] theorem rest_advance (c : Cursor) (n : Nat) : (c.advance n).rest = c.rest.drop n := rfl

theorem rest_of_isAt {c : Cursor} {kind : Terminal} (at_ : c.isAt kind = true) :
    ∃ token rest, c.rest = token :: rest ∧ token.kind = kind := by
  cases h : c.rest with
  | nil => simp [isAt,kind?,kindAt?,h] at at_
  | cons token rest => exact ⟨token,rest,rfl,by simpa [isAt,kind?,kindAt?,h] using at_⟩

theorem one_le_of_isAt {c : Cursor} {kind : Terminal} (at_ : c.isAt kind = true) :
    1 ≤ c.rest.length := by
  obtain ⟨token,rest,split,-⟩ := rest_of_isAt at_
  simp [split]

theorem rest_advance_lt {c : Cursor} {n : Nat} (nonzero : n ≠ 0) (fits : n ≤ c.rest.length) :
    (c.advance n).rest.length < c.rest.length := by
  rw [rest_advance,List.length_drop]
  omega

end Cursor

theorem Recognizer.take_eq {c : Cursor} {n : Nat} (tag : Terminal) (nonzero : n ≠ 0)
    (fits : n ≤ c.rest.length) : take tag n c = ⟨true,c.advance n,
      [.enter (.terminal tag) c.offset,.leave (c.advance n).offset],[]⟩ := by
  have inside : ¬(n = 0 ∨ c.rest.length < n) := by omega
  simp only [take,inside,if_false]

namespace Grammar

/-- Running an expression at a cursor. A rule that fails gives its tokens back; so does the part of
a repetition that is tried last. -/
inductive Runs : Expr → Cursor → Outcome → Prop where
  | done : Runs .done c (Recognizer.done c)
  | reject : Runs (.reject kinds) c ((Recognizer.miss kinds).andThen Recognizer.reject c)
  | token : Runs (.token kind tag) c (Recognizer.token kind tag c)
  | trivia : Runs .trivia c (Recognizer.trivia c)
  | escape : Runs .escape c (Recognizer.escape c)
  | run : Runs (.run stop) c (Recognizer.run stop c)
  | call : Runs (body r) c o → Runs (.call r) c (Recognizer.rule r (fun _ => o) c)
  | andThen : Runs a c o → o.matched = true → Runs b o.cursor p →
      Runs (.andThen a b) c (o.followedBy p)
  | andThenFails : Runs a c o → o.matched = false → Runs (.andThen a b) c o
  | orElse : Runs a c o → o.matched = true → Runs (.orElse a b) c o
  | orElseSecond : Runs a c o → o.matched = false → Runs b o.cursor p →
      Runs (.orElse a b) c (o.followedBy p)
  | optional : Runs a c o → Runs (.optional a) c { o with matched := true }
  | attempt : Runs a c o → Runs (.attempt a) c (Recognizer.attempt (fun _ => o) c)
  | manyMore : Runs a c o → o.matched = true → o.cursor.rest.length < c.rest.length →
      Runs (.many a) o.cursor p → Runs (.many a) c (o.followedBy p)
  | manyStays : Runs a c o → o.matched = true → ¬o.cursor.rest.length < c.rest.length →
      Runs (.many a) c o
  | manyEnds : Runs a c o → o.matched = false →
      Runs (.many a) c { o with matched := true, cursor := c }
  | nextYes : c.kind?.any kinds.contains = true → Runs yes c o → Runs (.next kinds yes no) c o
  | nextNo : c.kind?.any kinds.contains = false → Runs no c o → Runs (.next kinds yes no) c o

namespace Expr

/-- May match without reading a token. -/
def nullable : Expr → Bool
  | .done | .trivia | .optional _ | .many _ => true
  | .reject _ | .token _ _ | .escape | .run _ | .call _ => false
  | .andThen first second => first.nullable && second.nullable
  | .orElse first second => first.nullable || second.nullable
  | .attempt body => body.nullable
  | .next _ yes no => yes.nullable || no.nullable

def leading : Expr → List NonTerminal
  | .call r => [r]
  | .andThen first second => first.leading ++ (if first.nullable then second.leading else [])
  | .orElse first second => first.leading ++ second.leading
  | .optional body | .attempt body | .many body => body.leading
  | .next _ yes no => yes.leading ++ no.leading
  | _ => []

end Expr

theorem body_not_nullable (r : NonTerminal) : (body r).nullable = false := by cases r <;> rfl

theorem rank_of_leading {r s : NonTerminal} (member : s ∈ (body r).leading) : rank s < rank r := by
  revert s
  cases r <;> decide

theorem runLength_le (stop : Terminal) (tokens : List Token) :
    Recognizer.runLength stop tokens ≤ tokens.length :=
  (List.takeWhile_prefix _).length_le

theorem runLength_take (stop : Terminal) (tokens : List Token) (n : Nat) :
    Recognizer.runLength stop (tokens.take n) = min n (Recognizer.runLength stop tokens) := by
  rw [Recognizer.runLength,Recognizer.runLength,← List.take_takeWhile,List.length_take]

theorem take_rest_lt {c : Cursor} {n : Nat} (tag : Terminal) (nonzero : n ≠ 0)
    (fits : n ≤ c.rest.length) : (Recognizer.take tag n c).cursor.rest.length < c.rest.length := by
  rw [Recognizer.take_eq tag nonzero fits]
  exact Cursor.rest_advance_lt nonzero fits

theorem escape_fits {c : Cursor} (at_ : c.isAt .backslash = true) :
    (if (c.kindAt? 1).isSome then 2 else 1) ≤ c.rest.length := by
  obtain ⟨token,rest,split,-⟩ := Cursor.rest_of_isAt at_
  cases rest <;> simp [Cursor.kindAt?,split]

theorem token_rest_lt {c : Cursor} {kind tag : Terminal}
    (matched : (Recognizer.token kind tag c).matched = true) :
    (Recognizer.token kind tag c).cursor.rest.length < c.rest.length := by
  unfold Recognizer.token at matched ⊢
  split at matched
  next at_ =>
    simp only [at_,if_true]
    exact take_rest_lt tag Nat.one_ne_zero (Cursor.one_le_of_isAt at_)
  next => simp at matched

theorem token_rest_le (c : Cursor) (kind tag : Terminal) :
    (Recognizer.token kind tag c).cursor.rest.length ≤ c.rest.length := by
  by_cases matched : (Recognizer.token kind tag c).matched = true
  · exact (token_rest_lt matched).le
  · unfold Recognizer.token at matched ⊢
    split
    next at_ =>
      exact (take_rest_lt tag Nat.one_ne_zero (Cursor.one_le_of_isAt at_)).le
    next => simp

theorem cursor_rule {r : NonTerminal} {p : Recognizer} {c : Cursor}
    (fails : (Recognizer.rule r p c).matched = false) : (Recognizer.rule r p c).cursor = c := by
  simp only [Recognizer.rule] at fails ⊢
  split at fails
  next matched => simp [matched] at fails
  next notMatched => rw [if_neg notMatched]

/-- A match of an expression that is not nullable reads a token, and no run ends before its start. -/
theorem Runs.shrinks {e : Expr} {c : Cursor} {o : Outcome} (h : Runs e c o) :
    o.cursor.rest.length ≤ c.rest.length ∧
    (o.matched = true → e.nullable = false → o.cursor.rest.length < c.rest.length) := by
  induction h with
  | done => simp [Recognizer.done,Expr.nullable]
  | reject => simp [Recognizer.miss,Recognizer.reject,Recognizer.andThen,Outcome.followedBy]
  | token => exact ⟨token_rest_le ..,fun matched _ => token_rest_lt matched⟩
  | @trivia c =>
    refine ⟨?_,by simp [Expr.nullable]⟩
    unfold Recognizer.trivia
    split
    · exact token_rest_le ..
    · simp [Recognizer.done]
  | @escape c =>
    unfold Recognizer.escape
    split
    next at_ =>
      have less := take_rest_lt .regExpEscape (by split <;> simp) (escape_fits at_)
      exact ⟨less.le,fun _ _ => less⟩
    next => simp [Recognizer.reject]
  | @run stop c =>
    unfold Recognizer.run
    split
    next => simp [Recognizer.reject]
    next zero =>
      have less := take_rest_lt .regExpChars zero (runLength_le stop c.rest)
      exact ⟨less.le,fun _ _ => less⟩
  | @call r c o inner ih =>
    by_cases matched : o.matched = true
    · have less := ih.2 matched (body_not_nullable r)
      simp [Recognizer.rule,matched,less,less.le]
    · simp [Recognizer.rule,matched]
  | andThen first matched second ihFirst ihSecond =>
    refine ⟨ihSecond.1.trans ihFirst.1,fun ends notNullable => ?_⟩
    simp only [Expr.nullable,Bool.and_eq_false_iff] at notNullable
    rcases notNullable with first | second
    · exact Nat.lt_of_le_of_lt ihSecond.1 (ihFirst.2 matched first)
    · exact Nat.lt_of_lt_of_le (ihSecond.2 ends second) ihFirst.1
  | andThenFails first fails ih => exact ⟨ih.1,by simp [fails]⟩
  | orElse first matched ih =>
    refine ⟨ih.1,fun _ notNullable => ih.2 matched ?_⟩
    simp only [Expr.nullable,Bool.or_eq_false_iff] at notNullable
    exact notNullable.1
  | orElseSecond first fails second ihFirst ihSecond =>
    refine ⟨ihSecond.1.trans ihFirst.1,fun ends notNullable => ?_⟩
    simp only [Expr.nullable,Bool.or_eq_false_iff] at notNullable
    exact Nat.lt_of_lt_of_le (ihSecond.2 ends notNullable.2) ihFirst.1
  | optional _ ih => exact ⟨ih.1,by simp [Expr.nullable]⟩
  | @attempt a c o inner ih =>
    by_cases matched : o.matched = true
    · simpa [Recognizer.attempt,matched] using ⟨ih.1,ih.2 matched⟩
    · simp [Recognizer.attempt,matched]
  | manyMore first matched progress second ihFirst ihSecond =>
    exact ⟨ihSecond.1.trans ihFirst.1,by simp [Expr.nullable]⟩
  | manyStays first matched still ih => exact ⟨ih.1,by simp [Expr.nullable]⟩
  | manyEnds => simp [Expr.nullable]
  | nextYes _ inner ih =>
    exact ⟨ih.1,fun ends notNullable => ih.2 ends (Bool.or_eq_false_iff.mp notNullable).1⟩
  | nextNo _ inner ih =>
    exact ⟨ih.1,fun ends notNullable => ih.2 ends (Bool.or_eq_false_iff.mp notNullable).2⟩

/-- If calls run rules at the cursors at which an expression makes them, the expression runs. `good` says
where it may, and has to hold on for what is left when a part has run. -/
theorem runs_of_calls {call : NonTerminal → Recognizer} (good : Cursor → Expr → Prop)
    (mono : ∀ {d d' : Cursor} {e e' : Expr}, good d e → d'.rest.length ≤ d.rest.length →
      (d'.rest.length = d.rest.length → e'.leading ⊆ e.leading) → good d' e')
    (calls : ∀ s d, good d (.call s) → Runs (.call s) d (call s d))
    (e : Expr) (d : Cursor) (here : good d e) : Runs e d (e.recognizer call d) := by
  induction e generalizing d with
  | done => exact .done
  | reject => exact .reject
  | token => exact .token
  | trivia => exact .trivia
  | escape => exact .escape
  | run => exact .run
  | call s => exact calls s d here
  | andThen first second ihFirst ihSecond =>
    have runsFirst := ihFirst d (mono here le_rfl fun _ => List.subset_append_left ..)
    by_cases matched : (first.recognizer call d).matched = true
    · have next : good (first.recognizer call d).cursor second := by
        refine mono here runsFirst.shrinks.1 fun same => ?_
        have nullable : first.nullable = true := by
          by_contra h
          have := runsFirst.shrinks.2 matched (by simpa using h)
          omega
        simp [Expr.leading,nullable]
      simpa [Expr.recognizer,Recognizer.andThen,matched] using
        Runs.andThen runsFirst matched (ihSecond _ next)
    · simpa [Expr.recognizer,Recognizer.andThen,matched] using
        Runs.andThenFails (b := second) runsFirst (by simpa using matched)
  | orElse first second ihFirst ihSecond =>
    have runsFirst := ihFirst d (mono here le_rfl fun _ => List.subset_append_left ..)
    by_cases matched : (first.recognizer call d).matched = true
    · simpa [Expr.recognizer,Recognizer.orElse,matched] using
        Runs.orElse (b := second) runsFirst matched
    · have next : good (first.recognizer call d).cursor second :=
        mono here runsFirst.shrinks.1 fun _ => List.subset_append_right ..
      simpa [Expr.recognizer,Recognizer.orElse,matched] using
        Runs.orElseSecond runsFirst (by simpa using matched) (ihSecond _ next)
  | optional body ih => exact .optional (ih d (mono here le_rfl fun _ => List.Subset.refl _))
  | attempt body ih => exact .attempt (ih d (mono here le_rfl fun _ => List.Subset.refl _))
  | many body ih =>
    -- The repetition recurs on the tokens that are left.
    induction left : d.rest.length using Nat.strongRecOn generalizing d with
    | _ left again =>
      subst left
      have runsBody := ih d (mono here le_rfl fun _ => List.Subset.refl _)
      simp only [Expr.recognizer]
      rw [Recognizer.many]
      by_cases matched : (body.recognizer call d).matched = true
      · by_cases progress : (body.recognizer call d).cursor.rest.length < d.rest.length
        · have next : good (body.recognizer call d).cursor (.many body) :=
            mono here runsBody.shrinks.1 fun _ => List.Subset.refl _
          have more := Runs.manyMore runsBody matched progress (again _ progress _ next rfl)
          simpa [Expr.recognizer,Recognizer.attempt,matched,progress] using more
        · have stays := Runs.manyStays runsBody matched progress
          simp only [Recognizer.attempt,matched,progress,if_true,and_false,if_false]
          exact matched ▸ stays
      · simpa [Recognizer.attempt,matched] using
          Runs.manyEnds runsBody (by simpa using matched)
  | next kinds yes no ihYes ihNo =>
    by_cases ahead : d.kind?.any kinds.contains = true
    · have run : Runs (.next kinds yes no) d _ := Runs.nextYes ahead
        (ihYes d (mono here le_rfl fun _ => List.subset_append_left ..))
      simpa [Expr.recognizer,ahead] using run
    · have run : Runs (.next kinds yes no) d _ := Runs.nextNo (by simpa using ahead)
        (ihNo d (mono here le_rfl fun _ => List.subset_append_right ..))
      simpa [Expr.recognizer,ahead] using run

section Guarded

/-- Rules entered at the cursor `d` from the rule `r` at the cursor `c`, with the guard of
`recognize`. -/
def guarded (r : NonTerminal) (c : Cursor) (s : NonTerminal) (d : Cursor) : Outcome :=
  if d.rest.length < c.rest.length ∨ d.rest.length = c.rest.length ∧ rank s < rank r then
    recognize s d
  else Recognizer.reject d

/-- A place from which the guard of the rule `r` at the cursor `c` lets an expression run. -/
def Admits (r : NonTerminal) (c d : Cursor) (e : Expr) : Prop :=
  d.rest.length < c.rest.length ∨
    d.rest.length = c.rest.length ∧ ∀ s ∈ e.leading, rank s < rank r

variable {r : NonTerminal} {c : Cursor}

theorem Admits.mono {d d' : Cursor} {e e' : Expr} (h : Admits r c d e)
    (le : d'.rest.length ≤ d.rest.length)
    (leads : d'.rest.length = d.rest.length → e'.leading ⊆ e.leading) : Admits r c d' e' := by
  rcases Nat.lt_or_eq_of_le le with less | same
  · rcases h with h | h
    · exact .inl (less.trans h)
    · exact .inl (h.1 ▸ less)
  · rcases h with h | h
    · exact .inl (same ▸ h)
    · exact .inr ⟨same.trans h.1,fun s member => h.2 s (leads same member)⟩

/-- Where the guard lets an expression run, it runs as if there were none. -/
theorem runs_guarded (entered : ∀ s d, d.rest.length < c.rest.length ∨
      d.rest.length = c.rest.length ∧ rank s < rank r → Runs (.call s) d (recognize s d))
    (e : Expr) (d : Cursor) (admits : Admits r c d e) :
    Runs e d (e.recognizer (guarded r c) d) := by
  refine runs_of_calls (Admits r c) Admits.mono (fun s d admits => ?_) e d admits
  have here : d.rest.length < c.rest.length ∨ d.rest.length = c.rest.length ∧ rank s < rank r :=
    admits.imp_right fun h => ⟨h.1,h.2 s (by simp [Expr.leading])⟩
  simpa [guarded,here] using entered s d here

end Guarded

theorem runs_recognize (r : NonTerminal) (c : Cursor) : Runs (.call r) c (recognize r c) := by
  rw [recognize]
  exact .call (runs_guarded (r := r) (c := c) (fun s d _ => runs_recognize s d) (body r) c
    (.inr ⟨rfl,fun _ member => rank_of_leading member⟩))
termination_by (c.rest.length,rank r)
decreasing_by
  rename_i h
  rcases h with less | ⟨same,lower⟩
  · exact Prod.Lex.left _ _ less
  · rw [same]; exact Prod.Lex.right _ lower

/-- An expression runs as its recognizer does when the rules in it are recognized. -/
theorem runs_recognizer (e : Expr) (c : Cursor) : Runs e c (e.recognizer recognize c) :=
  runs_of_calls (fun _ _ => True) (fun _ _ _ => trivial) (fun r d _ => runs_recognize r d) e c trivial

/-- Recognizes a rule, entering at most `depth` rules one in another. Unlike `recognize` this
evaluates on a given text. -/
def recognizeWithin : Nat → NonTerminal → Cursor → Outcome
  | 0,_,c => Recognizer.reject c
  | depth + 1,r,c => Recognizer.rule r ((body r).recognizer fun s d =>
      if d.rest.length < c.rest.length ∨ d.rest.length = c.rest.length ∧ rank s < rank r then
        recognizeWithin depth s d
      else Recognizer.reject d) c

theorem rank_le (r : NonTerminal) : rank r ≤ 6 := by cases r <;> decide

theorem recognizeWithin_eq {depth : Nat} {r : NonTerminal} {c : Cursor}
    (enough : c.rest.length * 7 + rank r < depth) : recognizeWithin depth r c = recognize r c := by
  induction depth generalizing r c with
  | zero => omega
  | succ depth ih =>
    rw [recognize,recognizeWithin]
    congr 2
    funext s d
    split
    next lower =>
      have := rank_le s
      exact ih (by omega)
    next => rfl

/-- A rule enters fewer rules one in another than it can read tokens, times the number of ranks. -/
theorem recognize_eq (r : NonTerminal) :
    recognize r = fun c => recognizeWithin (c.rest.length * 7 + 7) r c := by
  funext c
  have := rank_le r
  exact (recognizeWithin_eq (by omega)).symm

end Grammar

end CorpusQuery
