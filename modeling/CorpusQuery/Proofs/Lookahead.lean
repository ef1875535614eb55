import CorpusQuery.Proofs.Evaluation
import Mathlib.Data.List.Chain

/-! What an expression of the grammar may read next, seen from the expression alone. The grammar is
predictive: where a part has failed after reading a token, all that may still follow fails at that
token too, so nothing but white space is ever read twice. -/
namespace CorpusQuery

namespace Cursor

def ahead? (c : Cursor) : Option Terminal :=
  if c.isAt .whitespace then c.kindAt? 1 else c.kind?

def Spaced (c : Cursor) : Prop :=
  c.rest.IsChain fun a b => ¬(a.kind = .whitespace ∧ b.kind = .whitespace)

theorem Spaced.advance {c : Cursor} (spaced : c.Spaced) (n : Nat) : (c.advance n).Spaced :=
  List.IsChain.drop spaced n

theorem isAt_iff {c : Cursor} {kind : Terminal} : c.isAt kind = true ↔ c.kind? = some kind := by
  simp [isAt]

theorem not_isAt_of_isAt {c : Cursor} {kind other : Terminal} (at_ : c.isAt kind = true)
    (differs : kind ≠ other) : c.isAt other = false := by
  simpa [isAt,isAt_iff.mp at_] using differs

theorem kind?_advance (c : Cursor) (n : Nat) : (c.advance n).kind? = c.kindAt? n := by
  simp [kind?,kindAt?]

theorem Spaced.not_isAt_advance {c : Cursor} (spaced : c.Spaced)
    (blank : c.isAt .whitespace = true) : (c.advance 1).isAt .whitespace = false := by
  obtain ⟨token,rest,split,kind⟩ := rest_of_isAt blank
  cases rest with
  | nil => simp [isAt,kind?,kindAt?,split]
  | cons next rest =>
    rw [Spaced,split,List.isChain_cons_cons] at spaced
    simpa [isAt,kind?,kindAt?,split,kind] using spaced.1

theorem ahead?_advance {c : Cursor} (spaced : c.Spaced) (blank : c.isAt .whitespace = true) :
    (c.advance 1).ahead? = c.ahead? := by
  simp [ahead?,spaced.not_isAt_advance blank,blank,kind?_advance]

theorem ahead?_of_isAt {c : Cursor} {kind : Terminal} (at_ : c.isAt kind = true)
    (dark : kind ≠ .whitespace) : c.ahead? = some kind := by
  rw [isAt_iff] at at_
  simp [ahead?,isAt,at_,dark]

end Cursor

theorem Terminal.mem_all (k : Terminal) : k ∈ Terminal.all := by cases k <;> decide

namespace NonTerminal

/-- The terminals that may be the first that a rule reads, white space apart. -/
def starts : NonTerminal → Terminal → Bool
  | .query | .withinContainingPart | .sequence | .seq | .repetition | .atomQuery =>
    [.lBracket,.quote,.lt,.lParen].contains
  | .withinOrContaining => [.not,.kwWithin,.kwContaining].contains
  | .meetOp => [.kwMeet].contains
  | .unionOp => [.kwUnion].contains
  | .repOpt => [.star,.plus,.question,.lBrace].contains
  | .position => [.lBracket].contains
  | .attValList | .attValAnd | .attVal => [.not,.lParen,.ident].contains
  | .attName => [.ident].contains
  | .regExp => [.quote].contains
  | .regExpRaw => (· != .quote)
  | .structureTag => [.lt].contains
  | .phraseQuery | .phraseWord => (· != .whitespace)

/-- The terminals before which a rule may end although it has tried to read on. -/
def rests : NonTerminal → Terminal → Bool
  | .withinOrContaining | .withinContainingPart | .sequence =>
    [.pipe,.lBracket,.quote,.lt,.lParen,.star,.plus,.question,.lBrace].contains
  | .seq => [.lBracket,.quote,.lt,.lParen,.star,.plus,.question,.lBrace].contains
  | .repetition => [.star,.plus,.question,.lBrace].contains
  | .meetOp => [.number].contains
  | .attValList => [.pipe,.amp].contains
  | .attValAnd => [.amp].contains
  | .phraseQuery => (· != .whitespace)
  | _ => fun _ => false

/-- A rule that may end before white space which it has read and given back. -/
def peeks : NonTerminal → Bool
  | .withinOrContaining | .withinContainingPart | .sequence | .seq | .repetition | .meetOp
  | .attValList | .attValAnd | .phraseQuery => true
  | _ => false

/-- A rule that fails only before it has read anything. -/
def solid : NonTerminal → Bool
  | .attName | .regExpRaw | .phraseWord => true
  | _ => false

end NonTerminal

namespace Grammar.Expr

def blankable : Expr → Bool
  | .done | .trivia | .optional _ | .many _ => true
  | .reject _ | .escape | .run _ | .call _ => false
  | .token kind _ => kind == .whitespace
  | .andThen first second => first.blankable && second.blankable
  | .orElse first second => first.blankable || second.blankable
  | .attempt body => body.blankable
  | .next _ yes no => yes.blankable || no.blankable

def starts : Expr → Terminal → Bool
  | .done,_ | .reject _,_ | .trivia,_ => false
  | .token kind _,k => kind == k && k != .whitespace
  | .escape,k => k == .backslash
  | .run stop,k => k != stop && k != .backslash
  | .call r,k => r.starts k
  | .andThen first second,k => first.starts k || first.blankable && second.starts k
  | .orElse first second,k => first.starts k || second.starts k
  | .optional body,k | .attempt body,k | .many body,k => body.starts k
  | .next _ yes no,k => yes.starts k || no.starts k

def sure : Expr → Bool
  | .done | .trivia | .optional _ | .many _ => true
  | .andThen first second => first.sure && second.sure
  | .orElse _ second => second.sure
  | .attempt body => body.sure
  | .next _ yes no => yes.sure && no.sure
  | _ => false

def solid : Expr → Bool
  | .call r => r.solid
  | .andThen first second => first.solid && second.sure
  | .orElse first second => first.solid && second.solid
  | .attempt body => body.solid
  | .next _ yes no => yes.solid && no.solid
  | _ => true

def rewinds : Expr → Bool
  | .call _ | .attempt _ => true
  | _ => false

def skips : Expr → Bool
  | .trivia => true
  | .token kind _ => kind == .whitespace
  | .andThen first _ => first.skips
  | .optional body | .attempt body | .many body => body.skips
  | _ => false

/-- The terminals before which a match may end although it has tried to read on. -/
def rests : Expr → Terminal → Bool
  | .call r,k => r.rests k
  | .andThen first second,k => second.rests k || second.blankable && first.rests k
  | .orElse first second,k => first.rests k || second.rests k
  | .optional body,k | .many body,k => body.rests k || !body.solid && body.starts k
  | .attempt body,k => body.rests k
  | .next _ yes no,k => yes.rests k || no.rests k
  | _,_ => false

def isDone : Expr → Bool
  | .done => true
  | _ => false

/-- A match may end before white space that was read and given back. -/
def peeks : Expr → Bool
  | .call r => r.peeks
  | .andThen first second => second.peeks || second.isDone && first.peeks
  | .orElse first second => first.peeks || second.peeks
  | .optional body | .many body => body.peeks || !body.solid
  | .attempt body => body.peeks
  | .next _ yes no => yes.peeks || no.peeks
  | _ => false

/-- Where `first` rests, `second` reads nothing. -/
def handsOver (first second : Expr) : Bool :=
  Terminal.all.all fun k => !first.rests k || !second.starts k && !second.starts .whitespace

/-- Reads no token twice but white space, as far as the expression alone can tell. -/
def predictive : Expr → Bool
  | .token kind tag => (kind == .whitespace) == (tag == .whitespace)
  | .andThen first second => first.predictive && second.predictive && first.handsOver second &&
      (!first.peeks || second.skips || second.isDone)
  | .orElse first second => first.predictive && second.predictive && first.solid
  | .optional body => body.predictive && body.rewinds && (body.solid || !body.starts .whitespace)
  | .attempt body => body.predictive
  | .many body => body.predictive && !body.nullable && !body.blankable && body.handsOver body &&
      (body.solid || !body.starts .whitespace) && (!body.peeks || body.skips)
  | .next _ yes no => yes.predictive && no.predictive
  | _ => true

theorem handsOver_iff {first second : Expr} : first.handsOver second = true ↔
    ∀ k, first.rests k = true → second.starts k = false ∧ second.starts .whitespace = false := by
  constructor
  · intro h k rests
    have at_ := List.all_eq_true.mp h k (Terminal.mem_all k)
    simpa [rests] using at_
  · intro h
    refine List.all_eq_true.mpr fun k _ => ?_
    cases rests : first.rests k with
    | false => simp
    | true => simp [h k rests]

end Grammar.Expr

namespace Grammar

/-! The tables of rules agree with the bodies of the rules. -/

theorem predictive_body (r : NonTerminal) : (body r).predictive = true := by
  cases r <;> decide

theorem body_not_blankable (r : NonTerminal) : (body r).blankable = false := by cases r <;> rfl

theorem starts_of_body {r : NonTerminal} {k : Terminal} (h : (body r).starts k = true) :
    r.starts k = true := by
  revert h k
  have table : Terminal.all.all (fun k => !(body r).starts k || r.starts k) = true := by
    cases r <;> decide
  intro k h
  simpa [h] using List.all_eq_true.mp table k (Terminal.mem_all k)

theorem rests_of_body {r : NonTerminal} {k : Terminal} (h : (body r).rests k = true) :
    r.rests k = true := by
  have table : Terminal.all.all (fun k => !(body r).rests k || r.rests k) = true := by
    cases r <;> decide
  simpa [h] using List.all_eq_true.mp table k (Terminal.mem_all k)

theorem peeks_of_body {r : NonTerminal} (h : (body r).peeks = true) : r.peeks = true := by
  revert h
  cases r <;> decide

theorem solid_body {r : NonTerminal} (h : r.solid = true) : (body r).solid = true := by
  revert h
  cases r <;> decide

end Grammar

end CorpusQuery
