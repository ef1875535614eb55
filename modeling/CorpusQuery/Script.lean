import CorpusQuery.Recognizer

/-! Scripts drive the basic recognizers one by one and record where each of them left the cursor. A script
may ask for any number of tokens. Numbers of tokens are machine words, and sums of them begin again at zero
past the last word, so that a large enough number leads back. -/
namespace CorpusQuery

namespace Cursor

def nth (tokens : List Token) (n : Nat) : Cursor := advance ⟨0,tokens⟩ n

def index (tokens : List Token) (c : Cursor) : Nat := tokens.length - c.rest.length

/-- The number of the token `n` places ahead, as a machine word. -/
def ahead (tokens : List Token) (c : Cursor) (n : UInt64) : Nat :=
  (UInt64.ofNat (c.index tokens) + n).toNat

end Cursor

/-- Reads `n` tokens as one terminal, or nothing when the token to go on with is past the end. -/
def Recognizer.bump (tokens : List Token) (tag : Terminal) (n : UInt64) : Recognizer := fun c =>
  if n = 0 ∨ tokens.length < c.ahead tokens n then done c
  else
    let next := Cursor.nth tokens (c.ahead tokens n)
    ⟨true,next,[.enter (.terminal tag) c.offset,.leave next.offset],[]⟩

namespace Script

inductive Action where
  | token (kind tag : Terminal)
  | take (tag : Terminal) (n : UInt64)
  | trivia
  | miss (kinds : List Terminal)
  | test (kind : Terminal)
  | fail

/-- An instruction, with the name under which steps report it. Unless it is optional, its failure
ends the list in which it stands. -/
inductive Op where
  | act (label : String) (action : Action) (optional : Bool)
  | look (label : String) (ahead : UInt64)
  | rule (label : String) (r : NonTerminal) (body : List Op) (optional : Bool)
  | attempt (label : String) (body : List Op) (optional : Bool)

/-- What a script records: the cursor and the result after an instruction, or a look ahead. -/
inductive Step where
  | ran (label : String) (cursor : Cursor) (matched : Bool)
  | looked (label : String) (kind : Option Terminal)

/-- The outcome of instructions, with the steps recorded on the way. -/
structure Run where
  outcome : Outcome
  steps : List Step

def Run.close (label : String) (optional : Bool) (steps : List Step) (o : Outcome) : Run where
  outcome := { o with matched := o.matched || optional }
  steps := steps ++ [.ran label o.cursor o.matched]

section

variable (tokens : List Token)

def Action.recognizer : Action → Recognizer
  | .token kind tag => .token kind tag
  | .take tag n => .bump tokens tag n
  | .trivia => .trivia
  | .miss kinds => .miss kinds
  | .test kind => fun c => if c.isAt kind then Recognizer.done c else Recognizer.reject c
  | .fail => .reject

mutual

def Op.run : Op → Cursor → Run
  | .act label action optional,c => .close label optional [] (action.recognizer tokens c)
  | .look label ahead,c =>
    ⟨Recognizer.done c,[.looked label (tokens[c.ahead tokens ahead]?.map Token.kind)]⟩
  | .rule label r body optional,c =>
    let inner := runAll body c
    .close label optional inner.steps (Recognizer.rule r (fun _ => inner.outcome) c)
  | .attempt label body optional,c =>
    let inner := runAll body c
    .close label optional inner.steps (Recognizer.attempt (fun _ => inner.outcome) c)

def runAll : List Op → Cursor → Run
  | [],c => ⟨Recognizer.done c,[]⟩
  | op :: rest,c =>
    let first := op.run c
    if first.outcome.matched then
      let more := runAll rest first.outcome.cursor
      ⟨first.outcome.followedBy more.outcome,first.steps ++ more.steps⟩
    else first

end

end

end Script

end CorpusQuery
