import CorpusQuery.Token

/-! Recognizers read tokens from a cursor on. One reports whether it matched, where it stopped,
which symbols it entered and left on the way, and which symbols it missed. Events of branches that
failed are kept: they show how far a broken query made sense. -/
namespace CorpusQuery

/-- A place among the tokens: its byte offset and the tokens from there on. -/
structure Cursor where
  offset : Nat
  rest : List Token

namespace Cursor

def kindAt? (c : Cursor) (n : Nat) : Option Terminal := c.rest[n]?.map Token.kind

def kind? (c : Cursor) : Option Terminal := c.kindAt? 0

def isAt (c : Cursor) (kind : Terminal) : Bool := c.kind? == some kind

def atEnd (c : Cursor) : Bool := c.rest.isEmpty

def advance (c : Cursor) (n : Nat) : Cursor where
  offset := c.offset + Token.span (c.rest.take n)
  rest := c.rest.drop n

end Cursor

/-- One step of a trace. Each entered symbol is later left at its end, or fails. -/
inductive Event where
  | enter (symbol : Symbol) (offset : Nat)
  | leave (stop : Nat)
  | fail (symbol : Symbol)
  deriving DecidableEq

/-- What a recognizer looked for. -/
inductive Expected where
  | terminal (t : Terminal)
  | endOfInput
  deriving DecidableEq

structure Miss where
  offset : Nat
  expected : Expected
  deriving DecidableEq

/-- What a recognizer reports. Events and misses are in the order in which they arose. -/
structure Outcome where
  matched : Bool
  cursor : Cursor
  events : List Event := []
  misses : List Miss := []

/-- The outcome of a second recognizer, preceded by what the first one reported. -/
def Outcome.followedBy (first second : Outcome) : Outcome where
  matched := second.matched
  cursor := second.cursor
  events := first.events ++ second.events
  misses := first.misses ++ second.misses

abbrev Recognizer := Cursor → Outcome

namespace Recognizer

def done : Recognizer := fun c => ⟨true,c,[],[]⟩

def reject : Recognizer := fun c => ⟨false,c,[],[]⟩

/-- Reads nothing and reports the terminals as missing. -/
def miss (kinds : List Terminal) : Recognizer := fun c =>
  ⟨true,c,[],kinds.map fun kind => ⟨c.offset,.terminal kind⟩⟩

/-- Reads `n` tokens as one terminal, or nothing when there are not as many. -/
def take (tag : Terminal) (n : Nat) : Recognizer := fun c =>
  if n = 0 ∨ c.rest.length < n then done c
  else
    let next := c.advance n
    ⟨true,next,[.enter (.terminal tag) c.offset,.leave next.offset],[]⟩

def token (kind tag : Terminal) : Recognizer := fun c =>
  if c.isAt kind then take tag 1 c
  else ⟨false,c,[.enter (.terminal tag) c.offset,.fail (.terminal tag)],[⟨c.offset,.terminal kind⟩]⟩

def trivia : Recognizer := fun c =>
  if c.isAt .whitespace then token .whitespace .whitespace c else done c

/-- Reads a backslash and the token after it, if there is one, as one terminal. -/
def escape : Recognizer := fun c =>
  if c.isAt .backslash then take .regExpEscape (if (c.kindAt? 1).isSome then 2 else 1) c
  else reject c

def runLength (stop : Terminal) (tokens : List Token) : Nat :=
  (tokens.takeWhile fun token => token.kind != stop && token.kind != .backslash).length

/-- Reads the tokens up to a backslash or the kind `stop`, at least one, as one terminal. -/
def run (stop : Terminal) : Recognizer := fun c =>
  if runLength stop c.rest = 0 then reject c else take .regExpChars (runLength stop c.rest) c

def andThen (first second : Recognizer) : Recognizer := fun c =>
  let o := first c
  if o.matched then o.followedBy (second o.cursor) else o

def orElse (first second : Recognizer) : Recognizer := fun c =>
  let o := first c
  if o.matched then o else o.followedBy (second o.cursor)

/-- Goes on whether or not the recognizer matched. -/
def optional (p : Recognizer) : Recognizer := fun c => { p c with matched := true }

/-- Returns to the start on failure. -/
def attempt (p : Recognizer) : Recognizer := fun c =>
  let o := p c
  if o.matched then o else { o with cursor := c }

/-- Reports `p` as the symbol `r`, and returns to the start on failure. -/
def rule (r : NonTerminal) (p : Recognizer) : Recognizer := fun c =>
  let o := p c
  if o.matched then
    { o with events := .enter (.nonTerminal r) c.offset :: o.events ++ [.leave o.cursor.offset] }
  else
    { o with
      cursor := c
      events := .enter (.nonTerminal r) c.offset :: o.events ++ [.fail (.nonTerminal r)] }

def many (p : Recognizer) (c : Cursor) : Outcome :=
  let o := attempt p c
  if o.matched ∧ o.cursor.rest.length < c.rest.length then o.followedBy (many p o.cursor)
  else { o with matched := true }
termination_by c.rest.length
decreasing_by rename_i h; exact h.2

end Recognizer

end CorpusQuery
