import CorpusQuery.Grammar
import CorpusQuery.SyntaxError

/-! Parsing a whole text from one of the rules that may start a query. -/
namespace CorpusQuery

/-- The rules from which a text may be parsed. -/
inductive StartRule where
  | query | withinContainingPart | sequence | phraseQuery | attValList | regExpRaw
  deriving DecidableEq

namespace StartRule

def all : List StartRule :=
  [.query,.withinContainingPart,.sequence,.phraseQuery,.attValList,.regExpRaw]

def nonTerminal : StartRule → NonTerminal
  | .query => .query
  | .withinContainingPart => .withinContainingPart
  | .sequence => .sequence
  | .phraseQuery => .phraseQuery
  | .attValList => .attValList
  | .regExpRaw => .regExpRaw

def name (start : StartRule) : String := start.nonTerminal.name

def ofName? (name : String) : Option StartRule := all.find? (·.name == name)

def terminator : Text := [';']

/-- A query stands for a whole statement; the other rules for parts of one. -/
def requiresTerminator : StartRule → Bool
  | .query => true
  | _ => false

/-- What is appended to a text that shall be read as a whole from this rule. -/
def ending (start : StartRule) : Text := if start.requiresTerminator then terminator else []

end StartRule

/-- A parse of a text: its trace, and why the text was refused if it was. -/
structure Parse where
  events : List Event
  error : Option SyntaxError

def StartRule.recognizer (start : StartRule) : Recognizer :=
  Recognizer.andThen .trivia (.andThen (Grammar.recognize start.nonTerminal) .trivia)

/-- Parses a text, which the start rule has to cover to its end. -/
def parse (source : Text) (start : StartRule) : Parse :=
  let o := start.recognizer ⟨0,tokenize source⟩
  let misses := if o.matched then o.misses ++ [⟨o.cursor.offset,.endOfInput⟩] else o.misses
  { events := o.events
    error := if o.matched && o.cursor.atEnd then none else some (.ofMisses source misses) }

end CorpusQuery
