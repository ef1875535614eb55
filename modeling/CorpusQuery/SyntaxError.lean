import CorpusQuery.Recognizer
import CorpusQuery.Text.Quoted

/-! The farthest place at which something was missed, and what would have been welcome there. -/
namespace CorpusQuery

structure SyntaxError where
  offset : Nat
  /-- The character at the offset; none at the end of the query. -/
  found : Option Char
  expected : List Expected
  deriving DecidableEq

def Expected.description : Expected → String
  | .terminal t => t.description
  | .endOfInput => "end of input"

namespace SyntaxError

/-- The farthest misses so far, each expectation once, after one more miss. -/
def farther (far : Nat × List Expected) (miss : Miss) : Nat × List Expected :=
  if far.1 < miss.offset then (miss.offset,[miss.expected])
  else if miss.offset = far.1 ∧ miss.expected ∉ far.2 then (far.1,far.2 ++ [miss.expected])
  else far

/-- The error that the misses of a failed parse amount to. -/
def ofMisses (source : Text) (misses : List Miss) : SyntaxError :=
  let far := misses.foldl farther (0,[])
  { offset := far.1, found := source.charAt? far.1, expected := far.2 }

def squeeze : List String → List String
  | a :: b :: rest => if a = b then squeeze (b :: rest) else a :: squeeze (b :: rest)
  | short => short

def foundMessage : Option Char → String
  | some c => Quoted.char c
  | none => "end of input"

def expectedMessage (expected : List Expected) : String :=
  match squeeze (expected.map Expected.description) with
  | [] => "nothing"
  | [name] => name
  | names => "one of " ++ ", ".intercalate names

def message (e : SyntaxError) : String :=
  s!"unexpected {foundMessage e.found} at offset {e.offset}, expected {expectedMessage e.expected}"

end SyntaxError

end CorpusQuery
