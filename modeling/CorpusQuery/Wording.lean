import CorpusQuery.Text.Bytes

/-! The words that a reader of the markup sees in tooltips, titles and hints. -/
namespace CorpusQuery

structure Wording where
  /-- Tooltip of a known attribute. -/
  attributeName : String := "attribute"
  /-- Tooltip of a known structure. -/
  structureName : String := "structure"
  /-- Tooltip of a known attribute of a structure. -/
  structureAttribute : String := "structure attribute"
  attributeMissing : String := "attribute does not exist"
  structureMissing : String := "struct does not exist"
  structureAttributeMissing : String := "structattr does not exist"
  /-- Begins the title of text that no pass could use. -/
  unrecognizedInput : String := "unrecognized input"
  endOfInput : String := "end of input"
  column : String := "column"
  deriving DecidableEq

namespace Wording

/-- A problem with a name. -/
def problem (label name : String) : String := s!"{label}: {name}"

/-- The title of unrecognized text: the character at which reading stopped, none at the end of the
query, and its place among the characters, counted from one. -/
def unrecognized (w : Wording) (found : Option Char) (column : Nat) : String :=
  let what := match found with
    | some c => String.ofList ['\x27',c,'\x27']
    | none => w.endOfInput
  s!"{w.unrecognizedInput}: {what}, {w.column} {column}"

end Wording

end CorpusQuery
