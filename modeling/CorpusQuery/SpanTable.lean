import CorpusQuery.Span
import CorpusQuery.Token

/-! Which symbols govern which byte ranges of a text. Terminals are kept by their range, the last
one registered for a range; non-terminals in the order of registration, each range of each once. -/
namespace CorpusQuery

/-- The symbols registered for a text. -/
structure SpanTable where
  source : Text
  terminals : SortedMap Span Terminal := .empty
  nonTerminals : List (NonTerminal × Span) := []

/-- A stretch of the text that one terminal governs. -/
structure Chunk where
  start : Nat
  stop : Nat
  text : Text
  kind : Terminal
  deriving DecidableEq

namespace SpanTable

def setTerminal (table : SpanTable) (span : Span) (t : Terminal) : SpanTable :=
  { table with terminals := table.terminals.insert span t }

def addNonTerminal (table : SpanTable) (span : Span) (r : NonTerminal) : SpanTable :=
  if (r,span) ∈ table.nonTerminals then table
  else { table with nonTerminals := table.nonTerminals ++ [(r,span)] }

/-- The chunks of entries, of which those before `covered` are taken already. -/
def chunksFrom (source : Text) (covered : Nat) : List (Span × Terminal) → List Chunk
  | [] => []
  | (span,kind) :: rest =>
    let stop := min span.stop source.byteLength
    if span.start < stop ∧ covered ≤ span.start then
      match source.slice? span.start stop with
      | some text => ⟨span.start,stop,text,kind⟩ :: chunksFrom source stop rest
      | none => chunksFrom source covered rest
    else chunksFrom source covered rest

/-- The stretches of the text that terminals govern. A range past the end of the text is cut at the
end; one that is empty, cuts a character or overlaps an earlier chunk gives no chunk. -/
def chunks (table : SpanTable) : List Chunk := chunksFrom table.source 0 table.terminals.entries

def spansOf (table : SpanTable) (r : NonTerminal) : List Span :=
  table.nonTerminals.filterMap fun (s,span) => if s = r then some span else none

/-- The ranges of a rule strictly inside another range, in ascending order. -/
def nested (table : SpanTable) (outer : Span) (r : NonTerminal) : List Span :=
  Span.sort ((table.spansOf r).filter outer.strictlyContains)

def text? (table : SpanTable) (span : Span) : Option Text := table.source.slice? span.start span.stop

/-- The name of the structure in which a pair stands, when a structure is open before the pair: the
last structure bracket before it opens one, and a name follows that bracket. -/
def openStructure? (table : SpanTable) (pair : Span) : Option Span :=
  let before := table.terminals.entries.filter fun (span,kind) =>
    span.start < pair.start && (kind == .lt || kind == .gt)
  match before.getLast? with
  | some (bracket,.lt) =>
    (Span.sort ((table.spansOf .attName).filter fun name =>
      bracket.stop ≤ name.start && name.stop ≤ pair.start)).head?
  | _ => none

end SpanTable

end CorpusQuery
