import CorpusQuery.Recognizer
import CorpusQuery.SpanTable

/-! Builds a span table from a trace. A stack holds the symbols entered and not yet left. What a
failed symbol had matched inside stays in the table: a half-typed query keeps its highlighting. -/
namespace CorpusQuery

inductive TraceFault where
  | strayLeave (stop : Nat)
  | strayFail (failed : Symbol)
  | otherOpen (failed innermost : Symbol)
  | leftOpen (count : Nat) (innermost : Symbol)
  deriving DecidableEq

def TraceFault.message : TraceFault → String
  | .strayLeave stop => s!"match at {stop} with no open rule"
  | .strayFail failed => s!"{failed.qualifiedName} failed with no open rule"
  | .otherOpen failed innermost =>
    s!"{failed.qualifiedName} failed while {innermost.qualifiedName} was open"
  | .leftOpen count innermost =>
    s!"trace ended with {count} open rule(s), innermost Some({innermost.qualifiedName})"

namespace SpanTable

structure Builder where
  table : SpanTable
  /-- The symbols entered and not left, innermost first, with their offsets. -/
  pending : List (Symbol × Nat) := []
  /-- The end of the rightmost terminal so far. -/
  reach : Nat := 0

namespace Builder

def start (source : Text) : Builder := { table := { source } }

def depth (b : Builder) : Nat := b.pending.length

/-- Registers a symbol left at its end. An empty terminal is not registered. -/
def register (b : Builder) (symbol : Symbol) (span : Span) : Builder :=
  match symbol with
  | .terminal t =>
    if span.start < span.stop then
      { b with table := b.table.setTerminal span t, reach := max b.reach span.stop }
    else b
  | .nonTerminal r => { b with table := b.table.addNonTerminal span r }

/-- Takes one event, and says what was wrong with it. -/
def step (b : Builder) : Event → Builder × Option TraceFault
  | .enter symbol offset => ({ b with pending := (symbol,offset) :: b.pending },none)
  | .leave stop =>
    match b.pending with
    | [] => (b,some (.strayLeave stop))
    | (symbol,offset) :: outer => ({ b with pending := outer }.register symbol ⟨offset,stop⟩,none)
  | .fail failed =>
    match b.pending with
    | [] => (b,some (.strayFail failed))
    | (symbol,_) :: outer =>
      ({ b with pending := outer },if symbol = failed then none else some (.otherOpen failed symbol))

def run (b : Builder) (events : List Event) : Builder × List TraceFault :=
  events.foldl (fun (b,faults) event =>
    let (next,fault) := b.step event
    (next,faults ++ fault.toList)) (b,[])

/-- The fault of a trace that ends with open symbols. -/
def close (b : Builder) : Option TraceFault :=
  match b.pending with
  | [] => none
  | (symbol,_) :: _ => some (.leftOpen b.depth symbol)

end Builder

/-- The table of a trace over `source`. -/
def ofEvents (source : Text) (events : List Event) : SpanTable :=
  ((Builder.start source).run events).1.table

end SpanTable

end CorpusQuery
