import CorpusQuery.Corpus
import CorpusQuery.Markup.Layout
import CorpusQuery.Wording

/-! Which names of a query are wrapped and which are problems, and where long queries are broken.
The symbols of a table are visited from the last registered to the first: a position or structure
comes before the pairs inside it, which it claims. -/
namespace CorpusQuery

/-- A name that the vocabulary does not have. -/
inductive Problem where
  | noAttribute (name : Text)
  | noStructure (name : Text)
  | noStructureAttribute (name : Text)
  deriving DecidableEq

def Problem.message (w : Wording) : Problem → String
  | .noAttribute name => Wording.problem w.attributeMissing (String.ofList name)
  | .noStructure name => Wording.problem w.structureMissing (String.ofList name)
  | .noStructureAttribute name =>
    Wording.problem w.structureAttributeMissing (String.ofList name)

/-- The problems for a person to read, one on a line, each line once; none without a problem. -/
def hint (w : Wording) (problems : List Problem) : Option String :=
  match (problems.map (Problem.message w)).eraseDups with
  | [] => none
  | lines => some ("\n".intercalate (lines.map ("• " ++ ·)))

/-- What a visit of the symbols has come to. -/
structure Notes where
  decorations : List Decoration := []
  problems : List Problem := []
  /-- Pairs that were checked, or claimed by a structure. -/
  handled : List Span := []
  /-- Names of unclosed structures that were checked. -/
  openStructures : List Span := []

namespace Notes

def decorate (n : Notes) (a : Decoration) : Notes := { n with decorations := n.decorations ++ [a] }

def check (n : Notes) (known : Bool) (span : Span) (title : String) (p : Problem) : Notes :=
  if known then n.decorate (.wrap span (.tooltip title.toList))
  else { n with problems := n.problems ++ [p] }

def handle (n : Notes) (pairs : List Span) : Notes := { n with handled := n.handled ++ pairs }

variable (table : SpanTable) (v : Vocabulary) (w : Wording)

/-- The value of a tag attribute is wrapped for editing. -/
def tagValue (n : Notes) (pair : Span) (name : Text) : Notes :=
  if v.isTagAttribute (String.ofList name) then
    match (table.nested pair .regExp).head? with
    | some value => n.decorate (.wrap value (.clickable "tag".toList
        (table.source.charsBefore value.start) (table.source.charsBefore value.stop)))
    | none => n
  else n

/-- A pair of an attribute and a value, which is checked once. A negated pair and a list in
parentheses hold pairs of their own and are passed over. -/
def attributePair (n : Notes) (pair : Span) : Notes :=
  if pair ∈ n.handled then n
  else
    let n := n.handle [pair]
    if table.nested pair .attVal ≠ [] then n
    else
      match (table.nested pair .attName).head? with
      | none => n
      | some span =>
        match table.text? span with
        | none => n
        | some name =>
          (n.check (v.hasAttribute (String.ofList name)) span w.attributeName
            (.noAttribute name)).tagValue table v pair name

def structureName (n : Notes) (span : Span) (name : Text) : Notes :=
  n.check (v.hasStructure (String.ofList name)) span w.structureName (.noStructure name)

def structureAttribute (n : Notes) (owner : Text) (span : Span) : Notes :=
  match table.text? span with
  | none => n
  | some name =>
    n.check (v.hasStructureAttribute (String.ofList owner) (String.ofList name)) span
      w.structureAttribute (.noStructureAttribute name)

/-- A structure with its pairs: its first name is its own, the others are its attributes. -/
def structureTag (n : Notes) (span : Span) : Notes :=
  let n := n.handle (table.nested span .attVal)
  match table.nested span .attName with
  | [] => n
  | own :: others =>
    match table.text? own with
    | none => n
    | some name =>
      others.foldl (fun n other => n.structureAttribute table v w name other)
        (n.structureName v w own name)

/-- A pair in a structure that is not closed. The first such pair checks the structure's name. -/
def openStructurePair (n : Notes) (own pair : Span) : Notes :=
  if pair ∈ n.handled then n
  else
    let n := n.handle [pair]
    let seen := n.openStructures.contains own
    let n := if seen then n else { n with openStructures := own :: n.openStructures }
    match table.text? own with
    | none => n
    | some name =>
      let n := if seen then n else n.structureName v w own name
      match (table.nested pair .attName).head? with
      | none => n
      | some other => n.structureAttribute table v w name other

def visit (n : Notes) : NonTerminal → Span → Notes
  | .position,span => (table.nested span .attVal).foldl (attributePair table v w) n
  | .structureTag,span => n.structureTag table v w span
  | .attVal,span =>
    match table.openStructure? span with
    | some own => n.openStructurePair table v w own span
    | none => n.attributePair table v w span
  | _,_ => n

/-- A sequence that lies in no other is broken before every third position but the first, and at
its end when the text goes on. -/
def wrapLines (n : Notes) (span : Span) : Notes :=
  if (table.spansOf .sequence).any (·.strictlyContains span) then n
  else
    let breaks := (table.nested span .position).zipIdx.filterMap fun (position,i) =>
      if 0 < i ∧ i % 3 = 0 then some (Decoration.lineBreak position.start) else none
    let atEnd := if span.stop < table.source.byteLength then [Decoration.lineBreak span.stop] else []
    { n with decorations := n.decorations ++ breaks ++ atEnd }

end Notes

/-- What to do besides styling: checks against a vocabulary, and breaks of long queries. -/
structure DecorateOptions where
  vocabulary : Option Vocabulary := none
  wording : Wording := {}
  wrapLines : Bool := false

namespace SpanTable

def decorateSymbol (table : SpanTable) (o : DecorateOptions) (n : Notes)
    (entry : NonTerminal × Span) : Notes :=
  let n := match o.vocabulary with
    | some v => n.visit table v o.wording entry.1 entry.2
    | none => n
  if o.wrapLines && entry.1 == .sequence then n.wrapLines table entry.2 else n

def notes (table : SpanTable) (o : DecorateOptions) : Notes :=
  table.nonTerminals.reverse.foldl (table.decorateSymbol o) {}

end SpanTable

structure Rendering where
  markup : Markup := []
  hint : Option String := none
  deriving DecidableEq

def SpanTable.render (table : SpanTable) (o : DecorateOptions) : Rendering :=
  let n := table.notes o
  { markup := layout table.chunks n.decorations, hint := CorpusQuery.hint o.wording n.problems }

end CorpusQuery
