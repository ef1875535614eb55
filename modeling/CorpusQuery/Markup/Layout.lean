import CorpusQuery.Markup
import CorpusQuery.SpanTable

/-! Places wrappers and line breaks in the gaps between chunks. In a gap the wrappers that end there
come first, the narrowest first, then those that begin there, the widest first: so wrappers nest in
whatever order they were asked for. -/
namespace CorpusQuery

/-- Something to be put around or between chunks. -/
inductive Decoration where
  | wrap (span : Span) (w : Wrapper)
  | lineBreak (offset : Nat)
  deriving DecidableEq

namespace Layout

/-- The gap before the first chunk that starts at or after an offset, as the number of chunks
before it. -/
def gapAt (chunks : List Chunk) (offset : Nat) : Nat :=
  (chunks.takeWhile fun chunk => chunk.start < offset).length

/-- A fragment in a gap, with the width by which the gap is ordered. -/
structure Insertion where
  gap : Nat
  width : Nat
  fragment : Fragment

/-- The width of a line break: no range between 64-bit offsets is wider. -/
def breakWidth : Nat := 0xffffffffffffffff

/-- What a decoration begins with. A wrapper around an empty range is dropped. -/
def opening? (chunks : List Chunk) : Decoration → Option Insertion
  | .wrap span w =>
    if span.isEmpty then none else some ⟨gapAt chunks span.start,span.length,.opening w⟩
  | .lineBreak offset => some ⟨gapAt chunks offset,breakWidth,.lineBreak⟩

def closing? (chunks : List Chunk) : Decoration → Option Insertion
  | .wrap span _ =>
    if span.isEmpty then none else some ⟨gapAt chunks span.stop,span.length,.closing⟩
  | .lineBreak _ => none

section Insertions

variable {chunks : List Chunk} {decorations : List Decoration} {d : Decoration} {x : Insertion}

theorem opening?_eq_some : opening? chunks d = some x ↔
    (∃ span w, d = .wrap span w ∧ span.isEmpty = false ∧
      x = ⟨gapAt chunks span.start,span.length,.opening w⟩) ∨
    ∃ offset, d = .lineBreak offset ∧ x = ⟨gapAt chunks offset,breakWidth,.lineBreak⟩ := by
  constructor
  · intro opens
    cases d with
    | wrap span w =>
      simp only [opening?,Option.ite_none_left_eq_some,Bool.not_eq_true,Option.some.injEq] at opens
      exact .inl ⟨span,w,rfl,opens.1,opens.2.symm⟩
    | lineBreak offset => exact .inr ⟨offset,rfl,(Option.some.inj opens).symm⟩
  · rintro (⟨span,w,rfl,proper,rfl⟩ | ⟨offset,rfl,rfl⟩)
    · simp [opening?,proper]
    · rfl

theorem closing?_eq_some : closing? chunks d = some x ↔
    ∃ span w, d = .wrap span w ∧ span.isEmpty = false ∧
      x = ⟨gapAt chunks span.stop,span.length,.closing⟩ := by
  constructor
  · intro closes
    cases d with
    | wrap span w =>
      simp only [closing?,Option.ite_none_left_eq_some,Bool.not_eq_true,Option.some.injEq] at closes
      exact ⟨span,w,rfl,closes.1,closes.2.symm⟩
    | lineBreak offset => cases closes
  · rintro ⟨span,w,rfl,proper,rfl⟩
    simp [closing?,proper]

theorem mem_openings : x ∈ decorations.filterMap (opening? chunks) ↔
    (∃ span w, .wrap span w ∈ decorations ∧ span.isEmpty = false ∧
      x = ⟨gapAt chunks span.start,span.length,.opening w⟩) ∨
    ∃ offset, .lineBreak offset ∈ decorations ∧ x = ⟨gapAt chunks offset,breakWidth,.lineBreak⟩ := by
  simp only [List.mem_filterMap,opening?_eq_some]
  constructor
  · rintro ⟨_,member,⟨span,w,rfl,proper,rfl⟩ | ⟨offset,rfl,rfl⟩⟩
    · exact .inl ⟨span,w,member,proper,rfl⟩
    · exact .inr ⟨offset,member,rfl⟩
  · rintro (⟨span,w,member,proper,rfl⟩ | ⟨offset,member,rfl⟩)
    · exact ⟨_,member,.inl ⟨span,w,rfl,proper,rfl⟩⟩
    · exact ⟨_,member,.inr ⟨offset,rfl,rfl⟩⟩

theorem mem_closings : x ∈ decorations.filterMap (closing? chunks) ↔
    ∃ span w, .wrap span w ∈ decorations ∧ span.isEmpty = false ∧
      x = ⟨gapAt chunks span.stop,span.length,.closing⟩ := by
  simp only [List.mem_filterMap,closing?_eq_some]
  constructor
  · rintro ⟨_,member,span,w,rfl,proper,rfl⟩
    exact ⟨span,w,member,proper,rfl⟩
  · rintro ⟨span,w,member,proper,rfl⟩
    exact ⟨_,member,span,w,rfl,proper,rfl⟩

end Insertions

/-- The fragments of one gap. Equal widths stay in the order in which they were asked for. -/
def gapMarkup (openings closings : List Insertion) (gap : Nat) : Markup :=
  let here (insertions : List Insertion) := insertions.filter fun insertion => insertion.gap == gap
  let ends := (here closings).mergeSort fun a b => a.width ≤ b.width
  let starts := (here openings).mergeSort fun a b => b.width ≤ a.width
  (ends ++ starts).map Insertion.fragment

def chunkMarkup (chunk : Chunk) : Fragment := .styled chunk.kind.style? chunk.text

end Layout

open Layout

def layout (chunks : List Chunk) (decorations : List Decoration) : Markup :=
  let gap := gapMarkup (decorations.filterMap (opening? chunks))
    (decorations.filterMap (closing? chunks))
  chunks.zipIdx.flatMap (fun (chunk,i) => gap i ++ [chunkMarkup chunk]) ++ gap chunks.length

end CorpusQuery
