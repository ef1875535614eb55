import CorpusQuery.Decorate
import Mathlib.Data.List.Basic

/-! What it comes to that long queries are broken into lines. The notes with and without breaks differ in
the breaks alone: no check looks at what was decorated before it. -/
namespace CorpusQuery

namespace Decoration

def isWrap : Decoration → Bool
  | .wrap .. => true
  | .lineBreak _ => false

def offset? : Decoration → Option Nat
  | .wrap .. => none
  | .lineBreak offset => some offset

end Decoration

def SpanTable.breaksIn (table : SpanTable) (span : Span) : List Nat :=
  if (table.spansOf .sequence).any (·.strictlyContains span) then []
  else
    ((table.nested span .position).zipIdx.filterMap fun (position,i) =>
      if 0 < i ∧ i % 3 = 0 then some position.start else none) ++
      if span.stop < table.source.byteLength then [span.stop] else []

namespace Notes

/-- Notes that break lines at these offsets, and say what others say besides. -/
structure Breaks (broken plain : Notes) (offsets : List Nat) : Prop where
  wraps : broken.decorations.filter (·.isWrap) = plain.decorations
  breaks : broken.decorations.filterMap (·.offset?) = offsets
  problems : broken.problems = plain.problems
  handled : broken.handled = plain.handled
  openStructures : broken.openStructures = plain.openStructures

theorem wrapLines_eq (n : Notes) (table : SpanTable) (span : Span) : n.wrapLines table span =
    { n with decorations := n.decorations ++ (table.breaksIn span).map .lineBreak } := by
  unfold wrapLines SpanTable.breaksIn
  split
  · simp
  · rw [List.map_append,List.map_filterMap]
    simp only [List.append_assoc]
    congr 3
    · refine List.filterMap_congr fun x _ => ?_
      split <;> rfl
    split <;> rfl

namespace Breaks

variable {n m : Notes} {offsets : List Nat}

theorem empty : Breaks {} {} [] := ⟨rfl,rfl,rfl,rfl,rfl⟩

theorem wrap (h : n.Breaks m offsets) (span : Span) (w : Wrapper) :
    (n.decorate (.wrap span w)).Breaks (m.decorate (.wrap span w)) offsets where
  wraps := by
    rw [decorate,List.filter_append,h.wraps]
    rfl
  breaks := by
    rw [decorate,List.filterMap_append,h.breaks]
    exact List.append_nil offsets
  problems := h.problems
  handled := h.handled
  openStructures := h.openStructures

theorem check (h : n.Breaks m offsets) (known : Bool) (span : Span) (title : String) (p : Problem) :
    (n.check known span title p).Breaks (m.check known span title p) offsets := by
  cases known with
  | true => exact h.wrap span _
  | false => exact ⟨h.wraps,h.breaks,congrArg (· ++ [p]) h.problems,h.handled,h.openStructures⟩

theorem handle (h : n.Breaks m offsets) (pairs : List Span) :
    (n.handle pairs).Breaks (m.handle pairs) offsets :=
  ⟨h.wraps,h.breaks,h.problems,congrArg (· ++ pairs) h.handled,h.openStructures⟩

theorem foldl {α : Type} {f : Notes → α → Notes}
    (keeps : ∀ {n m} x, Breaks n m offsets → Breaks (f n x) (f m x) offsets) (xs : List α)
    (h : n.Breaks m offsets) : (xs.foldl f n).Breaks (xs.foldl f m) offsets := by
  induction xs generalizing n m with
  | nil => exact h
  | cons x rest ih => exact ih (keeps x h)

variable {table : SpanTable} {v : Vocabulary} {w : Wording}

theorem tagValue (h : n.Breaks m offsets) (pair : Span) (name : Text) :
    (n.tagValue table v pair name).Breaks (m.tagValue table v pair name) offsets := by
  unfold Notes.tagValue
  split
  · split
    · exact h.wrap _ _
    · exact h
  · exact h

theorem attributePair (h : n.Breaks m offsets) (pair : Span) :
    (n.attributePair table v w pair).Breaks (m.attributePair table v w pair) offsets := by
  unfold Notes.attributePair
  simp only [h.handled]
  split
  · exact h
  split
  · exact h.handle [pair]
  split
  · exact h.handle [pair]
  split
  · exact h.handle [pair]
  · exact ((h.handle [pair]).check _ _ _ _).tagValue _ _

theorem structureAttribute (h : n.Breaks m offsets) (owner : Text) (span : Span) :
    (n.structureAttribute table v w owner span).Breaks (m.structureAttribute table v w owner span)
      offsets := by
  unfold Notes.structureAttribute
  split
  · exact h
  · exact h.check _ _ _ _

theorem structureTag (h : n.Breaks m offsets) (span : Span) :
    (n.structureTag table v w span).Breaks (m.structureTag table v w span) offsets := by
  have claimed := h.handle (table.nested span .attVal)
  unfold Notes.structureTag
  simp only
  split
  · exact claimed
  split
  · exact claimed
  · exact foldl (fun other h => h.structureAttribute _ other) _ (claimed.check _ _ _ _)

theorem openStructurePair (h : n.Breaks m offsets) (own pair : Span) :
    (n.openStructurePair table v w own pair).Breaks (m.openStructurePair table v w own pair)
      offsets := by
  have claimed := h.handle [pair]
  have entered (seen : Bool) : Breaks
      (if seen then n.handle [pair] else
        { n.handle [pair] with openStructures := own :: (m.handle [pair]).openStructures })
      (if seen then m.handle [pair] else
        { m.handle [pair] with openStructures := own :: (m.handle [pair]).openStructures })
      offsets := by
    cases seen with
    | true => exact claimed
    | false =>
      exact ⟨h.wraps,h.breaks,h.problems,claimed.handled,rfl⟩
  have named {n m : Notes} (seen : Bool) (name : Text) (h : n.Breaks m offsets) : Breaks
      (if seen then n else n.structureName v w own name)
      (if seen then m else m.structureName v w own name) offsets := by
    cases seen with
    | true => exact h
    | false => exact h.check _ _ _ _
  unfold Notes.openStructurePair
  simp only [h.handled,claimed.openStructures]
  split
  · exact h
  split
  · exact entered _
  split
  · exact named _ _ (entered _)
  · exact (named _ _ (entered _)).structureAttribute _ _

/-- A visit does the same with breaks and without, and breaks no line. -/
theorem visit (h : n.Breaks m offsets) (r : NonTerminal) (span : Span) :
    (n.visit table v w r span).Breaks (m.visit table v w r span) offsets := by
  cases r with
  | position => exact foldl (fun pair h => h.attributePair pair) _ h
  | structureTag => exact h.structureTag span
  | attVal =>
    simp only [Notes.visit]
    split
    · exact h.openStructurePair _ _
    · exact h.attributePair _
  | _ => exact h

theorem wrapLines (h : n.Breaks m offsets) (span : Span) :
    (n.wrapLines table span).Breaks m (offsets ++ table.breaksIn span) := by
  rw [wrapLines_eq]
  refine ⟨?_,?_,h.problems,h.handled,h.openStructures⟩
  · have empty : ((table.breaksIn span).map Decoration.lineBreak).filter (·.isWrap) = [] := by
      simp [List.filter_map,Function.comp_def,Decoration.isWrap]
    rw [List.filter_append,h.wraps,empty,List.append_nil]
  · have same : ((table.breaksIn span).map Decoration.lineBreak).filterMap (·.offset?) =
        table.breaksIn span := by
      simp [List.filterMap_map,Decoration.offset?]
    rw [List.filterMap_append,h.breaks,same]

end Breaks

end Notes

namespace SpanTable

def breaks (table : SpanTable) : List Nat :=
  (table.spansOf .sequence).reverse.flatMap table.breaksIn

theorem flatMap_reverse_spansOf {α : Type} (table : SpanTable) (r : NonTerminal) (f : Span → List α) :
    (table.spansOf r).reverse.flatMap f = table.nonTerminals.reverse.flatMap fun entry =>
      if entry.1 = r then f entry.2 else [] := by
  unfold spansOf
  rw [← List.filterMap_reverse]
  induction table.nonTerminals.reverse with
  | nil => rfl
  | cons entry rest ih =>
    rw [List.flatMap_cons,List.filterMap_cons,← ih]
    by_cases same : entry.1 = r <;> simp [same]

variable {table : SpanTable} {o : DecorateOptions} {n m : Notes} {offsets : List Nat}

theorem decorateSymbol_breaks (h : n.Breaks m offsets) (entry : NonTerminal × Span) :
    (table.decorateSymbol { o with wrapLines := true } n entry).Breaks
      (table.decorateSymbol { o with wrapLines := false } m entry)
      (offsets ++ if entry.1 = .sequence then table.breaksIn entry.2 else []) := by
  obtain ⟨r,span⟩ := entry
  obtain ⟨vocabulary,wording,_⟩ := o
  have wrapped {n m : Notes} (h : n.Breaks m offsets) : Notes.Breaks
      (if true && r == .sequence then n.wrapLines table span else n) m
      (offsets ++ if r = .sequence then table.breaksIn span else []) := by
    by_cases isSequence : r = .sequence
    · simpa [isSequence] using h.wrapLines span
    · simpa [isSequence] using h
  cases vocabulary with
  | none => exact wrapped h
  | some v => exact wrapped (h.visit r span)

theorem foldl_decorateSymbol_breaks (h : n.Breaks m offsets) (entries : List (NonTerminal × Span)) :
    (entries.foldl (table.decorateSymbol { o with wrapLines := true }) n).Breaks
      (entries.foldl (table.decorateSymbol { o with wrapLines := false }) m)
      (offsets ++ entries.flatMap fun entry =>
        if entry.1 = .sequence then table.breaksIn entry.2 else []) := by
  induction entries generalizing n m offsets with
  | nil => simpa using h
  | cons entry rest ih =>
    rw [List.foldl_cons,List.foldl_cons,List.flatMap_cons,← List.append_assoc]
    exact ih (decorateSymbol_breaks h entry)

/-- With line breaks, a table has the same notes and the breaks of its sequences. -/
theorem notes_breaks (table : SpanTable) (o : DecorateOptions) :
    (table.notes { o with wrapLines := true }).Breaks (table.notes { o with wrapLines := false })
      table.breaks := by
  rw [breaks,flatMap_reverse_spansOf]
  exact foldl_decorateSymbol_breaks .empty table.nonTerminals.reverse

theorem hint_render_wrapLines (table : SpanTable) (o : DecorateOptions) (wraps : Bool) :
    (table.render { o with wrapLines := wraps }).hint =
      (table.render { o with wrapLines := false }).hint := by
  cases wraps with
  | true => exact congrArg (hint o.wording) (table.notes_breaks o).problems
  | false => rfl

end SpanTable

end CorpusQuery
