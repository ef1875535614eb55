import CorpusQuery.Decorate
import CorpusQuery.Proofs.Lookup

/-! What a visit of each symbol does, said by the roles of names. -/
namespace CorpusQuery

namespace Notes

variable (n : Notes) (known : Bool) (span : Span) (title : String) (p : Problem)

@[simp] theorem problems_handle (pairs : List Span) : (n.handle pairs).problems = n.problems := rfl

@[simp] theorem handled_handle (pairs : List Span) :
    (n.handle pairs).handled = n.handled ++ pairs := rfl

@[simp] theorem openStructures_handle (pairs : List Span) :
    (n.handle pairs).openStructures = n.openStructures := rfl

@[simp] theorem problems_check :
    (n.check known span title p).problems = n.problems ++ if known then [] else [p] := by
  cases known <;> simp [check,decorate]

@[simp] theorem handled_check : (n.check known span title p).handled = n.handled := by
  cases known <;> rfl

@[simp] theorem openStructures_check :
    (n.check known span title p).openStructures = n.openStructures := by
  cases known <;> rfl

section Tags

variable (table : SpanTable) (v : Vocabulary) (w : Wording) (pair : Span) (name : Text)

theorem tagValue_eq : n.tagValue table v pair name = n ∨ ∃ value left right,
    n.tagValue table v pair name =
      n.decorate (.wrap value (.clickable "tag".toList left right)) := by
  unfold tagValue
  split
  next =>
    split
    · exact .inr ⟨_,_,_,rfl⟩
    · exact .inl rfl
  next => exact .inl rfl

@[simp] theorem problems_tagValue : (n.tagValue table v pair name).problems = n.problems := by
  rcases n.tagValue_eq table v pair name with same | ⟨_,_,_,same⟩ <;> rw [same]; rfl

@[simp] theorem handled_tagValue : (n.tagValue table v pair name).handled = n.handled := by
  rcases n.tagValue_eq table v pair name with same | ⟨_,_,_,same⟩ <;> rw [same]; rfl

@[simp] theorem openStructures_tagValue :
    (n.tagValue table v pair name).openStructures = n.openStructures := by
  rcases n.tagValue_eq table v pair name with same | ⟨_,_,_,same⟩ <;> rw [same]; rfl

end Tags

def enterStructure (v : Vocabulary) (w : Wording) (own : Span) (name : Text) : Notes :=
  if own ∈ n.openStructures then n
  else { n with openStructures := own :: n.openStructures }.structureName v w own name

@[simp] theorem problems_enterStructure (v : Vocabulary) (w : Wording) (own : Span) (name : Text) :
    (n.enterStructure v w own name).problems = n.problems ++
      if own ∈ n.openStructures ∨ v.hasStructure (String.ofList name) then []
      else [.noStructure name] := by
  by_cases seen : own ∈ n.openStructures
  · simp [enterStructure,seen]
  · simp [enterStructure,seen,structureName]

@[simp] theorem handled_enterStructure (v : Vocabulary) (w : Wording) (own : Span) (name : Text) :
    (n.enterStructure v w own name).handled = n.handled := by
  unfold enterStructure
  split
  · rfl
  · simp [structureName]

theorem mem_openStructures_enterStructure (v : Vocabulary) (w : Wording) (own : Span) (name : Text)
    {other : Span} : other ∈ (n.enterStructure v w own name).openStructures ↔
      other = own ∨ other ∈ n.openStructures := by
  unfold enterStructure
  split
  next seen =>
    exact ⟨.inr,fun h => h.elim (fun same => same ▸ seen) id⟩
  next => simp [structureName]

section Visits

variable {n} {table : SpanTable} {v : Vocabulary} {w : Wording} {pair name own : Span}
  {text ownText : Text}

theorem attributePair_of_handled (handled : pair ∈ n.handled) :
    n.attributePair table v w pair = n := by
  simp [attributePair,handled]

theorem openStructurePair_of_handled (handled : pair ∈ n.handled) :
    n.openStructurePair table v w own pair = n := by
  simp [openStructurePair,handled]

theorem openStructurePair_eq (fresh : pair ∉ n.handled) (head :
      (table.nested pair .attName).head? = some name) (hasText : table.text? name = some text)
    (hasOwn : table.text? own = some ownText) : n.openStructurePair table v w own pair =
      ((n.handle [pair]).enterStructure v w own ownText).check
        (v.hasStructureAttribute (String.ofList ownText) (String.ofList text)) name
        w.structureAttribute (.noStructureAttribute text) := by
  by_cases seen : own ∈ n.openStructures
  · simp [openStructurePair,fresh,head,hasText,hasOwn,enterStructure,seen,structureAttribute]
  · simp [openStructurePair,fresh,head,hasText,hasOwn,enterStructure,seen,structureAttribute]

theorem structureAttribute_eq (hasText : table.text? name = some text) :
    n.structureAttribute table v w ownText name =
      n.check (v.hasStructureAttribute (String.ofList ownText) (String.ofList text)) name
        w.structureAttribute (.noStructureAttribute text) := by
  simp [structureAttribute,hasText]

def structureAttributes (n : Notes) (table : SpanTable) (v : Vocabulary) (w : Wording)
    (ownText : Text) (names : List Span) : Notes :=
  names.foldl (fun n name => n.structureAttribute table v w ownText name) n

theorem structureTag_eq {span : Span} {others : List Span}
    (names : table.nested span .attName = own :: others) (hasOwn : table.text? own = some ownText) :
    n.structureTag table v w span = ((n.handle (table.nested span .attVal)).structureName v w own
      ownText).structureAttributes table v w ownText others := by
  simp [structureTag,names,hasOwn,structureAttributes]

theorem structureAttributes_append (names : List Span) (name : Span) :
    n.structureAttributes table v w ownText (names ++ [name]) =
      (n.structureAttributes table v w ownText names).structureAttribute table v w ownText name :=
  List.foldl_append

theorem handled_structureAttribute :
    (n.structureAttribute table v w ownText name).handled = n.handled := by
  unfold structureAttribute
  split
  · rfl
  · simp

theorem openStructures_structureAttribute :
    (n.structureAttribute table v w ownText name).openStructures = n.openStructures := by
  unfold structureAttribute
  split
  · rfl
  · simp

@[simp] theorem handled_structureAttributes (names : List Span) :
    (n.structureAttributes table v w ownText names).handled = n.handled := by
  induction names using List.reverseRecOn with
  | nil => rfl
  | append_singleton names name ih => rw [structureAttributes_append,handled_structureAttribute,ih]

@[simp] theorem openStructures_structureAttributes (names : List Span) :
    (n.structureAttributes table v w ownText names).openStructures = n.openStructures := by
  induction names using List.reverseRecOn with
  | nil => rfl
  | append_singleton names name ih =>
    rw [structureAttributes_append,openStructures_structureAttribute,ih]

theorem mem_problems_structureAttributes (names : List Span) {p : Problem} :
    p ∈ (n.structureAttributes table v w ownText names).problems ↔ p ∈ n.problems ∨
      ∃ name ∈ names, ∃ text, table.text? name = some text ∧
        v.hasStructureAttribute (String.ofList ownText) (String.ofList text) = false ∧
        p = .noStructureAttribute text := by
  induction names using List.reverseRecOn with
  | nil => simp [structureAttributes]
  | append_singleton names name ih =>
    rw [structureAttributes_append]
    cases hasText : table.text? name with
    | none =>
      simp only [structureAttribute,hasText,ih,List.mem_append,List.mem_singleton]
      grind
    | some text =>
      rw [structureAttribute_eq hasText,problems_check,List.mem_append,ih]
      cases known : v.hasStructureAttribute (String.ofList ownText) (String.ofList text) <;> grind

/-- A pair of an open structure checks its first name, and once the name of the structure. -/
theorem mem_problems_openStructurePair (fresh : pair ∉ n.handled) (head :
      (table.nested pair .attName).head? = some name) (hasText : table.text? name = some text)
    (hasOwn : table.text? own = some ownText) {p : Problem} :
    p ∈ (n.openStructurePair table v w own pair).problems ↔ p ∈ n.problems ∨
      (own ∉ n.openStructures ∧ v.hasStructure (String.ofList ownText) = false ∧
        p = .noStructure ownText) ∨
      v.hasStructureAttribute (String.ofList ownText) (String.ofList text) = false ∧
        p = .noStructureAttribute text := by
  rw [openStructurePair_eq fresh head hasText hasOwn]
  simp only [problems_check,problems_enterStructure,problems_handle,openStructures_handle,
    List.mem_append]
  grind

/-- A closed structure checks its own name, then the names after it. -/
theorem mem_problems_structureTag {span : Span} {others : List Span}
    (names : table.nested span .attName = own :: others) (hasOwn : table.text? own = some ownText)
    {p : Problem} : p ∈ (n.structureTag table v w span).problems ↔ (p ∈ n.problems ∨
        v.hasStructure (String.ofList ownText) = false ∧ p = .noStructure ownText) ∨
      ∃ name ∈ others, ∃ text, table.text? name = some text ∧
        v.hasStructureAttribute (String.ofList ownText) (String.ofList text) = false ∧
        p = .noStructureAttribute text := by
  rw [structureTag_eq names hasOwn,mem_problems_structureAttributes]
  simp only [structureName,problems_check,problems_handle,List.mem_append]
  grind

theorem handled_structureTag (n : Notes) (span : Span) :
    (n.structureTag table v w span).handled = n.handled ++ table.nested span .attVal := by
  unfold structureTag
  split
  · rfl
  · split
    · rfl
    · exact (handled_structureAttributes _).trans (by simp [structureName])

theorem openStructures_structureTag (n : Notes) (table : SpanTable) (v : Vocabulary) (w : Wording)
    (span : Span) :
    (n.structureTag table v w span).openStructures = n.openStructures := by
  unfold structureTag
  split
  · rfl
  · split
    · rfl
    · exact (openStructures_structureAttributes _).trans (by simp [structureName])

end Visits

end Notes

structure Legible (table : SpanTable) (T : List Entry) where
  full : Text
  outline : Outline full T
  registers : table.Registers T
  exists_text : ∀ name, (.nonTerminal .attName,name) ∈ T → ∃ text, table.text? name = some text

/-- The first pass over a query has such a table. -/
def Reading.legible {query : Text} {start : StartRule}
    (x : Reading (query ++ start.ending) start) :
    Legible (SpanTable.ofEvents query (parse (query ++ start.ending) start).events) x.path where
  full := query ++ start.ending
  outline := x.outline
  registers := x.registers query
  exists_text name isName := by
    rw [SpanTable.text?,x.source_eq]
    exact x.exists_text isName

namespace Legible

open Notes

variable {table : SpanTable} {T : List Entry} (l : Legible table T) (v : Vocabulary) (w : Wording)
  {n : Notes} {pair name lt own : Span} {text ownText : Text}

include l in
theorem attributePair_of_not_leaf (fresh : pair ∉ n.handled)
    (isPair : (.nonTerminal .attVal,pair) ∈ T) (notLeaf : ¬LeafPair T pair) :
    n.attributePair table v w pair = n.handle [pair] := by
  have nested : table.nested pair .attVal ≠ [] :=
    (l.registers.nested_pairs_eq_nil isPair).not.mpr notLeaf
  simp [attributePair,fresh,nested]

include l in
theorem exists_first (isPair : (.nonTerminal .attVal,pair) ∈ T) : ∃ name,
    (.nonTerminal .attName,name) ∈ T ∧ pair.contains name = true ∧
      (table.nested pair .attName).head? = some name := by
  obtain ⟨held,isSome,contains⟩ := l.outline.exists_name_in isPair
  have inNested := l.registers.mem_nested.mpr
    ⟨isSome,l.outline.strictlyContains_name isPair isSome contains⟩
  cases names : table.nested pair .attName with
  | nil => simp [names] at inNested
  | cons first rest =>
    obtain ⟨isFirst,holds⟩ := l.registers.mem_nested.mp (names ▸ List.mem_cons_self)
    exact ⟨first,isFirst,Span.contains_iff.mpr (Span.strictlyContains_iff.mp holds).2,rfl⟩

include l in
theorem attributePair_of_leaf (fresh : pair ∉ n.handled) (leaf : LeafPair T pair)
    (isName : (.nonTerminal .attName,name) ∈ T) (contains : pair.contains name = true)
    (hasText : table.text? name = some text) : n.attributePair table v w pair =
      ((n.handle [pair]).check (v.hasAttribute (String.ofList text)) name w.attributeName
        (.noAttribute text)).tagValue table v pair text := by
  have nested : table.nested pair .attVal = [] :=
    (l.registers.nested_pairs_eq_nil leaf.matched).mpr leaf
  obtain ⟨first,isFirst,holds,head⟩ := l.exists_first leaf.matched
  obtain rfl := l.outline.name_unique leaf isFirst holds isName contains
  simp [attributePair,fresh,nested,head,hasText]

include l in
/-- The names in a closed structure: its own, and once each the names in its pairs. -/
theorem names_of_structure {span : Span} (shape : Shape T span lt own) : ∃ others,
    table.nested span .attName = own :: others ∧ ∀ name, name ∈ others ↔
      (.nonTerminal .attName,name) ∈ T ∧ span.strictlyContains name = true ∧ name ≠ own := by
  obtain ⟨others,names⟩ := l.registers.nested_names l.outline shape.firstName.matched shape.holdsOwn
    fun name isName holds => by
      rcases shape.names name isName holds with rfl | ⟨later,-⟩
      · exact Nat.le_refl _
      · exact (l.outline.proper shape.firstName.matched rfl).le.trans later
  refine ⟨others,names,fun name => ?_⟩
  have nodup : (table.nested span .attName).Nodup := l.registers.nodup_nested
  have mem_nested : name ∈ table.nested span .attName ↔ _ := l.registers.mem_nested
  rw [names,List.nodup_cons] at nodup
  rw [names,List.mem_cons] at mem_nested
  constructor
  · intro isOther
    exact ⟨(mem_nested.mp (.inr isOther)).1,(mem_nested.mp (.inr isOther)).2,
      fun same => nodup.1 (same ▸ isOther)⟩
  · exact fun ⟨isName,holds,differs⟩ => (mem_nested.mpr ⟨isName,holds⟩).resolve_left differs

include l in
/-- A closed structure claims the pairs in it. -/
theorem mem_handled_structureTag (n : Notes) (span pair : Span) :
    pair ∈ (n.structureTag table v w span).handled ↔ pair ∈ n.handled ∨
      (.nonTerminal .attVal,pair) ∈ T ∧ span.strictlyContains pair = true := by
  rw [handled_structureTag,List.mem_append,l.registers.mem_nested]

end Legible

end CorpusQuery
