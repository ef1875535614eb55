import CorpusQuery.Proofs.Extension
import CorpusQuery.Proofs.Marks
import CorpusQuery.Proofs.Places
import CorpusQuery.Proofs.Reporting

/-! Queries without structures. What is noted there of a pair depends on the pair alone, so that neither the
order of the visits matters nor whether a position has claimed the pair before its own visit. -/
namespace CorpusQuery

theorem reported_iff_of_unstructured {T : List Entry} {source : Text} {v : Vocabulary} {p : Problem}
    (unstructured : ∀ lt, (.terminal .lt,lt) ∉ T) : Reported T source v p ↔ ∃ pair name text, LeafPair T pair ∧
      (.nonTerminal .attName,name) ∈ T ∧ pair.contains name = true ∧
      source.slice? name.start name.stop = some text ∧ v.hasAttribute (String.ofList text) = false ∧
      p = .noAttribute text := by
  constructor
  · intro called
    cases called with
    | pair called =>
      cases called with
      | noAttribute leaf _ isName contains hasText unknown =>
        exact ⟨_,_,_,leaf,isName,contains,hasText,unknown,rfl⟩
      | noStructureAttribute _ opened | noStructure _ opened => exact absurd opened.opens (unstructured _)
    | closedStructure _ opens => exact absurd opens (unstructured _)
  · rintro ⟨pair,name,text,leaf,isName,contains,hasText,unknown,rfl⟩
    exact .pair (.noAttribute leaf (fun lt opened => unstructured lt opened.opens) isName contains hasText unknown)

def NonTerminal.ofPairs : List NonTerminal := [.attVal,.attName,.regExp]

/-- The pairs of `T` are those of `U`, `n` bytes further on there, and neither has structures. -/
structure SamePairs (n : Nat) (T U : List Entry) : Prop where
  rules : ∀ r ∈ NonTerminal.ofPairs, ∀ span,
    (.nonTerminal r,span) ∈ U ↔ ∃ s, (.nonTerminal r,s) ∈ T ∧ s.shift n = span
  unstructured : ∀ lt, (.terminal .lt,lt) ∉ T
  unstructured' : ∀ lt, (.terminal .lt,lt) ∉ U

namespace SamePairs

variable {n : Nat} {T U : List Entry} {r : NonTerminal} {span : Span} {v : Vocabulary} {p : Problem}

theorem mem_shift (h : SamePairs n T U) (ofPairs : r ∈ NonTerminal.ofPairs) :
    (.nonTerminal r,span.shift n) ∈ U ↔ (.nonTerminal r,span) ∈ T := by
  simp [h.rules r ofPairs]

theorem leafPair_iff (h : SamePairs n T U) : LeafPair U (span.shift n) ↔ LeafPair T span := by
  constructor
  · intro leaf
    refine ⟨(h.mem_shift (by decide)).mp leaf.matched,fun inner member => ?_⟩
    rw [← Span.strictlyContains_shift (n := n)]
    exact leaf.alone _ ((h.mem_shift (by decide)).mpr member)
  · intro leaf
    refine ⟨(h.mem_shift (by decide)).mpr leaf.matched,fun inner member => ?_⟩
    obtain ⟨s,isPair,rfl⟩ := (h.rules _ (by decide) inner).mp member
    rw [Span.strictlyContains_shift]
    exact leaf.alone s isPair

theorem reported_iff (h : SamePairs n T U) {before source after : Text}
    (length : before.byteLength = n)
    (inside : ∀ name, (.nonTerminal .attName,name) ∈ T → name.stop ≤ source.byteLength) :
    Reported U (before ++ source ++ after) v p ↔ Reported T source v p := by
  have text {name : Span} (isName : (.nonTerminal .attName,name) ∈ T) :
      (before ++ source ++ after).slice? (name.shift n).start (name.shift n).stop =
        source.slice? name.start name.stop := by
    have fits : name.stop + n ≤ (before ++ source).byteLength := by
      have := inside name isName
      rw [Text.byteLength_append]
      omega
    subst length
    exact (Text.slice?_append_left fits after).trans (Text.slice?_append_right ..)
  rw [reported_iff_of_unstructured h.unstructured,reported_iff_of_unstructured h.unstructured']
  constructor
  · rintro ⟨pair,name,called,leaf,isName,contains,hasText,unknown,rfl⟩
    obtain ⟨inName,named,rfl⟩ := (h.rules _ (by decide) name).mp isName
    obtain ⟨inPair,-,rfl⟩ := (h.rules _ (by decide) pair).mp leaf.matched
    rw [Span.contains_shift] at contains
    rw [text named] at hasText
    exact ⟨inPair,inName,called,h.leafPair_iff.mp leaf,named,contains,hasText,unknown,rfl⟩
  · rintro ⟨pair,name,called,leaf,isName,contains,hasText,unknown,rfl⟩
    rw [← text isName] at hasText
    exact ⟨_,_,called,h.leafPair_iff.mpr leaf,(h.mem_shift (by decide)).mpr isName,
      Span.contains_shift.trans contains,hasText,unknown,rfl⟩

end SamePairs

namespace Notes

variable (table : SpanTable) (v : Vocabulary) (w : Wording) {n : Notes} {pair : Span}

def pairDecorations (pair : Span) : List Decoration :=
  (({} : Notes).attributePair table v w pair).decorations

theorem decorations_check (n : Notes) (known : Bool) (span : Span) (title : String) (p : Problem) :
    (n.check known span title p).decorations =
      n.decorations ++ if known then [.wrap span (.tooltip title.toList)] else [] := by
  cases known <;> simp [check,decorate]

theorem decorations_tagValue (n : Notes) (pair : Span) (name : Text) :
    (n.tagValue table v pair name).decorations =
      n.decorations ++ (({} : Notes).tagValue table v pair name).decorations := by
  unfold tagValue
  split
  · split <;> simp [decorate]
  · simp

theorem decorations_attributePair (fresh : pair ∉ n.handled) :
    (n.attributePair table v w pair).decorations = n.decorations ++ pairDecorations table v w pair := by
  simp only [pairDecorations,attributePair,fresh,if_false,List.not_mem_nil]
  split
  · simp [handle]
  split
  · simp [handle]
  split
  · simp [handle]
  · rw [decorations_tagValue,decorations_tagValue _ _ (check ..),decorations_check,decorations_check]
    simp [handle]

theorem handled_attributePair (fresh : pair ∉ n.handled) :
    (n.attributePair table v w pair).handled = n.handled ++ [pair] := by
  simp only [attributePair,fresh,if_false]
  split
  · rfl
  split
  · rfl
  split
  · rfl
  · simp

theorem mem_pairDecorations {d : Decoration} (member : d ∈ pairDecorations table v w pair) :
    (∃ name, d = .wrap name (.tooltip w.attributeName.toList)) ∨
      ∃ value, d = .wrap value (.clickable "tag".toList (table.source.charsBefore value.start)
        (table.source.charsBefore value.stop)) := by
  have ofTag (name : Text) (member : d ∈ (({} : Notes).tagValue table v pair name).decorations) :
      ∃ value, d = .wrap value (.clickable "tag".toList (table.source.charsBefore value.start)
        (table.source.charsBefore value.stop)) := by
    unfold tagValue at member
    split at member
    · split at member
      next value _ => exact ⟨value,by simpa [decorate] using member⟩
      next => simp at member
    · simp at member
  simp only [pairDecorations,attributePair,if_false,List.not_mem_nil] at member
  split at member
  · simp [handle] at member
  split at member
  · simp [handle] at member
  split at member
  · simp [handle] at member
  next name _ _ text _ =>
    rw [decorations_tagValue,decorations_check,List.mem_append,List.mem_append] at member
    rcases member with (old | named) | tagged
    · simp [handle] at old
    · split at named
      · exact .inl ⟨name,List.mem_singleton.mp named⟩
      · simp at named
    · exact .inr (ofTag text tagged)

section Longer

variable {table table' : SpanTable} {T U : List Entry} {more : Text}

theorem attributePair_congr (registers : table.Registers T) (registers' : table'.Registers U)
    (same : ∀ r ∈ NonTerminal.ofPairs, ∀ span, (.nonTerminal r,span) ∈ T ↔ (.nonTerminal r,span) ∈ U)
    (longer : table'.source = table.source ++ more)
    (inside : ∀ x ∈ T, x.2.start ≤ table.source.byteLength ∧ x.2.stop ≤ table.source.byteLength) :
    n.attributePair table' v w pair = n.attributePair table v w pair := by
  have nested {r : NonTerminal} (ofPairs : r ∈ NonTerminal.ofPairs) :
      table'.nested pair r = table.nested pair r :=
    (registers.nested_congr registers' (same r ofPairs)).symm
  have text {name : Span} (head : (table.nested pair .attName).head? = some name) :
      table'.text? name = table.text? name := by
    have member := (registers.mem_nested.mp (List.mem_of_head? head)).1
    rw [SpanTable.text?,longer,Text.slice?_append_left (inside _ member).2]
    rfl
  have tagged (n : Notes) (name : Text) :
      n.tagValue table' v pair name = n.tagValue table v pair name := by
    unfold tagValue
    rw [nested (by decide)]
    split
    · split
      next value head =>
        have member := (registers.mem_nested.mp (List.mem_of_head? head)).1
        rw [longer,Text.charsBefore_append_left (inside _ member).1,
          Text.charsBefore_append_left (inside _ member).2]
      next => rfl
    · rfl
  unfold attributePair
  rw [nested (by decide),nested (by decide)]
  cases head : (table.nested pair .attName).head? with
  | none => rfl
  | some name => simp only [text head,tagged]

end Longer

structure Tallied (n : Notes) (pairs : List Span) : Prop where
  known : n.handled ⊆ pairs
  nodup : n.handled.Nodup
  decorations : n.decorations = n.handled.flatMap (pairDecorations table v w)

variable {table v w} {pairs : List Span}

theorem Tallied.attributePair (h : n.Tallied table v w pairs) (isPair : pair ∈ pairs) :
    (n.attributePair table v w pair).Tallied table v w pairs := by
  by_cases handled : pair ∈ n.handled
  · rwa [attributePair_of_handled handled]
  constructor
  · rw [handled_attributePair table v w handled]
    exact List.append_subset.mpr ⟨h.known,by simpa using isPair⟩
  · rw [handled_attributePair table v w handled]
    exact List.concat_eq_append ▸ h.nodup.concat handled
  · rw [handled_attributePair table v w handled,decorations_attributePair table v w handled,
      h.decorations]
    simp

theorem Tallied.attributePairs {few : List Span} (h : n.Tallied table v w pairs)
    (known : few ⊆ pairs) : (few.foldl (Notes.attributePair table v w) n).Tallied table v w pairs := by
  refine List.foldlRecOn (motive := fun m : Notes => m.Tallied table v w pairs) few _ h ?_
  exact fun m tallied pair member => tallied.attributePair (known member)

end Notes

/-- A query without structures, in which no sequence is broken into lines. -/
structure Flat (table : SpanTable) (T : List Entry) : Prop where
  unstructured : ∀ lt, (.terminal .lt,lt) ∉ T
  unbroken : ∀ n span, (.nonTerminal .sequence,span) ∈ T → Notes.wrapLines table n span = n

namespace Legible

open Notes

variable {table table' : SpanTable} {T U : List Entry} (l : Legible table T) {v : Vocabulary}
  {o : DecorateOptions}

include l in
/-- There the decorations are those of the pairs, in whatever order the pairs are visited. -/
theorem decorations_perm (flat : Flat table T) (asks : o.vocabulary = some v) :
    (table.notes o).decorations.Perm
      ((table.spansOf .attVal).flatMap (pairDecorations table v o.wording)) := by
  have outside {pair : Span} (isPair : pair ∈ table.spansOf .attVal) :
      table.openStructure? pair = none :=
    l.registers.openStructure?_of_not_openedAt l.outline (l.registers.mem_spansOf.mp isPair)
      fun lt opened => flat.unstructured lt opened.opens
  have tallied : (table.notes o).Tallied table v o.wording (table.spansOf .attVal) := by
    refine SpanTable.notes_induction (P := (·.Tallied table v o.wording (table.spansOf .attVal)))
      ⟨by simp,by simp,by simp⟩ ?_ ?_
    · intro n v' r span asks' isEntry h
      obtain rfl := Option.some.inj (asks.symm.trans asks')
      have member := (l.registers.rules r span).mp isEntry
      cases r with
      | position =>
        refine h.attributePairs fun pair nested => ?_
        exact l.registers.mem_spansOf.mpr (l.registers.mem_nested.mp nested).1
      | structureTag =>
        obtain ⟨lt,own,shape⟩ := l.outline.shape member
        exact absurd shape.opens (flat.unstructured lt)
      | attVal =>
        have isPair := l.registers.mem_spansOf.mpr member
        simp only [visit,outside isPair]
        exact h.attributePair isPair
      | _ => exact h
    · intro n span _ isEntry h
      rwa [flat.unbroken n span ((l.registers.rules _ _).mp isEntry)]
  have start : ({} : Notes).Faithful T table.source v := ⟨by simp,by simp,by simp⟩
  obtain ⟨-,-,checks⟩ := l.foldl_faithful asks
    table.nonTerminals.reverse (fun x => List.mem_reverse.mp) start
  have all : ∀ pair, pair ∈ (table.notes o).handled ↔ pair ∈ table.spansOf .attVal := by
    refine fun pair => ⟨fun handled => tallied.known handled,fun isPair => ?_⟩
    have visited := (l.registers.rules _ _).mpr (l.registers.mem_spansOf.mp isPair)
    exact (checks _ (List.mem_reverse.mpr visited)).pair rfl
  have perm : (table.notes o).handled.Perm (table.spansOf .attVal) :=
    (List.perm_ext_iff_of_nodup tallied.nodup l.registers.nodup_spansOf).mpr all
  rw [tallied.decorations]
  exact perm.flatMap_right _

include l in
theorem mem_decorations (flat : Flat table T) (asks : o.vocabulary = some v) {d : Decoration}
    (member : d ∈ (table.notes o).decorations) :
    (∃ name, d = .wrap name (.tooltip o.wording.attributeName.toList)) ∨
      ∃ value, d = .wrap value (.clickable "tag".toList (table.source.charsBefore value.start)
        (table.source.charsBefore value.stop)) := by
  obtain ⟨pair,-,ofPair⟩ := List.mem_flatMap.mp ((l.decorations_perm flat asks).mem_iff.mp member)
  exact mem_pairDecorations table v o.wording ofPair

include l in
/-- A name or a value is wrapped in one way only. -/
theorem wrapper_unique (flat : Flat table T) (asks : o.vocabulary = some v) {span : Span}
    {u w : Wrapper} (first : .wrap span u ∈ (table.notes o).decorations)
    (second : .wrap span w ∈ (table.notes o).decorations) : u = w := by
  have marks := l.registers.marked o _ first
  have marks' := l.registers.marked o _ second
  -- No range is both a name and a value.
  have distinct (isName : (.nonTerminal .attName,span) ∈ T) (isValue : (.nonTerminal .regExp,span) ∈ T) :
      False := by
    have proper := l.outline.proper isName rfl
    rcases l.outline.apart isName isValue rfl rfl rfl rfl with same | before | before
    · cases same
    all_goals
      simp only at before proper
      omega
  rcases l.mem_decorations flat asks first with ⟨_,same⟩ | ⟨_,same⟩ <;>
    rcases l.mem_decorations flat asks second with ⟨_,same'⟩ | ⟨_,same'⟩ <;>
    obtain ⟨rfl,rfl⟩ := Decoration.wrap.inj same <;> obtain ⟨rfl,rfl⟩ := Decoration.wrap.inj same'
  · rfl
  · exact (distinct marks marks').elim
  · exact (distinct marks' marks).elim
  · rfl

include l in
theorem decorations_longer (l' : Legible table' U) (flat : Flat table T) (flat' : Flat table' U)
    (same : ∀ r ∈ NonTerminal.ofPairs, ∀ span, (.nonTerminal r,span) ∈ T ↔ (.nonTerminal r,span) ∈ U)
    {more : Text} (longer : table'.source = table.source ++ more)
    (inside : ∀ x ∈ T, x.2.start ≤ table.source.byteLength ∧ x.2.stop ≤ table.source.byteLength)
    (asks : o.vocabulary = some v) :
    (table'.notes o).decorations.Perm (table.notes o).decorations := by
  have pairs : (table'.spansOf .attVal).Perm (table.spansOf .attVal) := by
    refine (List.perm_ext_iff_of_nodup l'.registers.nodup_spansOf l.registers.nodup_spansOf).mpr ?_
    intro span
    rw [l'.registers.mem_spansOf,l.registers.mem_spansOf,same _ (by decide)]
  have decorations : pairDecorations table' v o.wording = pairDecorations table v o.wording := by
    funext pair
    rw [pairDecorations,attributePair_congr v o.wording l.registers l'.registers same longer inside]
    rfl
  refine (l'.decorations_perm flat' asks).trans (.trans ?_ (l.decorations_perm flat asks).symm)
  rw [decorations]
  exact pairs.flatMap_right _

end Legible

end CorpusQuery
