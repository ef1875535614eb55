import CorpusQuery.Corpus
import CorpusQuery.Proofs.Structures

/-! Which symbols call for a tooltip round a name. A name in a closed structure is called for by the
structure alone, and the name of an open structure once; but in an open structure every pair calls
for its first name, the pairs that hold other pairs as well. -/
namespace CorpusQuery

/-- A pair in a structure that has begun at `lt` and is not closed. -/
structure OpenPair (T : List Entry) (lt pair : Span) : Prop where
  matched : (.nonTerminal .attVal,pair) ∈ T
  opened : OpenedAt T lt pair
  unclosed : ∀ span, (.nonTerminal .structureTag,span) ∈ T → span.strictlyContains pair = false

structure FirstIn (T : List Entry) (pair name : Span) : Prop where
  matched : (.nonTerminal .attName,name) ∈ T
  inside : pair.contains name = true
  first : ∀ other, (.nonTerminal .attName,other) ∈ T → pair.contains other = true →
    name.start ≤ other.start

inductive Known (source : Text) (accepts : String → Bool) (span : Span) : Prop where
  | intro : source.slice? span.start span.stop = some text → accepts (String.ofList text) = true →
    Known source accepts span

/-- The symbols that call for a tooltip round a name. -/
inductive Calls (T : List Entry) (source : Text) (v : Vocabulary) (name : Span) : Entry → Prop where
  | plainPair : LeafPair T pair → (∀ lt, ¬OpenedAt T lt pair) → pair.contains name = true →
      Known source v.hasAttribute name → Calls T source v name (.nonTerminal .attVal,pair)
  | openPair : OpenPair T lt pair → FirstName T lt own → FirstIn T pair name →
      source.slice? own.start own.stop = some ownText →
      Known source (v.hasStructureAttribute (String.ofList ownText)) name →
      Calls T source v name (.nonTerminal .attVal,pair)
  | openName : OpenPair T lt pair → FirstName T lt name → Known source v.hasStructure name →
      Calls T source v name (.nonTerminal .attName,name)
  | closedName : (.nonTerminal .structureTag,span) ∈ T → Shape T span lt name →
      Known source v.hasStructure name → Calls T source v name (.nonTerminal .structureTag,span)
  | closedPair : (.nonTerminal .structureTag,span) ∈ T → Shape T span lt own →
      span.strictlyContains name = true → name ≠ own →
      source.slice? own.start own.stop = some ownText →
      Known source (v.hasStructureAttribute (String.ofList ownText)) name →
      Calls T source v name (.nonTerminal .structureTag,span)

/-- In an open structure, the first name in a pair that holds other pairs, when the structure has
that attribute. -/
inductive Repeated (T : List Entry) (source : Text) (v : Vocabulary) (name : Span) : Prop where
  | intro : OpenPair T lt pair → ¬LeafPair T pair → FirstName T lt own → FirstIn T pair name →
      source.slice? own.start own.stop = some ownText →
      Known source (v.hasStructureAttribute (String.ofList ownText)) name →
      Repeated T source v name

namespace Outline

variable {full : Text} {T : List Entry} {span pair name lt own : Span}

theorem leaf_unique (x : Outline full T) {other : Span} (leaf : LeafPair T pair)
    (leaf' : LeafPair T other) (isName : (.nonTerminal .attName,name) ∈ T)
    (inPair : pair.contains name = true) (inOther : other.contains name = true) : pair = other := by
  have proper := x.proper isName rfl
  rw [Span.contains_iff] at inPair inOther
  simp only at proper
  obtain ⟨p⟩ := x.placed leaf.matched rfl
  have member := leaf'.matched
  rw [p.split] at member
  simp only [List.mem_append,List.mem_cons] at member
  rcases member with (before | inner) | same | after
  · have := p.earlier before
    simp only at this
    omega
  · by_contra differ
    have within := p.contains_of_inner inner
    refine absurd (leaf.alone other leaf'.matched) ?_
    simp only [Span.contains_iff] at within
    simp only [Bool.not_eq_false,Span.strictlyContains_iff]
    exact ⟨Ne.symm differ,within⟩
  · exact (congrArg Prod.snd same).symm
  · rcases p.later x.trail after rfl with behind | ⟨-,around⟩
    · simp only at behind
      omega
    · by_contra differ
      refine absurd (leaf'.alone pair leaf.matched) ?_
      simp only [Span.contains_iff] at around
      simp only [Bool.not_eq_false,Span.strictlyContains_iff]
      exact ⟨differ,around⟩

theorem not_contains_own (x : Outline full T) {other : Span}
    (isPair : (.nonTerminal .attVal,pair) ∈ T) (opened : OpenedAt T lt pair)
    (first : FirstName T lt own) (isOther : (.nonTerminal .attVal,other) ∈ T) :
    other.contains own = false := by
  by_contra contains
  rw [Bool.not_eq_false] at contains
  have within := Span.contains_iff.mp contains
  have ownEnds : own.stop ≤ pair.start := by
    rcases x.pair_cases isPair with unopened | ⟨lt',own',opened',first',ends⟩
    · exact absurd opened (unopened lt)
    · obtain rfl := x.openedAt_unique opened opened'
      obtain rfl := x.firstName_unique first first'
      exact ends
  have ownProper := x.proper first.matched rfl
  have behind := first.behind
  have ltProper := x.proper first.matched rfl
  simp only at ownProper ltProper
  obtain ⟨p⟩ := x.placed isOther rfl
  have starts : lt.start < other.start := by
    by_contra later
    have := x.proper opened.opens rfl
    have inInner := p.mem_inner_of_start x.trail x.inside opened.opens rfl rfl (by simp)
      (Nat.le_of_not_lt later) (by simp only at this ⊢; omega)
    simpa [NonTerminal.holds,NonTerminal.inPair] using p.holds_of_inner inInner
  have before := p.earlier (p.mem_before x.trail opened.opens rfl rfl starts)
  -- So the pair is opened where the structure is.
  have openedOther : OpenedAt T lt other := ⟨opened.opens,before,fun kind bracket isBracket member ends =>
    opened.nearest kind bracket isBracket member (by omega)⟩
  exact x.ne_own isOther openedOther first first.matched contains rfl

theorem holds_of_overlap (x : Outline full T) (isStructure : (.nonTerminal .structureTag,span) ∈ T)
    (isPair : (.nonTerminal .attVal,pair) ∈ T) (isName : (.nonTerminal .attName,name) ∈ T)
    (holds : span.strictlyContains name = true) (contains : pair.contains name = true) :
    span.strictlyContains pair = true := by
  obtain ⟨lt,own,shape⟩ := x.shape isStructure
  have proper := x.proper isName rfl
  simp only [Span.strictlyContains_iff,Span.contains_iff] at holds contains proper
  exact shape.overlaps pair isPair (by omega) (by omega)

theorem not_firstName_of_closed (x : Outline full T)
    (isStructure : (.nonTerminal .structureTag,span) ∈ T) (holds : span.strictlyContains name = true)
    (openPair : OpenPair T lt pair) : ¬FirstName T lt name := by
  intro first
  obtain ⟨lt',own,shape⟩ := x.shape isStructure
  rcases shape.names name first.matched holds with rfl | ⟨-,other,isOther,-,contains⟩
  · obtain ⟨gt,closes,behind,ends⟩ := shape.closes
    rcases x.pair_cases openPair.matched with unopened | ⟨lt',own',opened',first',ownEnds⟩
    · exact unopened lt openPair.opened
    obtain rfl := x.openedAt_unique openPair.opened opened'
    obtain rfl := x.firstName_unique first first'
    have proper := x.proper first.matched rfl
    have gtProper := x.proper closes rfl
    have pairProper := x.proper openPair.matched rfl
    have ltBehind := first.behind
    simp only [Span.strictlyContains_iff] at holds proper gtProper pairProper
    by_cases overlaps : pair.start < span.stop
    · have held := shape.overlaps pair openPair.matched (by omega) overlaps
      simp [openPair.unclosed span isStructure] at held
    · -- The `>` of the structure is between its name and the pair.
      have := openPair.opened.nearest .gt gt (.inr rfl) closes (by omega)
      omega
  · have := x.not_contains_own openPair.matched openPair.opened first isOther
    simp [contains] at this

theorem structure_unique (x : Outline full T) {other : Span}
    (isStructure : (.nonTerminal .structureTag,span) ∈ T)
    (isOther : (.nonTerminal .structureTag,other) ∈ T) (isName : (.nonTerminal .attName,name) ∈ T)
    (holds : span.strictlyContains name = true) (holdsOther : other.strictlyContains name = true) :
    span = other := by
  have proper := x.proper isName rfl
  simp only [Span.strictlyContains_iff] at holds holdsOther proper
  rcases x.apart isStructure isOther rfl rfl rfl rfl with same | before | after
  · exact congrArg Prod.snd same
  · simp only at before
    omega
  · simp only at after
    omega

/-- A pair of an open structure is one of its own pairs of the same structure. -/
theorem OpenPair.inner (x : Outline full T) {inner : Span} (h : OpenPair T lt pair)
    (isInner : (.nonTerminal .attVal,inner) ∈ T) (contains : pair.contains inner = true) :
    OpenPair T lt inner where
  matched := isInner
  opened := (x.openedAt_iff h.matched isInner contains).mpr h.opened
  unclosed span isStructure := by
    by_contra holds
    rw [Bool.not_eq_false] at holds
    obtain ⟨lt',own,shape⟩ := x.shape isStructure
    have proper := x.proper isInner rfl
    simp only [Span.strictlyContains_iff,Span.contains_iff] at holds contains proper
    have held := shape.overlaps pair h.matched (by omega) (by omega)
    simp [h.unclosed span isStructure] at held

theorem firstIn_unique (x : Outline full T) {other : Span} (h : FirstIn T pair name)
    (h' : FirstIn T pair other) : name = other :=
  x.name_eq h.matched h'.matched (Nat.le_antisymm (h.first other h'.matched h'.inside)
    (h'.first name h.matched h.inside))

/-- A pair that does not stand in an open structure is in no closed one. -/
theorem not_strictlyContains_of_plain (x : Outline full T)
    (isStructure : (.nonTerminal .structureTag,span) ∈ T)
    (isPair : (.nonTerminal .attVal,pair) ∈ T) (plain : ∀ lt, ¬OpenedAt T lt pair) :
    span.strictlyContains pair = false := by
  obtain ⟨lt,own,shape⟩ := x.shape isStructure
  by_contra holds
  exact plain lt (shape.pairs pair isPair (by simpa using holds))

theorem structures_after (x : Outline full T) : (Entry.nonTerminals T).Pairwise fun a b =>
    a.1 = .structureTag → b.1 = .attVal → a.2.strictlyContains b.2 = false := by
  refine List.pairwise_filterMap.mpr ?_
  refine List.Pairwise.imp_of_mem (fun {a b} inA inB ordered => ?_) x.trail.ordered
  rintro ⟨r,span⟩ isA ⟨s,pair⟩ isB rfl rfl
  obtain rfl := Entry.nonTerminal?_eq_some.mp isA
  obtain rfl := Entry.nonTerminal?_eq_some.mp isB
  by_contra holds
  rw [Bool.not_eq_false,Span.strictlyContains_iff] at holds
  have proper := x.proper inB rfl
  rcases ordered rfl with before | ⟨held,-⟩
  · simp only at holds before proper
    omega
  · simp [Symbol.holds,NonTerminal.holds,NonTerminal.inPair] at held

end Outline

namespace Calls

variable {full : Text} {T : List Entry} {source : Text} {v : Vocabulary}
  {name span pair own : Span} {y z : Entry}

/-- A pair that calls for a name holds the name, lies in no closed structure, and holds no other
pair, unless the name is called for again. -/
theorem inPair (x : Outline full T) (h : Calls T source v name (.nonTerminal .attVal,pair)) :
    (.nonTerminal .attVal,pair) ∈ T ∧ pair.contains name = true ∧
      (∀ span, (.nonTerminal .structureTag,span) ∈ T → span.strictlyContains pair = false) ∧
      (LeafPair T pair ∨ Repeated T source v name) := by
  cases h with
  | plainPair leaf plain contains =>
    exact ⟨leaf.matched,contains,fun span isStructure =>
      x.not_strictlyContains_of_plain isStructure leaf.matched plain,.inl leaf⟩
  | openPair openPair own first hasOwn known =>
    refine ⟨openPair.matched,first.inside,openPair.unclosed,?_⟩
    by_cases leaf : LeafPair T pair
    · exact .inl leaf
    · exact .inr ⟨openPair,leaf,own,first,hasOwn,known⟩

theorem inStructure (h : Calls T source v name (.nonTerminal .structureTag,span)) :
    (.nonTerminal .structureTag,span) ∈ T ∧ span.strictlyContains name = true := by
  cases h with
  | closedName isStructure shape => exact ⟨isStructure,shape.holdsOwn⟩
  | closedPair isStructure _ holds => exact ⟨isStructure,holds⟩

theorem isOwn (h : Calls T source v name (.nonTerminal .attName,own)) :
    own = name ∧ ∃ lt pair, OpenPair T lt pair ∧ FirstName T lt name := by
  cases h with
  | openName openPair first => exact ⟨rfl,_,_,openPair,first⟩

/-- Two symbols call for one name only when the name is called for again. -/
theorem repeated (x : Outline full T) (isName : (.nonTerminal .attName,name) ∈ T)
    (h : Calls T source v name y) (h' : Calls T source v name z) (differ : y ≠ z) :
    Repeated T source v name := by
  -- A pair and what holds it do not both call, nor do a structure and its name.
  have pairClosed {pair span : Span} (h : Calls T source v name (.nonTerminal .attVal,pair))
      (h' : Calls T source v name (.nonTerminal .structureTag,span)) : False := by
    obtain ⟨isPair,contains,unclosed,-⟩ := h.inPair x
    obtain ⟨isStructure,holds⟩ := h'.inStructure
    have held := x.holds_of_overlap isStructure isPair isName holds contains
    simp [unclosed span isStructure] at held
  have pairOpened {pair own : Span} (h : Calls T source v name (.nonTerminal .attVal,pair))
      (h' : Calls T source v name (.nonTerminal .attName,own)) : False := by
    obtain ⟨isPair,contains,-⟩ := h.inPair x
    obtain ⟨rfl,lt,other,openPair,first⟩ := h'.isOwn
    have := x.not_contains_own openPair.matched openPair.opened first isPair
    simp [contains] at this
  have closedOpened {span own : Span} (h : Calls T source v name (.nonTerminal .structureTag,span))
      (h' : Calls T source v name (.nonTerminal .attName,own)) : False := by
    obtain ⟨isStructure,holds⟩ := h.inStructure
    obtain ⟨rfl,lt,other,openPair,first⟩ := h'.isOwn
    exact x.not_firstName_of_closed isStructure holds openPair first
  have kinds {y : Entry} (h : Calls T source v name y) : (∃ pair, y = (.nonTerminal .attVal,pair)) ∨
      (∃ span, y = (.nonTerminal .structureTag,span)) ∨ ∃ own, y = (.nonTerminal .attName,own) := by
    cases h <;> simp
  rcases kinds h with ⟨pair,rfl⟩ | ⟨span,rfl⟩ | ⟨own,rfl⟩ <;>
    rcases kinds h' with ⟨pair',rfl⟩ | ⟨span',rfl⟩ | ⟨own',rfl⟩
  · obtain ⟨-,contains,-,leaf | again⟩ := h.inPair x
    · obtain ⟨-,contains',-,leaf' | again⟩ := h'.inPair x
      · exact absurd (congrArg _ (x.leaf_unique leaf leaf' isName contains contains')) differ
      · exact again
    · exact again
  · exact (pairClosed h h').elim
  · exact (pairOpened h h').elim
  · exact (pairClosed h' h).elim
  · obtain ⟨isStructure,holds⟩ := h.inStructure
    obtain ⟨isOther,holdsOther⟩ := h'.inStructure
    exact absurd (congrArg _ (x.structure_unique isStructure isOther isName holds holdsOther)) differ
  · exact (closedOpened h h').elim
  · exact (pairOpened h' h).elim
  · exact (closedOpened h' h).elim
  · exact absurd (by rw [h.isOwn.1,h'.isOwn.1]) differ

end Calls

/-- A name that is called for again is called for by two pairs. -/
theorem Repeated.calls {full : Text} {T : List Entry} {source : Text} {v : Vocabulary}
    {name : Span} (x : Outline full T) (h : Repeated T source v name) : ∃ pair leaf, pair ≠ leaf ∧
      Calls T source v name (.nonTerminal .attVal,pair) ∧
      Calls T source v name (.nonTerminal .attVal,leaf) := by
  obtain @⟨lt,pair,own,ownText,openPair,notLeaf,isOwn,first,hasOwn,known⟩ := h
  obtain ⟨leaf,isLeaf,within,contains⟩ :=
    x.exists_leafPair openPair.matched first.matched first.inside
  have openLeaf := Outline.OpenPair.inner x openPair isLeaf.matched within
  have firstInLeaf : FirstIn T leaf name := by
    refine ⟨first.matched,contains,fun other isOther inLeaf => first.first other isOther ?_⟩
    simp only [Span.contains_iff] at within inLeaf ⊢
    omega
  refine ⟨pair,leaf,fun same => notLeaf (same ▸ isLeaf),?_,?_⟩
  · exact .openPair openPair isOwn first hasOwn known
  · exact .openPair openLeaf isOwn firstInLeaf hasOwn known

end CorpusQuery
