import CorpusQuery.Proofs.Visits

/-! The problems of a query are those that the roles of its names call for, in whatever order the
symbols are visited and whichever pairs are closed. -/
namespace CorpusQuery

inductive StructureProblem (source : Text) (v : Vocabulary) (own : Span) : Problem → Prop where
  | missing : source.slice? own.start own.stop = some text →
      v.hasStructure (String.ofList text) = false →
      StructureProblem source v own (.noStructure text)

/-- The problems of a pair: of the name in it, and of the structure in which it stands. -/
inductive PairProblem (T : List Entry) (source : Text) (v : Vocabulary) (pair : Span) :
    Problem → Prop where
  /-- The name of a leaf that is not structural is no attribute. -/
  | noAttribute : LeafPair T pair → (∀ lt, ¬OpenedAt T lt pair) →
      (.nonTerminal .attName,name) ∈ T → pair.contains name = true →
      source.slice? name.start name.stop = some text → v.hasAttribute (String.ofList text) = false →
      PairProblem T source v pair (.noAttribute text)
  /-- The name of a structural leaf is no attribute of the structure. -/
  | noStructureAttribute : LeafPair T pair → OpenedAt T lt pair → FirstName T lt own →
      source.slice? own.start own.stop = some ownText →
      (.nonTerminal .attName,name) ∈ T → pair.contains name = true →
      source.slice? name.start name.stop = some text →
      v.hasStructureAttribute (String.ofList ownText) (String.ofList text) = false →
      PairProblem T source v pair (.noStructureAttribute text)
  /-- The name of the structure is none. -/
  | noStructure : (.nonTerminal .attVal,pair) ∈ T → OpenedAt T lt pair → FirstName T lt own →
      StructureProblem source v own p → PairProblem T source v pair p

/-- The problems of a query whose first pass has matched `T`. -/
inductive Reported (T : List Entry) (source : Text) (v : Vocabulary) : Problem → Prop where
  | pair : PairProblem T source v pair p → Reported T source v p
  /-- A closed structure is checked even when it has no pairs. -/
  | closedStructure : (.nonTerminal .structureTag,span) ∈ T → (.terminal .lt,lt) ∈ T →
      lt.start = span.start → FirstName T lt own → StructureProblem source v own p →
      Reported T source v p

/-- Every name for which a role asks is there, and can be read. -/
structure NamesDetermined (T : List Entry) (source : Text) : Prop where
  leaf : ∀ pair, LeafPair T pair → ∃ name, ((.nonTerminal .attName,name) ∈ T ∧
    pair.contains name = true) ∧ ∀ other, (.nonTerminal .attName,other) ∈ T →
      pair.contains other = true → other = name
  structural : ∀ pair lt, (.nonTerminal .attVal,pair) ∈ T → OpenedAt T lt pair →
    ∃ own, FirstName T lt own
  closedStructure : ∀ span, (.nonTerminal .structureTag,span) ∈ T → ∃ lt own,
    (.terminal .lt,lt) ∈ T ∧ lt.start = span.start ∧ FirstName T lt own
  exists_text : ∀ name, (.nonTerminal .attName,name) ∈ T →
    ∃ text, source.slice? name.start name.stop = some text

/-- Problems that were noted are called for, and what was handled is checked. -/
structure Notes.Faithful (n : Notes) (T : List Entry) (source : Text) (v : Vocabulary) :
    Prop where
  reported : ∀ p ∈ n.problems, Reported T source v p
  handled : ∀ pair ∈ n.handled, ∀ p, PairProblem T source v pair p → p ∈ n.problems
  entered : ∀ own ∈ n.openStructures, ∀ p, StructureProblem source v own p → p ∈ n.problems

structure Notes.Grows (n n' : Notes) : Prop where
  problems : n.problems ⊆ n'.problems
  handled : n.handled ⊆ n'.handled

namespace Notes

theorem Grows.refl (n : Notes) : n.Grows n := ⟨List.Subset.refl _,List.Subset.refl _⟩

theorem Grows.trans {n n' n'' : Notes} (first : n.Grows n') (second : n'.Grows n'') :
    n.Grows n'' := ⟨fun _ h => second.problems (first.problems h),
      fun _ h => second.handled (first.handled h)⟩

theorem Faithful.extend {n n' : Notes} {T : List Entry} {source : Text} {v : Vocabulary}
    (h : n.Faithful T source v) (grows : n.Grows n')
    (reported : ∀ p ∈ n'.problems, p ∈ n.problems ∨ Reported T source v p)
    (handled : ∀ pair ∈ n'.handled, pair ∈ n.handled ∨
      ∀ p, PairProblem T source v pair p → p ∈ n'.problems)
    (entered : ∀ own ∈ n'.openStructures, own ∈ n.openStructures ∨
      ∀ p, StructureProblem source v own p → p ∈ n'.problems) : n'.Faithful T source v where
  reported p noted := (reported p noted).elim (h.reported p) id
  handled pair isHandled := (handled pair isHandled).elim
    (fun old p called => grows.problems (h.handled pair old p called)) id
  entered own isEntered := (entered own isEntered).elim
    (fun old p called => grows.problems (h.entered own old p called)) id

end Notes

namespace Legible

open Notes

variable {table : SpanTable} {T : List Entry} (l : Legible table T) {v : Vocabulary} {w : Wording}
  {n : Notes} {pair name lt own : Span}

include l in
theorem attributePair_faithful (h : n.Faithful T table.source v)
    (isPair : (.nonTerminal .attVal,pair) ∈ T) (unopened : ∀ lt, ¬OpenedAt T lt pair) :
    (n.attributePair table v w pair).Faithful T table.source v ∧
      n.Grows (n.attributePair table v w pair) ∧
      pair ∈ (n.attributePair table v w pair).handled := by
  by_cases handled : pair ∈ n.handled
  · rw [attributePair_of_handled handled]
    exact ⟨h,.refl n,handled⟩
  by_cases leaf : LeafPair T pair
  · obtain ⟨name,isName,contains⟩ := l.outline.exists_name_in isPair
    obtain ⟨text,hasText⟩ := l.exists_text name isName
    rw [l.attributePair_of_leaf v w handled leaf isName contains hasText]
    have grows : n.Grows (((n.handle [pair]).check (v.hasAttribute (String.ofList text)) name
      w.attributeName (.noAttribute text)).tagValue table v pair text) := ⟨by simp,by simp⟩
    refine ⟨h.extend grows (fun p noted => ?_) (fun other isHandled => ?_)
      (fun own isEntered => .inl (by simpa using isEntered)),grows,by simp⟩
    · cases known : v.hasAttribute (String.ofList text) with
      | true => exact .inl (by simpa [known] using noted)
      | false =>
        simp only [problems_tagValue,problems_check,problems_handle,known,List.mem_append,
          Bool.false_eq_true,if_false,List.mem_singleton] at noted
        rcases noted with old | rfl
        · exact .inl old
        · exact .inr (.pair (.noAttribute leaf unopened isName contains hasText known))
    · simp only [handled_tagValue,handled_check,handled_handle,List.mem_append,
        List.mem_singleton] at isHandled
      refine isHandled.imp_right fun same p called => ?_
      subst same
      cases called with
      | noAttribute _ _ isOther holds hasOther unknown =>
        obtain rfl := l.outline.name_unique leaf isName contains isOther holds
        obtain rfl := Option.some.inj (hasText.symm.trans hasOther)
        simp [unknown]
      | noStructureAttribute _ opened | noStructure _ opened => exact absurd opened (unopened _)
  · rw [l.attributePair_of_not_leaf v w handled isPair leaf]
    have grows : n.Grows (n.handle [pair]) := ⟨by simp,by simp⟩
    refine ⟨h.extend grows (fun _ => .inl) (fun other isHandled => ?_) (fun _ => .inl),grows,by simp⟩
    simp only [handled_handle,List.mem_append,List.mem_singleton] at isHandled
    refine isHandled.imp_right fun same p called => ?_
    subst same
    cases called with
    | noAttribute isLeaf | noStructureAttribute isLeaf => exact absurd isLeaf leaf
    | noStructure _ opened => exact absurd opened (unopened _)

include l in
theorem openStructurePair_faithful (h : n.Faithful T table.source v)
    (isPair : (.nonTerminal .attVal,pair) ∈ T) (opened : OpenedAt T lt pair)
    (first : FirstName T lt own) :
    (n.openStructurePair table v w own pair).Faithful T table.source v ∧
      n.Grows (n.openStructurePair table v w own pair) ∧
      pair ∈ (n.openStructurePair table v w own pair).handled := by
  by_cases handled : pair ∈ n.handled
  · rw [openStructurePair_of_handled handled]
    exact ⟨h,.refl n,handled⟩
  obtain ⟨name,isName,contains,head⟩ := l.exists_first isPair
  obtain ⟨text,hasText⟩ := l.exists_text name isName
  obtain ⟨ownText,hasOwn⟩ := l.exists_text own first.matched
  have same := openStructurePair_eq (v := v) (w := w) handled head hasText hasOwn
  have noted := fun p => mem_problems_openStructurePair (v := v) (w := w) (p := p) handled head
    hasText hasOwn
  generalize n.openStructurePair table v w own pair = n' at same noted ⊢
  have isHandled (other : Span) : other ∈ n'.handled ↔ other ∈ n.handled ∨ other = pair := by
    simp [same]
  have isEntered (other : Span) : other ∈ n'.openStructures ↔
      other = own ∨ other ∈ n.openStructures := by
    simp [same,mem_openStructures_enterStructure]
  have grows : n.Grows n' := ⟨fun p old => (noted p).mpr (.inl old),
    fun other old => (isHandled other).mpr (.inl old)⟩
  -- The structure's name is checked here, or was when the structure was entered.
  have structure_ (p : Problem) (called : StructureProblem table.source v own p) :
      p ∈ n'.problems := by
    by_cases seen : own ∈ n.openStructures
    · exact grows.problems (h.entered own seen p called)
    · cases called with
      | missing hasOther unknown =>
        obtain rfl := Option.some.inj (hasOwn.symm.trans hasOther)
        exact (noted _).mpr (.inr (.inl ⟨seen,unknown,rfl⟩))
  refine ⟨h.extend grows (fun p isNoted => ?_) (fun other handled => ?_) fun other entered => ?_,
    grows,(isHandled pair).mpr (.inr rfl)⟩
  · rcases (noted p).mp isNoted with old | ⟨-,unknown,rfl⟩ | ⟨unknown,rfl⟩
    · exact .inl old
    · exact .inr (.pair (.noStructure isPair opened first (.missing hasOwn unknown)))
    · obtain ⟨leaf,isLeaf,within,holds⟩ := l.outline.exists_leafPair isPair isName contains
      have leafOpened := (l.outline.openedAt_iff isPair isLeaf.matched within).mpr opened
      exact .inr (.pair (.noStructureAttribute isLeaf leafOpened first hasOwn isName holds hasText
        unknown))
  · refine ((isHandled other).mp handled).imp_right fun same p called => ?_
    subst same
    cases called with
    | noAttribute _ unopened => exact absurd opened (unopened lt)
    | noStructureAttribute isLeaf opened' first' hasOwn' isOther holds hasOther unknown =>
      obtain rfl := l.outline.openedAt_unique opened opened'
      obtain rfl := l.outline.firstName_unique first first'
      obtain rfl := l.outline.name_unique isLeaf isName contains isOther holds
      obtain rfl := Option.some.inj (hasOwn.symm.trans hasOwn')
      obtain rfl := Option.some.inj (hasText.symm.trans hasOther)
      exact (noted _).mpr (.inr (.inr ⟨unknown,rfl⟩))
    | noStructure _ opened' first' called =>
      obtain rfl := l.outline.openedAt_unique opened opened'
      obtain rfl := l.outline.firstName_unique first first'
      exact structure_ _ called
  · rcases (isEntered other).mp entered with rfl | old
    · exact .inr structure_
    · exact .inl old

include l in
theorem structureTag_faithful {span : Span} (h : n.Faithful T table.source v)
    (isStructure : (.nonTerminal .structureTag,span) ∈ T) :
    (n.structureTag table v w span).Faithful T table.source v ∧
      n.Grows (n.structureTag table v w span) ∧
      ∀ lt own, (.terminal .lt,lt) ∈ T → lt.start = span.start → FirstName T lt own →
        ∀ p, StructureProblem table.source v own p →
          p ∈ (n.structureTag table v w span).problems := by
  obtain ⟨lt,own,shape⟩ := l.outline.shape isStructure
  obtain ⟨others,names,mem_others⟩ := l.names_of_structure shape
  obtain ⟨ownText,hasOwn⟩ := l.exists_text own shape.firstName.matched
  have noted := fun p => mem_problems_structureTag (n := n) (v := v) (w := w) (p := p) names hasOwn
  have isHandled := l.mem_handled_structureTag v w n span
  have isEntered := openStructures_structureTag n table v w span
  generalize n.structureTag table v w span = n' at noted isHandled isEntered ⊢
  have grows : n.Grows n' := ⟨fun p old => (noted p).mpr (.inl (.inl old)),
    fun other old => (isHandled other).mpr (.inl old)⟩
  have structure_ (p : Problem) (called : StructureProblem table.source v own p) :
      p ∈ n'.problems := by
    cases called with
    | missing hasOther unknown =>
      obtain rfl := Option.some.inj (hasOwn.symm.trans hasOther)
      exact (noted _).mpr (.inl (.inr ⟨unknown,rfl⟩))
  refine ⟨h.extend grows (fun p isNoted => ?_) (fun pair handled => ?_) fun other entered => ?_,
    grows,fun lt' own' opens start first p called => ?_⟩
  · rcases (noted p).mp isNoted with (old | ⟨unknown,rfl⟩) | ⟨name,isOther,text,hasText,unknown,rfl⟩
    · exact .inl old
    · exact .inr (.closedStructure isStructure shape.opens shape.start shape.firstName
        (.missing hasOwn unknown))
    · obtain ⟨isName,holds,differs⟩ := (mem_others name).mp isOther
      obtain ⟨-,pair,isPair,within,contains⟩ := (shape.names name isName holds).resolve_left differs
      obtain ⟨leaf,isLeaf,inPair,contains⟩ := l.outline.exists_leafPair isPair isName contains
      have opened := (l.outline.openedAt_iff isPair isLeaf.matched inPair).mpr
        (shape.pairs pair isPair within)
      exact .inr (.pair (.noStructureAttribute isLeaf opened shape.firstName hasOwn isName contains
        hasText unknown))
  · refine ((isHandled pair).mp handled).imp_right fun nested p called => ?_
    obtain ⟨isPair,within⟩ := nested
    have opened := shape.pairs pair isPair within
    cases called with
    | noAttribute _ unopened => exact absurd opened (unopened lt)
    | @noStructureAttribute _ _ _ name text isLeaf opened' first hasOwn' isName contains hasText
        unknown =>
      obtain rfl := l.outline.openedAt_unique opened opened'
      obtain rfl := l.outline.firstName_unique shape.firstName first
      obtain rfl := Option.some.inj (hasOwn.symm.trans hasOwn')
      have differs := l.outline.ne_own isPair opened shape.firstName isName contains
      have inStructure := Span.strictlyContains_of_contains within contains
      exact (noted _).mpr (.inr ⟨name,(mem_others name).mpr ⟨isName,inStructure,differs⟩,text,
        hasText,unknown,rfl⟩)
    | noStructure _ opened' first called =>
      obtain rfl := l.outline.openedAt_unique opened opened'
      obtain rfl := l.outline.firstName_unique shape.firstName first
      exact structure_ _ called
  · exact .inl (isEntered ▸ entered)
  · obtain rfl := l.outline.opening_unique opens shape.opens (start.trans shape.start.symm)
    obtain rfl := l.outline.firstName_unique shape.firstName first
    exact structure_ p called

include l in
theorem attributePairs_faithful (pairs : List Span)
    (plain : ∀ pair ∈ pairs, (.nonTerminal .attVal,pair) ∈ T ∧ ∀ lt, ¬OpenedAt T lt pair)
    (h : n.Faithful T table.source v) :
    (pairs.foldl (attributePair table v w) n).Faithful T table.source v ∧
      n.Grows (pairs.foldl (attributePair table v w) n) := by
  refine List.foldlRecOn (motive := fun m : Notes => m.Faithful T table.source v ∧ n.Grows m) pairs _
    ⟨h,.refl n⟩ ?_
  rintro m ⟨faithful,grows⟩ pair member
  obtain ⟨isPair,notOpened⟩ := plain pair member
  obtain ⟨faithful,more,-⟩ := l.attributePair_faithful (w := w) faithful isPair notOpened
  exact ⟨faithful,grows.trans more⟩

end Legible

structure Notes.Checks (n : Notes) (T : List Entry) (source : Text) (v : Vocabulary)
    (r : NonTerminal) (span : Span) : Prop where
  pair : r = .attVal → span ∈ n.handled
  structureTag : r = .structureTag → ∀ lt own, (.terminal .lt,lt) ∈ T → lt.start = span.start →
    FirstName T lt own → ∀ p, StructureProblem source v own p → p ∈ n.problems

theorem Notes.Checks.mono {n n' : Notes} {T : List Entry} {source : Text} {v : Vocabulary}
    {r : NonTerminal} {span : Span} (h : n.Checks T source v r span) (grows : n.Grows n') :
    n'.Checks T source v r span where
  pair same := grows.handled (h.pair same)
  structureTag same lt own opens start first p called :=
    grows.problems (h.structureTag same lt own opens start first p called)

namespace Legible

open Notes

variable {table : SpanTable} {T : List Entry} (l : Legible table T) {v : Vocabulary} {w : Wording}
  {n : Notes} {r : NonTerminal} {span : Span}

include l in
/-- One visit keeps notes faithful and checks what it visits. -/
theorem visit_faithful (h : n.Faithful T table.source v) (member : (.nonTerminal r,span) ∈ T) :
    (n.visit table v w r span).Faithful T table.source v ∧ n.Grows (n.visit table v w r span) ∧
      (n.visit table v w r span).Checks T table.source v r span := by
  cases r with
  | position =>
    have plain (pair : Span) (nested : pair ∈ table.nested span .attVal) :
        (.nonTerminal .attVal,pair) ∈ T ∧ ∀ lt, ¬OpenedAt T lt pair := by
      obtain ⟨isPair,within⟩ := l.registers.mem_nested.mp nested
      have contains := Span.contains_iff.mpr (Span.strictlyContains_iff.mp within).2
      exact ⟨isPair,fun _ => l.outline.not_openedAt_of_position member isPair contains⟩
    obtain ⟨faithful,grows⟩ := l.attributePairs_faithful (w := w) _ plain h
    exact ⟨faithful,grows,⟨by simp,by simp⟩⟩
  | structureTag =>
    obtain ⟨faithful,grows,checks⟩ := l.structureTag_faithful (w := w) h member
    exact ⟨faithful,grows,⟨by simp,fun _ => checks⟩⟩
  | attVal =>
    rcases l.outline.pair_cases member with unopened | ⟨lt,own,opened,first,ends⟩
    · have found := l.registers.openStructure?_of_not_openedAt l.outline member unopened
      obtain ⟨faithful,grows,checks⟩ := l.attributePair_faithful (w := w) h member unopened
      simp only [visit,found]
      exact ⟨faithful,grows,⟨fun _ => checks,by simp⟩⟩
    · have found := l.registers.openStructure?_of_openedAt l.outline member opened first ends
      obtain ⟨faithful,grows,checks⟩ := l.openStructurePair_faithful (w := w) h member opened first
      simp only [visit,found]
      exact ⟨faithful,grows,⟨fun _ => checks,by simp⟩⟩
  | _ => exact ⟨h,.refl n,⟨by simp,by simp⟩⟩

variable {o : DecorateOptions}

include l in
theorem decorateSymbol_faithful (asks : o.vocabulary = some v) (h : n.Faithful T table.source v)
    (member : (r,span) ∈ table.nonTerminals) :
    (table.decorateSymbol o n (r,span)).Faithful T table.source v ∧
      n.Grows (table.decorateSymbol o n (r,span)) ∧
      (table.decorateSymbol o n (r,span)).Checks T table.source v r span := by
  obtain ⟨faithful,grows,checks⟩ :=
    l.visit_faithful (w := o.wording) h ((l.registers.rules r span).mp member)
  have breaks (n : Notes) : (n.wrapLines table span).problems = n.problems ∧
      (n.wrapLines table span).handled = n.handled ∧
      (n.wrapLines table span).openStructures = n.openStructures := by
    unfold Notes.wrapLines
    split <;> exact ⟨rfl,rfl,rfl⟩
  simp only [SpanTable.decorateSymbol,asks]
  split
  · obtain ⟨problems,handled,openStructures⟩ := breaks (n.visit table v o.wording r span)
    refine ⟨⟨?_,?_,?_⟩,⟨?_,?_⟩,⟨?_,?_⟩⟩
    · rw [problems]; exact faithful.reported
    · rw [problems,handled]; exact faithful.handled
    · rw [problems,openStructures]; exact faithful.entered
    · rw [problems]; exact grows.problems
    · rw [handled]; exact grows.handled
    · rw [handled]; exact checks.pair
    · rw [problems]; exact checks.structureTag
  · exact ⟨faithful,grows,checks⟩

include l in
/-- Visits of symbols in any order keep notes faithful and check what they visit. -/
theorem foldl_faithful (asks : o.vocabulary = some v) (entries : List (NonTerminal × Span))
    (known : ∀ x ∈ entries, x ∈ table.nonTerminals) (h : n.Faithful T table.source v) :
    (entries.foldl (table.decorateSymbol o) n).Faithful T table.source v ∧
      n.Grows (entries.foldl (table.decorateSymbol o) n) ∧
      ∀ x ∈ entries, (entries.foldl (table.decorateSymbol o) n).Checks T table.source v x.1 x.2 := by
  induction entries generalizing n with
  | nil => exact ⟨h,.refl n,by simp⟩
  | cons x rest ih =>
    obtain ⟨faithful,grows,checks⟩ := l.decorateSymbol_faithful asks h (known x (by simp))
    obtain ⟨faithful,later,all⟩ := ih (fun y member => known y (by simp [member])) faithful
    refine ⟨faithful,grows.trans later,fun y member => ?_⟩
    rcases List.mem_cons.mp member with rfl | inRest
    · exact checks.mono later
    · exact all y inRest

theorem isPair_of_problem {pair : Span} {p : Problem} {source : Text}
    (called : PairProblem T source v pair p) : (.nonTerminal .attVal,pair) ∈ T := by
  cases called with
  | noAttribute leaf | noStructureAttribute leaf => exact leaf.matched
  | noStructure isPair => exact isPair

include l in
/-- The problems that are noted are those that the roles of the names call for. -/
theorem mem_problems_iff (asks : o.vocabulary = some v) (p : Problem) :
    p ∈ (table.notes o).problems ↔ Reported T table.source v p := by
  have start : ({} : Notes).Faithful T table.source v := ⟨by simp,by simp,by simp⟩
  obtain ⟨faithful,-,checks⟩ := l.foldl_faithful asks
    table.nonTerminals.reverse (fun x => List.mem_reverse.mp) start
  refine ⟨faithful.reported p,fun called => ?_⟩
  cases called with
  | pair called =>
    have visited := (l.registers.rules _ _).mpr (isPair_of_problem called)
    exact faithful.handled _ ((checks _ (List.mem_reverse.mpr visited)).pair rfl) p called
  | closedStructure isStructure opens start first called =>
    have visited := (l.registers.rules _ _).mpr isStructure
    exact (checks _ (List.mem_reverse.mpr visited)).structureTag rfl _ _ opens start first p called

end Legible

end CorpusQuery
