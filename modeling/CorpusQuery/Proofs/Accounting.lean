import CorpusQuery.Proofs.Callers
import CorpusQuery.Proofs.Reporting
import Mathlib.Data.Finset.Card

/-! The tooltips round a name are as many as the symbols that call for one. Each symbol is visited
once; the pairs of a closed structure are claimed by it before they are visited themselves. -/
namespace CorpusQuery

def Decoration.isTooltip (name : Span) : Decoration → Bool
  | .wrap span (.tooltip _) => span == name
  | _ => false

namespace Notes

def tooltips (n : Notes) (name : Span) : Nat := n.decorations.countP (·.isTooltip name)

structure Adds (n n' : Notes) (name : Span) (P : Prop) : Prop where
  yes : P → n'.tooltips name = n.tooltips name + 1
  no : ¬P → n'.tooltips name = n.tooltips name

section Counts

variable {n n' n'' : Notes} {name : Span} {P Q : Prop}

theorem Adds.congr (h : n.Adds n' name P) (same : P ↔ Q) : n.Adds n' name Q :=
  ⟨fun q => h.yes (same.mpr q),fun q => h.no fun p => q (same.mp p)⟩

theorem Adds.refl (n : Notes) (name : Span) : n.Adds n name False := ⟨False.elim,fun _ => rfl⟩

theorem Adds.trans (first : n.Adds n' name P) (second : n'.Adds n'' name Q) (apart : P → ¬Q) :
    n.Adds n'' name (P ∨ Q) := by
  by_cases p : P
  · have := first.yes p
    have := second.no (apart p)
    exact ⟨fun _ => by omega,fun neither => absurd (.inl p) neither⟩
  · have := first.no p
    exact ⟨fun either => by have := second.yes (either.resolve_left p); omega,
      fun neither => by have := second.no fun q => neither (.inr q); omega⟩

@[simp] theorem tooltips_handle (n : Notes) (pairs : List Span) :
    (n.handle pairs).tooltips name = n.tooltips name := rfl

@[simp] theorem tooltips_tagValue (n : Notes) (table : SpanTable) (v : Vocabulary) (pair : Span)
    (text : Text) : (n.tagValue table v pair text).tooltips name = n.tooltips name := by
  rcases n.tagValue_eq table v pair text with same | ⟨_,_,_,same⟩ <;> rw [same]
  simp [tooltips,decorate,Decoration.isTooltip]

@[simp] theorem tooltips_wrapLines (n : Notes) (table : SpanTable) (span : Span) :
    (n.wrapLines table span).tooltips name = n.tooltips name := by
  unfold wrapLines
  split
  · rfl
  · simp only [tooltips,List.countP_append]
    rw [Nat.add_assoc,Nat.add_eq_left,Nat.add_eq_zero_iff]
    constructor
    · rw [List.countP_eq_zero]
      intro d member
      simp only [List.mem_filterMap,Option.ite_none_right_eq_some,Option.some.injEq] at member
      obtain ⟨_,-,-,rfl⟩ := member
      simp [Decoration.isTooltip]
    · split <;> simp [Decoration.isTooltip]

theorem adds_check (n : Notes) (known : Bool) (span : Span) (title : String) (p : Problem) :
    n.Adds (n.check known span title p) name (known = true ∧ span = name) := by
  cases known with
  | false => exact ⟨fun h => by simp at h,fun _ => rfl⟩
  | true =>
    have one : (n.check true span title p).tooltips name =
        n.tooltips name + if span == name then 1 else 0 := by
      simp [check,decorate,tooltips,Decoration.isTooltip,List.countP_singleton]
    by_cases same : span = name
    · exact ⟨fun _ => by rw [one,if_pos (by simpa using same)],fun differs => absurd ⟨rfl,same⟩ differs⟩
    · exact ⟨fun both => absurd both.2 same,fun _ => by rw [one,if_neg (by simpa using same)]; rfl⟩

end Counts

section Visits

variable {n : Notes} {table : SpanTable} {v : Vocabulary} {w : Wording} {name own found : Span}
  {ownText : Text}

theorem adds_enterStructure (fresh : own ∉ n.openStructures)
    (hasOwn : table.text? own = some ownText) : n.Adds (n.enterStructure v w own ownText) name
      (Known table.source v.hasStructure own ∧ own = name) := by
  have entered : n.Adds { n with openStructures := own :: n.openStructures } name False :=
    ⟨False.elim,fun _ => rfl⟩
  rw [enterStructure,if_neg fresh]
  refine (entered.trans (adds_check _ _ own _ _) False.elim).congr ?_
  constructor
  · rintro (never | ⟨known,same⟩)
    · exact never.elim
    · exact ⟨⟨hasOwn,known⟩,same⟩
  · rintro ⟨⟨hasText,known⟩,same⟩
    obtain rfl := Option.some.inj (hasOwn.symm.trans hasText)
    exact .inr ⟨known,same⟩

theorem adds_structureAttribute : n.Adds (n.structureAttribute table v w ownText found) name
    (Known table.source (v.hasStructureAttribute (String.ofList ownText)) found ∧ found = name) := by
  cases hasText : table.text? found with
  | none =>
    rw [structureAttribute,hasText]
    refine (Adds.refl n name).congr ⟨False.elim,?_⟩
    rintro ⟨⟨isText,-⟩,-⟩
    simp [SpanTable.text?,isText] at hasText
  | some text =>
    rw [structureAttribute_eq hasText]
    refine (adds_check n _ found _ _).congr ⟨fun h => ⟨⟨hasText,h.1⟩,h.2⟩,?_⟩
    rintro ⟨⟨isText,known⟩,same⟩
    obtain rfl := Option.some.inj (hasText.symm.trans isText)
    exact ⟨known,same⟩

theorem adds_structureAttributes {names : List Span} (nodup : names.Nodup) :
    n.Adds (n.structureAttributes table v w ownText names) name
      (Known table.source (v.hasStructureAttribute (String.ofList ownText)) name ∧ name ∈ names) := by
  induction names using List.reverseRecOn with
  | nil => exact (Adds.refl n name).congr (by simp)
  | append_singleton names last ih =>
    obtain ⟨nodup,-,apart⟩ := List.nodup_append.mp nodup
    rw [structureAttributes_append]
    refine ((ih nodup).trans adds_structureAttribute ?_).congr ?_
    · rintro ⟨-,member⟩ ⟨-,rfl⟩
      exact apart _ member _ (by simp) rfl
    · simp only [List.mem_append,List.mem_singleton]
      constructor
      · rintro (⟨known,member⟩ | ⟨known,rfl⟩)
        · exact ⟨known,.inl member⟩
        · exact ⟨known,.inr rfl⟩
      · rintro ⟨known,member | rfl⟩
        · exact .inl ⟨known,member⟩
        · exact .inr ⟨known,rfl⟩

theorem enterStructure_handle (n : Notes) (pairs : List Span) :
    (n.handle pairs).enterStructure v w own ownText =
      (n.enterStructure v w own ownText).handle pairs := by
  by_cases seen : own ∈ n.openStructures
  · simp [enterStructure,seen]
  · simp only [enterStructure,openStructures_handle,seen,if_false,structureName,check]
    split <;> rfl

end Visits

/-- The symbols among those that call for tooltips of which the visit is over: pairs are handled,
names of open structures entered, and closed structures are among the symbols before. -/
def Visited (n : Notes) (before : List (NonTerminal × Span)) : Entry → Prop
  | (.nonTerminal .attVal,pair) => pair ∈ n.handled
  | (.nonTerminal .attName,own) => own ∈ n.openStructures
  | (.nonTerminal .structureTag,span) => (.structureTag,span) ∈ before
  | _ => False

/-- After a visit of the symbols before, a name has a tooltip for each visited symbol that calls for
one, and the pairs of closed structures are claimed. -/
structure Accounts (n : Notes) (T : List Entry) (source : Text) (v : Vocabulary) (name : Span)
    (before : List (NonTerminal × Span)) : Prop where
  callers : ∃ callers : List Entry, callers.Nodup ∧ n.tooltips name = callers.length ∧
    ∀ x, x ∈ callers ↔ Calls T source v name x ∧ n.Visited before x
  claimed : ∀ span, (.structureTag,span) ∈ before → ∀ pair, (.nonTerminal .attVal,pair) ∈ T →
    span.strictlyContains pair = true → pair ∈ n.handled

namespace Accounts

variable {n n' : Notes} {T : List Entry} {source : Text} {v : Vocabulary} {name : Span}
  {before before' : List (NonTerminal × Span)}

theorem extend (h : n.Accounts T source v name before) (x : Entry) (fresh : ¬n.Visited before x)
    (adds : n.Adds n' name (Calls T source v name x))
    (visited : ∀ y, Calls T source v name y →
      (n'.Visited before' y ↔ y = x ∨ n.Visited before y))
    (claimed : ∀ span, (.structureTag,span) ∈ before' → ∀ pair, (.nonTerminal .attVal,pair) ∈ T →
      span.strictlyContains pair = true → pair ∈ n'.handled) :
    n'.Accounts T source v name before' := by
  refine ⟨?_,claimed⟩
  obtain ⟨callers,nodup,count,mem_callers⟩ := h.callers
  by_cases calls : Calls T source v name x
  · refine ⟨x :: callers,List.nodup_cons.mpr ⟨fun old => fresh ((mem_callers x).mp old).2,nodup⟩,?_,
      fun y => ?_⟩
    · rw [adds.yes calls,count,List.length_cons]
    · rw [List.mem_cons,mem_callers y]
      constructor
      · rintro (rfl | ⟨calls',old⟩)
        · exact ⟨calls,(visited y calls).mpr (.inl rfl)⟩
        · exact ⟨calls',(visited y calls').mpr (.inr old)⟩
      · rintro ⟨calls',isVisited⟩
        exact ((visited y calls').mp isVisited).imp_right fun old => ⟨calls',old⟩
  · refine ⟨callers,nodup,by rw [adds.no calls,count],fun y => ?_⟩
    rw [mem_callers y]
    refine and_congr_right fun calls' => ?_
    rw [visited y calls']
    exact ⟨.inr,fun either => either.resolve_left fun same => calls (same ▸ calls')⟩

theorem keep (h : n.Accounts T source v name before) (count : n'.tooltips name = n.tooltips name)
    (handled : n'.handled = n.handled) (entered : n'.openStructures = n.openStructures)
    (same : ∀ span, (.structureTag,span) ∈ before' ↔ (.structureTag,span) ∈ before) :
    n'.Accounts T source v name before' where
  callers := by
    obtain ⟨callers,nodup,old,mem_callers⟩ := h.callers
    refine ⟨callers,nodup,count.trans old,fun x => ?_⟩
    rw [mem_callers x]
    unfold Visited
    rw [handled,entered]
    simp only [same]
  claimed span isBefore pair isPair holds :=
    handled ▸ h.claimed span ((same span).mp isBefore) pair isPair holds

theorem handlePair {pair : Span} (h : n.Accounts T source v name before) (fresh : pair ∉ n.handled)
    (adds : n.Adds n' name (Calls T source v name (.nonTerminal .attVal,pair)))
    (handled : n'.handled = n.handled ++ [pair]) (entered : n'.openStructures = n.openStructures) :
    n'.Accounts T source v name before := by
  refine h.extend (.nonTerminal .attVal,pair) fresh adds (fun y _ => ?_)
    fun span isBefore other isPair holds => ?_
  · rcases y with ⟨t | r,other⟩
    · simp [Visited]
    · cases r <;> simp [Visited,handled,entered,or_comm]
  · rw [handled]
    exact List.mem_append_left _ (h.claimed span isBefore other isPair holds)

end Accounts

end Notes

namespace Legible

open Notes

variable {table : SpanTable} {T : List Entry} (l : Legible table T) {v : Vocabulary} {w : Wording}
  {n : Notes} {pair name lt own span : Span} {before : List (NonTerminal × Span)}

include l in
theorem firstIn_head (isPair : (.nonTerminal .attVal,pair) ∈ T)
    (head : (table.nested pair .attName).head? = some name) : FirstIn T pair name := by
  obtain ⟨rest,names⟩ := List.head?_eq_some_iff.mp head
  have nested {other : Span} : other ∈ table.nested pair .attName ↔ _ := l.registers.mem_nested
  obtain ⟨isName,holds⟩ := nested.mp (names ▸ List.mem_cons_self)
  have inside := (Span.strictlyContains_iff.mp holds).2
  refine ⟨isName,Span.contains_iff.mpr inside,fun other isOther contains => ?_⟩
  have inNested := nested.mpr ⟨isOther,l.outline.strictlyContains_name isPair isOther contains⟩
  have sorted := Span.pairwise_sort ((table.spansOf .attName).filter pair.strictlyContains)
  change (table.nested pair .attName).Pairwise _ at sorted
  rw [names] at inNested sorted
  rcases List.mem_cons.mp inNested with rfl | later
  · exact Nat.le_refl _
  · have notBefore := (List.pairwise_cons.mp sorted).1 other later
    rw [Span.lt_iff] at notBefore
    omega

include l in
theorem attributePair_accounts (h : n.Accounts T table.source v name before)
    (isName : (.nonTerminal .attName,name) ∈ T) (isPair : (.nonTerminal .attVal,pair) ∈ T)
    (plain : ∀ lt, ¬OpenedAt T lt pair) :
    (n.attributePair table v w pair).Accounts T table.source v name before := by
  by_cases handled : pair ∈ n.handled
  · rwa [attributePair_of_handled handled]
  have fresh : ¬n.Visited before (.nonTerminal .attVal,pair) := handled
  by_cases leaf : LeafPair T pair
  · obtain ⟨found,isFound,contains⟩ := l.outline.exists_name_in isPair
    obtain ⟨text,hasText⟩ := l.exists_text found isFound
    rw [l.attributePair_of_leaf v w handled leaf isFound contains hasText]
    generalize result : Notes.tagValue _ _ _ _ _ = n'
    have adds : n.Adds n' name (Calls T table.source v name (.nonTerminal .attVal,pair)) := by
      have checked : Adds _ _ name _ := adds_check (n.handle [pair])
        (v.hasAttribute (String.ofList text)) found w.attributeName (.noAttribute text)
      have added : n.Adds n' name (v.hasAttribute (String.ofList text) = true ∧ found = name) :=
        ⟨fun p => by simpa [← result] using checked.yes p,
          fun p => by simpa [← result] using checked.no p⟩
      refine added.congr ⟨?_,fun calls => ?_⟩
      · rintro ⟨known,rfl⟩
        exact .plainPair leaf plain contains ⟨hasText,known⟩
      · cases calls with
        | plainPair _ _ holds known =>
          obtain rfl := l.outline.name_unique leaf isFound contains isName holds
          obtain ⟨hasText',known⟩ := known
          obtain rfl := Option.some.inj (hasText.symm.trans hasText')
          exact ⟨known,rfl⟩
        | openPair openPair => exact absurd openPair.opened (plain _)
    exact h.handlePair handled adds (by simp [← result]) (by simp [← result])
  · rw [l.attributePair_of_not_leaf v w handled isPair leaf]
    have uncalled : ¬Calls T table.source v name (.nonTerminal .attVal,pair) := by
      intro calls
      cases calls with
      | plainPair isLeaf => exact leaf isLeaf
      | openPair openPair => exact plain _ openPair.opened
    exact h.handlePair handled ⟨fun calls => absurd calls uncalled,fun _ => rfl⟩ rfl rfl

/-- The first pair of an open structure calls for the structure's name. -/
theorem enterStructure_accounts (h : n.Accounts T table.source v name before)
    (openPair : OpenPair T lt pair) (first : FirstName T lt own)
    (hasOwn : table.text? own = some ownText) :
    (n.enterStructure v w own ownText).Accounts T table.source v name before := by
  by_cases seen : own ∈ n.openStructures
  · simpa [enterStructure,seen] using h
  have fresh : ¬n.Visited before (.nonTerminal .attName,own) := seen
  have adds : n.Adds (n.enterStructure v w own ownText) name
      (Calls T table.source v name (.nonTerminal .attName,own)) := by
    refine (adds_enterStructure seen hasOwn).congr ⟨?_,fun calls => ?_⟩
    · rintro ⟨known,rfl⟩
      exact .openName openPair first known
    · cases calls with
      | openName _ _ known => exact ⟨known,rfl⟩
  refine h.extend (.nonTerminal .attName,own) fresh adds (fun y _ => ?_)
    fun span isBefore other isPair holds => ?_
  · rcases y with ⟨t | r,other⟩
    · simp [Visited]
    · cases r <;> simp [Visited,mem_openStructures_enterStructure]
  · rw [handled_enterStructure]
    exact h.claimed span isBefore other isPair holds

include l in
theorem openStructurePair_accounts (h : n.Accounts T table.source v name before)
    (openPair : OpenPair T lt pair) (first : FirstName T lt own) :
    (n.openStructurePair table v w own pair).Accounts T table.source v name before := by
  by_cases handled : pair ∈ n.handled
  · rwa [openStructurePair_of_handled handled]
  obtain ⟨found,isFound,contains,head⟩ := l.exists_first openPair.matched
  obtain ⟨text,hasText⟩ := l.exists_text found isFound
  obtain ⟨ownText,hasOwn⟩ := l.exists_text own first.matched
  rw [openStructurePair_eq handled head hasText hasOwn,enterStructure_handle]
  have entered := enterStructure_accounts (w := w) h openPair first hasOwn
  have fresh : pair ∉ (n.enterStructure v w own ownText).handled := by simpa using handled
  revert entered fresh
  generalize n.enterStructure v w own ownText = m
  intro entered fresh
  have checked : Adds _ _ name _ := adds_check (m.handle [pair]) (v.hasStructureAttribute
    (String.ofList ownText) (String.ofList text)) found w.structureAttribute (.noStructureAttribute text)
  refine entered.handlePair fresh (Adds.congr ⟨checked.yes,checked.no⟩ ⟨?_,fun calls => ?_⟩)
    (by simp) (by simp)
  · rintro ⟨known,rfl⟩
    exact .openPair openPair first (l.firstIn_head openPair.matched head) hasOwn ⟨hasText,known⟩
  · cases calls with
    | plainPair _ plain => exact absurd openPair.opened (plain lt)
    | openPair openPair' first' firstIn hasOwn' known =>
      obtain rfl := l.outline.openedAt_unique openPair.opened openPair'.opened
      obtain rfl := l.outline.firstName_unique first first'
      obtain rfl := l.outline.firstIn_unique (l.firstIn_head openPair.matched head) firstIn
      obtain rfl := Option.some.inj (hasOwn.symm.trans hasOwn')
      obtain ⟨hasText',known⟩ := known
      obtain rfl := Option.some.inj (hasText.symm.trans hasText')
      exact ⟨known,rfl⟩

include l in
/-- A closed structure calls for its own name or for one in its pairs, and claims the pairs. -/
theorem structureTag_accounts (h : n.Accounts T table.source v name before)
    (isName : (.nonTerminal .attName,name) ∈ T)
    (isStructure : (.nonTerminal .structureTag,span) ∈ T) (fresh : (.structureTag,span) ∉ before) :
    (n.structureTag table v w span).Accounts T table.source v name
      (before ++ [(.structureTag,span)]) := by
  obtain ⟨lt,own,shape⟩ := l.outline.shape isStructure
  obtain ⟨others,names,mem_others⟩ := l.names_of_structure shape
  obtain ⟨ownText,hasOwn⟩ := l.exists_text own shape.firstName.matched
  have nodup : (own :: others).Nodup := names ▸ l.registers.nodup_nested
  rw [List.nodup_cons] at nodup
  -- The structure is found from its span.
  have ownIs {lt' own' : Span} (shape' : Shape T span lt' own') : own = own' := by
    obtain rfl := l.outline.opening_unique shape.opens shape'.opens
      (shape.start.trans shape'.start.symm)
    exact l.outline.firstName_unique shape.firstName shape'.firstName
  have adds : n.Adds (n.structureTag table v w span) name
      (Calls T table.source v name (.nonTerminal .structureTag,span)) := by
    rw [structureTag_eq names hasOwn]
    have claims : n.Adds (n.handle (table.nested span .attVal)) name False :=
      ⟨False.elim,fun _ => rfl⟩
    refine ((claims.trans (adds_check _ _ own _ _) False.elim).trans
      (adds_structureAttributes nodup.2) ?_).congr ⟨?_,fun calls => ?_⟩
    · rintro (never | ⟨-,rfl⟩) ⟨-,member⟩
      · exact never
      · exact nodup.1 member
    · rintro ((never | ⟨known,rfl⟩) | ⟨known,member⟩)
      · exact never.elim
      · exact .closedName isStructure shape ⟨hasOwn,known⟩
      · obtain ⟨-,holds,differs⟩ := (mem_others name).mp member
        exact .closedPair isStructure shape holds differs hasOwn known
    · cases calls with
      | closedName _ shape' known =>
        obtain rfl := ownIs shape'
        obtain ⟨hasText,known⟩ := known
        obtain rfl := Option.some.inj (hasOwn.symm.trans hasText)
        exact .inl (.inr ⟨known,rfl⟩)
      | closedPair _ shape' holds differs hasText known =>
        obtain rfl := ownIs shape'
        obtain rfl := Option.some.inj (hasOwn.symm.trans hasText)
        exact .inr ⟨known,(mem_others name).mpr ⟨isName,holds,differs⟩⟩
  have handled := l.mem_handled_structureTag v w n span
  have entered := openStructures_structureTag n table v w span
  refine h.extend (.nonTerminal .structureTag,span) fresh adds (fun y calls => ?_)
    fun other isBefore pair isPair holds => (handled pair).mpr ?_
  · rcases y with ⟨t | r,other⟩
    · simp [Visited]
    cases r with
    | attVal =>
      -- What the structure claims does not call.
      have unclaimed := (calls.inPair l.outline).2.2.1 span isStructure
      simp [Visited,handled,unclaimed]
    | _ => simp [Visited,entered,or_comm]
  · simp only [List.mem_append,List.mem_singleton,Prod.mk.injEq,true_and] at isBefore
    rcases isBefore with old | rfl
    · exact .inl (h.claimed other old pair isPair holds)
    · exact .inr ⟨isPair,holds⟩

include l in
theorem attributePairs_accounts (isName : (.nonTerminal .attName,name) ∈ T) (pairs : List Span)
    (plain : ∀ pair ∈ pairs, (.nonTerminal .attVal,pair) ∈ T ∧ ∀ lt, ¬OpenedAt T lt pair)
    (h : n.Accounts T table.source v name before) :
    (pairs.foldl (attributePair table v w) n).Accounts T table.source v name before := by
  refine List.foldlRecOn (motive := fun m : Notes => m.Accounts T table.source v name before) pairs _
    h ?_
  intro m accounts pair member
  obtain ⟨isPair,notOpened⟩ := plain pair member
  exact l.attributePair_accounts accounts isName isPair notOpened

variable {r : NonTerminal} {o : DecorateOptions}

include l in
/-- One visit keeps the account, when closed structures are visited before the pairs in them. -/
theorem visit_accounts (h : n.Accounts T table.source v name before)
    (isName : (.nonTerminal .attName,name) ∈ T) (member : (.nonTerminal r,span) ∈ T)
    (fresh : (r,span) ∉ before)
    (order : r = .attVal → ∀ outer, (.nonTerminal .structureTag,outer) ∈ T →
      outer.strictlyContains span = true → (.structureTag,outer) ∈ before) :
    (n.visit table v w r span).Accounts T table.source v name (before ++ [(r,span)]) := by
  have goesOn {n' : Notes} (h : n'.Accounts T table.source v name before)
      (other : r ≠ .structureTag) :
      n'.Accounts T table.source v name (before ++ [(r,span)]) :=
    h.keep rfl rfl rfl fun span => by simp [Ne.symm other]
  cases r with
  | position =>
    refine goesOn (l.attributePairs_accounts isName _ (fun pair nested => ?_) h) (by simp)
    obtain ⟨isPair,within⟩ := l.registers.mem_nested.mp nested
    have contains := Span.contains_iff.mpr (Span.strictlyContains_iff.mp within).2
    exact ⟨isPair,fun _ => l.outline.not_openedAt_of_position member isPair contains⟩
  | structureTag => exact l.structureTag_accounts h isName member fresh
  | attVal =>
    refine goesOn ?_ (by simp)
    rcases l.outline.pair_cases member with plain | ⟨lt,own,opened,first,ends⟩
    · have found := l.registers.openStructure?_of_not_openedAt l.outline member plain
      simp only [visit,found]
      exact l.attributePair_accounts h isName member plain
    · have found := l.registers.openStructure?_of_openedAt l.outline member opened first ends
      simp only [visit,found]
      by_cases handled : span ∈ n.handled
      · rwa [openStructurePair_of_handled handled]
      -- A pair that was not claimed lies in no closed structure.
      have unclosed (outer : Span) (isStructure : (.nonTerminal .structureTag,outer) ∈ T) :
          outer.strictlyContains span = false := by
        by_contra holds
        rw [Bool.not_eq_false] at holds
        exact handled (h.claimed outer (order rfl outer isStructure holds) span member holds)
      exact l.openStructurePair_accounts h ⟨member,opened,unclosed⟩ first
  | _ => exact goesOn h (by simp)

include l in
theorem decorateSymbol_accounts (asks : o.vocabulary = some v)
    (h : n.Accounts T table.source v name before) (isName : (.nonTerminal .attName,name) ∈ T)
    (member : (.nonTerminal r,span) ∈ T) (fresh : (r,span) ∉ before)
    (order : r = .attVal → ∀ outer, (.nonTerminal .structureTag,outer) ∈ T →
      outer.strictlyContains span = true → (.structureTag,outer) ∈ before) :
    (table.decorateSymbol o n (r,span)).Accounts T table.source v name (before ++ [(r,span)]) := by
  have visited := l.visit_accounts (w := o.wording) h isName member fresh order
  simp only [SpanTable.decorateSymbol,asks]
  split
  · refine visited.keep (by simp) ?_ ?_ fun _ => Iff.rfl
    all_goals
      unfold Notes.wrapLines
      split <;> rfl
  · exact visited

include l in
theorem foldl_accounts (asks : o.vocabulary = some v) (isName : (.nonTerminal .attName,name) ∈ T)
    (entries : List (NonTerminal × Span))
    (all : before ++ entries = table.nonTerminals.reverse)
    (h : n.Accounts T table.source v name before) :
    (entries.foldl (table.decorateSymbol o) n).Accounts T table.source v name
      table.nonTerminals.reverse := by
  induction entries generalizing n before with
  | nil => simpa [← all] using h
  | cons x rest ih =>
    obtain ⟨r,span⟩ := x
    have nodup : (before ++ (r,span) :: rest).Nodup := all ▸ List.nodup_reverse.mpr l.registers.nodup
    have visited (y : NonTerminal × Span) :
        y ∈ before ++ (r,span) :: rest ↔ (.nonTerminal y.1,y.2) ∈ T := by
      rw [all,List.mem_reverse]
      exact l.registers.rules y.1 y.2
    have ordered := (l.outline.structures_after.sublist l.registers.order)
    rw [← List.pairwise_reverse,← all] at ordered
    have split : (before ++ [(r,span)]) ++ rest = table.nonTerminals.reverse := by simpa using all
    refine ih split ?_
    refine l.decorateSymbol_accounts asks h isName ((visited (r,span)).mp (by simp)) ?_ ?_
    · exact fun old => (List.nodup_append.mp nodup).2.2 _ old _ (by simp) rfl
    · rintro rfl outer isStructure holds
      have member := (visited (.structureTag,outer)).mpr isStructure
      refine (List.mem_append.mp member).resolve_right fun later => ?_
      have inRest := (List.mem_cons.mp later).resolve_left (by simp)
      have after := (List.pairwise_cons.mp (List.pairwise_append.mp ordered).2.1).1 _ inRest
      simp [after rfl rfl] at holds

include l in
/-- A name gets a second tooltip just when it is called for again. -/
theorem one_lt_tooltips_iff (asks : o.vocabulary = some v)
    (isName : (.nonTerminal .attName,name) ∈ T) :
    1 < (table.notes o).tooltips name ↔ Repeated T table.source v name := by
  have start : ({} : Notes).Accounts T table.source v name [] := by
    refine ⟨⟨[],.nil,rfl,fun x => ?_⟩,by simp⟩
    rcases x with ⟨t | r,span⟩
    · simp [Visited]
    · cases r <;> simp [Visited]
  obtain ⟨callers,nodup,count,mem_callers⟩ :=
    (l.foldl_accounts asks isName table.nonTerminals.reverse rfl start).callers
  change (table.notes o).tooltips name = _ at count
  rw [count,← List.toFinset_card_of_nodup nodup,Finset.one_lt_card]
  simp only [List.mem_toFinset]
  constructor
  · rintro ⟨x,isX,y,isY,differ⟩
    exact ((mem_callers x).mp isX).1.repeated l.outline isName ((mem_callers y).mp isY).1 differ
  · intro again
    obtain ⟨pair,leaf,differ,calls,calls'⟩ := again.calls l.outline
    obtain ⟨-,-,checks⟩ := l.foldl_faithful (n := {}) asks table.nonTerminals.reverse
      (fun x => List.mem_reverse.mp) ⟨by simp,by simp,by simp⟩
    have isCaller {pair : Span} (calls : Calls T table.source v name (.nonTerminal .attVal,pair)) :
        (.nonTerminal .attVal,pair) ∈ callers := by
      have visited := (l.registers.rules _ _).mpr (calls.inPair l.outline).1
      exact (mem_callers _).mpr ⟨calls,(checks _ (List.mem_reverse.mpr visited)).pair rfl⟩
    exact ⟨_,isCaller calls,_,isCaller calls',by simpa using differ⟩

end Legible

end CorpusQuery
