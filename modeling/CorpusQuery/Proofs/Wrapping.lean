import CorpusQuery.Proofs.PlainText

/-! Which wrappers stand around a text in a layout. Wrappers that are the same or apart are closed
where they end, so around a chunk are just those whose range holds it. -/
namespace CorpusQuery

namespace Markup

/-- The wrappers that are open after marked-up text, the innermost first. -/
def openAfter (open_ : List Wrapper) : Markup → List Wrapper
  | [] => open_
  | .opening w :: rest => openAfter (w :: open_) rest
  | .closing :: rest => openAfter open_.tail rest
  | _ :: rest => openAfter open_ rest

def wrappersAt (open_ : List Wrapper) (offset : Nat) : Markup → List Wrapper
  | [] => []
  | .opening w :: rest => wrappersAt (w :: open_) offset rest
  | .closing :: rest => wrappersAt open_.tail offset rest
  | .lineBreak :: rest => wrappersAt open_ offset rest
  | .styled _ text :: rest | .unrecognized _ text :: rest =>
    if offset < text.byteLength then open_ else wrappersAt open_ (offset - text.byteLength) rest

theorem openAfter_append (open_ : List Wrapper) (m m' : Markup) :
    openAfter open_ (m ++ m') = openAfter (openAfter open_ m) m' := by
  induction m generalizing open_ with
  | nil => rfl
  | cons f rest ih => cases f <;> exact ih _

theorem wrappersAt_append (open_ : List Wrapper) {offset : Nat} {m : Markup} (m' : Markup)
    (shown : (plainText m).byteLength ≤ offset) : wrappersAt open_ offset (m ++ m') =
      wrappersAt (openAfter open_ m) (offset - (plainText m).byteLength) m' := by
  induction m generalizing open_ offset with
  | nil => rfl
  | cons f rest ih =>
    have split : plainText (f :: rest) = fragmentText f ++ plainText rest := rfl
    rw [split,Text.byteLength_append] at shown ⊢
    cases f with
    | styled _ text | unrecognized _ text =>
      have past : ¬offset < text.byteLength := by
        simp only [fragmentText] at shown
        omega
      have inRest : (plainText rest).byteLength ≤ offset - text.byteLength := by
        simp only [fragmentText] at shown
        omega
      have later := ih open_ inRest
      simp only [List.cons_append,wrappersAt,past,if_false,later,openAfter,fragmentText]
      congr 1
      omega
    | opening | closing | lineBreak =>
      simp only [fragmentText,Text.byteLength_nil,Nat.zero_add] at shown ⊢
      exact ih _ shown

theorem wrappersAt_append_of_lt (open_ : List Wrapper) {offset : Nat} {m : Markup} (m' : Markup)
    (shown : offset < (plainText m).byteLength) :
    wrappersAt open_ offset (m ++ m') = wrappersAt open_ offset m := by
  induction m generalizing open_ offset with
  | nil => simp [plainText] at shown
  | cons f rest ih =>
    have split : plainText (f :: rest) = fragmentText f ++ plainText rest := rfl
    rw [split,Text.byteLength_append] at shown
    cases f with
    | styled _ text | unrecognized _ text =>
      simp only [fragmentText] at shown
      simp only [List.cons_append,wrappersAt]
      split
      · rfl
      · exact ih _ (by omega)
    | opening | closing | lineBreak =>
      simp only [fragmentText,Text.byteLength_nil,Nat.zero_add] at shown
      exact ih _ shown

def tooltipsAt (m : Markup) (offset : Nat) : Nat :=
  (wrappersAt [] offset m).countP fun
    | .tooltip _ => true
    | .clickable .. => false

end Markup

namespace Layout

open Markup

/-- The ranges that decorations wrap. Empty ones are not wrapped. -/
def wraps (decorations : List Decoration) : List (Span × Wrapper) :=
  decorations.filterMap fun
    | .wrap span w => if span.isEmpty then none else some (span,w)
    | .lineBreak _ => none

theorem mem_wraps {decorations : List Decoration} {span : Span} {w : Wrapper} :
    (span,w) ∈ wraps decorations ↔ .wrap span w ∈ decorations ∧ span.isEmpty = false := by
  simp only [wraps,List.mem_filterMap]
  constructor
  · rintro ⟨d,member,same⟩
    cases d with
    | wrap span' w' =>
      simp only [Option.ite_none_left_eq_some,Bool.not_eq_true,Option.some.injEq,
        Prod.mk.injEq] at same
      obtain ⟨proper,rfl,rfl⟩ := same
      exact ⟨member,proper⟩
    | lineBreak => cases same
  · rintro ⟨member,proper⟩
    exact ⟨_,member,by simp [proper]⟩

section Gaps

variable (chunks : List Chunk) (decorations : List Decoration)

def begins (gap : Nat) : List (Span × Wrapper) :=
  (wraps decorations).filter fun d => gapAt chunks d.1.start = gap

def ends (gap : Nat) : List (Span × Wrapper) :=
  (wraps decorations).filter fun d => gapAt chunks d.1.stop = gap

/-- The wrappers that begin in a gap or before it and end behind it. -/
def around (gap : Nat) : List (Span × Wrapper) :=
  (wraps decorations).filter fun d => gapAt chunks d.1.start ≤ gap ∧ gap < gapAt chunks d.1.stop

variable {chunks decorations}

theorem openAfter_closings (open_ : List Wrapper) {insertions : List Insertion}
    (closes : ∀ x ∈ insertions, x.fragment = .closing) :
    openAfter open_ (insertions.map Insertion.fragment) = open_.drop insertions.length := by
  induction insertions generalizing open_ with
  | nil => rfl
  | cons x rest ih =>
    have later := ih open_.tail fun y member => closes y (by simp [member])
    rw [List.map_cons,closes x (by simp),openAfter,later,List.drop_tail,List.length_cons]

def Insertion.wrapper? (x : Insertion) : Option Wrapper :=
  match x.fragment with
  | .opening w => some w
  | _ => none

theorem openAfter_openings (open_ : List Wrapper) {insertions : List Insertion}
    (opens : ∀ x ∈ insertions, x.fragment = .lineBreak ∨ ∃ w, x.fragment = .opening w) :
    openAfter open_ (insertions.map Insertion.fragment) =
      (insertions.filterMap Insertion.wrapper?).reverse ++ open_ := by
  induction insertions generalizing open_ with
  | nil => rfl
  | cons x rest ih =>
    have later (open_ : List Wrapper) := ih open_ fun y member => opens y (by simp [member])
    rcases opens x (by simp) with isBreak | ⟨w,isOpening⟩
    · have noWrapper : x.wrapper? = none := by simp [Insertion.wrapper?,isBreak]
      rw [List.map_cons,isBreak,openAfter,later,List.filterMap_cons_none noWrapper]
      all_goals simp
    · have hasWrapper : x.wrapper? = some w := by simp [Insertion.wrapper?,isOpening]
      rw [List.map_cons,isOpening,openAfter,later,List.filterMap_cons_some hasWrapper]
      simp

theorem length_closings (gap : Nat) : ((decorations.filterMap (closing? chunks)).filter
    fun x => x.gap == gap).length = (ends chunks decorations gap).length := by
  induction decorations with
  | nil => rfl
  | cons d rest ih =>
    unfold ends wraps at ih ⊢
    cases d with
    | lineBreak offset =>
      have noClosing : closing? chunks (.lineBreak offset) = none := rfl
      simpa [List.filterMap_cons_none noClosing] using ih
    | wrap span w =>
      by_cases empty : span.isEmpty = true
      · simpa [closing?,empty] using ih
      · by_cases here : gapAt chunks span.stop = gap
        · simpa [closing?,empty,here] using ih
        · simpa [closing?,empty,here] using ih

theorem filterMap_openings (gap : Nat) : ((decorations.filterMap (opening? chunks)).filter
    fun x => x.gap == gap).filterMap Insertion.wrapper? =
      (begins chunks decorations gap).map Prod.snd := by
  induction decorations with
  | nil => rfl
  | cons d rest ih =>
    unfold begins wraps at ih ⊢
    cases d with
    | lineBreak offset =>
      by_cases here : gapAt chunks offset = gap
      · simpa [opening?,here,List.filterMap_cons,Insertion.wrapper?] using ih
      · simpa [opening?,here] using ih
    | wrap span w =>
      by_cases empty : span.isEmpty = true
      · simpa [opening?,empty] using ih
      · by_cases here : gapAt chunks span.start = gap
        · simpa [opening?,empty,here,Insertion.wrapper?] using ih
        · simpa [opening?,empty,here] using ih

theorem openAfter_between (chunks : List Chunk) (decorations : List Decoration)
    (open_ : List Wrapper) (gap : Nat) : ∃ new,
    new.Perm ((begins chunks decorations gap).map Prod.snd) ∧
    openAfter open_ (between chunks decorations gap) =
      new ++ open_.drop (ends chunks decorations gap).length := by
  have closes : ∀ x ∈ decorations.filterMap (closing? chunks), x.fragment = .closing := by
    intro x member
    obtain ⟨span,w,-,-,rfl⟩ := mem_closings.mp member
    rfl
  have opens : ∀ x ∈ decorations.filterMap (opening? chunks),
      x.fragment = .lineBreak ∨ ∃ w, x.fragment = .opening w := by
    intro x member
    rcases mem_openings.mp member with ⟨span,w,-,-,rfl⟩ | ⟨offset,-,rfl⟩
    · exact .inr ⟨w,rfl⟩
    · exact .inl rfl
  unfold between gapMarkup
  rw [List.map_append,openAfter_append,
    openAfter_closings _ fun x member => closes x (List.mem_filter.mp (List.mem_mergeSort.mp member)).1,
    openAfter_openings _ fun x member => opens x (List.mem_filter.mp (List.mem_mergeSort.mp member)).1]
  refine ⟨_,?_,by rw [List.length_mergeSort,length_closings]⟩
  rw [← filterMap_openings]
  exact (List.reverse_perm _).trans ((List.mergeSort_perm ..).filterMap _)

/-- Every wrapper ends behind the gap in which it begins, and two of them have the same gaps or lie
one before the other. -/
structure Separate (chunks : List Chunk) (decorations : List Decoration) : Prop where
  proper : ∀ d ∈ wraps decorations, gapAt chunks d.1.start < gapAt chunks d.1.stop
  apart : ∀ d ∈ wraps decorations, ∀ e ∈ wraps decorations,
    gapAt chunks d.1.start = gapAt chunks e.1.start ∧
      gapAt chunks d.1.stop = gapAt chunks e.1.stop ∨
    gapAt chunks d.1.stop ≤ gapAt chunks e.1.start ∨ gapAt chunks e.1.stop ≤ gapAt chunks d.1.start

/-- From one gap to the next, wrappers end all together or not at all. -/
theorem Separate.step (h : Separate chunks decorations) (gap : Nat) {open_ new : List Wrapper}
    (before : open_.Perm ((around chunks decorations gap).map Prod.snd))
    (begun : new.Perm ((begins chunks decorations (gap + 1)).map Prod.snd)) :
    (new ++ open_.drop (ends chunks decorations (gap + 1)).length).Perm
      ((around chunks decorations (gap + 1)).map Prod.snd) := by
  by_cases empty : ends chunks decorations (gap + 1) = []
  · -- What was open stays open.
    rw [empty,List.length_nil,List.drop_zero]
    refine (begun.append before).trans ?_
    rw [← List.map_append]
    refine List.Perm.map _ (List.Perm.trans (.of_eq ?_) (List.filter_append_perm
      (fun d => gapAt chunks d.1.start = gap + 1) (around chunks decorations (gap + 1))))
    have stays : ∀ d ∈ wraps decorations, gapAt chunks d.1.stop ≠ gap + 1 := by
      simpa [ends,List.filter_eq_nil_iff] using empty
    unfold begins around
    rw [List.filter_filter,List.filter_filter]
    congr 1
    · refine List.filter_congr fun d member => ?_
      have := h.proper d member
      simp only [← Bool.decide_and,decide_eq_decide]
      omega
    · refine List.filter_congr fun d member => ?_
      have := stays d member
      simp only [← Bool.decide_and,← decide_not,decide_eq_decide]
      omega
  · -- What was open has the range of a wrapper that ends, so it ends as well.
    obtain ⟨last,isLast⟩ := List.exists_mem_of_ne_nil _ empty
    obtain ⟨isWrap,atGap⟩ := List.mem_filter.mp isLast
    have allEnd : ∀ d ∈ wraps decorations, gapAt chunks d.1.start ≤ gap →
        gap < gapAt chunks d.1.stop → gapAt chunks d.1.stop = gap + 1 := by
      intro d member begun ends
      have := h.apart d member last isWrap
      have := h.proper last isWrap
      simp only [decide_eq_true_eq] at atGap
      omega
    have same : around chunks decorations gap = ends chunks decorations (gap + 1) := by
      refine List.filter_congr fun d member => ?_
      have := h.proper d member
      have := allEnd d member
      simp only [decide_eq_decide]
      omega
    have length := before.length_eq
    rw [List.length_map,same] at length
    rw [← length,List.drop_length,List.append_nil]
    refine begun.trans (.of_eq (congrArg _ (List.filter_congr fun d member => ?_)))
    have := h.proper d member
    have := allEnd d member
    simp only [decide_eq_decide]
    omega

/-- In front of a chunk, the wrappers that are open are those whose range holds it. -/
theorem Separate.openAfter_body (h : Separate chunks decorations) (front : List Chunk) :
    (openAfter [] (body (between chunks decorations) front ++
      between chunks decorations front.length)).Perm
        ((around chunks decorations front.length).map Prod.snd) := by
  induction front using List.reverseRecOn with
  | nil =>
    obtain ⟨new,begun,same⟩ := openAfter_between chunks decorations [] 0
    change (openAfter [] (between chunks decorations 0)).Perm _
    rw [same,List.drop_nil,List.append_nil]
    refine begun.trans (.of_eq (congrArg _ (List.filter_congr fun d member => ?_)))
    have := h.proper d member
    simp only [decide_eq_decide,List.length_nil]
    omega
  | append_singleton front chunk ih =>
    obtain ⟨new,begun,same⟩ := openAfter_between chunks decorations (openAfter []
      (body (between chunks decorations) front ++ between chunks decorations front.length))
      (front.length + 1)
    rw [body_concat,List.length_append,List.length_singleton,openAfter_append,
      openAfter_append _ _ [chunkMarkup chunk]]
    change (openAfter (openAfter [] _) (between chunks decorations (front.length + 1))).Perm _
    rw [same]
    exact h.step front.length ih begun

/-- The wrappers round a chunk are those whose range holds it. -/
theorem Separate.wrappersAt_layout (h : Separate chunks decorations) {front back : List Chunk}
    {chunk : Chunk} (split : chunks = front ++ chunk :: back) (nonempty : chunk.text ≠ []) :
    (wrappersAt [] (Text.byteLength (front.flatMap Chunk.text)) (layout chunks decorations)).Perm
      ((around chunks decorations front.length).map Prod.snd) := by
  have pos := (Text.byteLength_eq_zero_iff chunk.text).not.mpr nonempty
  have parts : ∃ rest, layout chunks decorations = (body (between chunks decorations) front ++
      between chunks decorations front.length) ++ chunkMarkup chunk :: rest := by
    obtain ⟨rest,same⟩ := body_append (between chunks decorations) front back chunk
    rw [← split] at same
    exact ⟨rest ++ between chunks decorations chunks.length,by simp [layout_eq,same]⟩
  obtain ⟨rest,parts⟩ := parts
  have shown : plainText (body (between chunks decorations) front ++
      between chunks decorations front.length) = front.flatMap Chunk.text := by
    rw [plainText_append,plainText_between,List.append_nil,
      plainText_body (plainText_between chunks decorations)]
  rw [parts,wrappersAt_append [] _ (Nat.le_of_eq (congrArg Text.byteLength shown)),shown,Nat.sub_self]
  change (if 0 < chunk.text.byteLength then _ else _ : List Wrapper).Perm _
  rw [if_pos (by omega)]
  exact h.openAfter_body front

end Gaps

end Layout

end CorpusQuery
