import CorpusQuery.Proofs.Places
import CorpusQuery.Proofs.Repetition
import CorpusQuery.Proofs.Spans

/-! What a layout does not depend on. Decorations that meet only where they are equal may be asked for in
any order, and a further chunk behind all of them is shown after what was shown without it. -/
namespace CorpusQuery

namespace Layout

variable {chunks : List Chunk} {last : Chunk} {decorations decorations' : List Decoration}

/-- Whatever begins in one gap is the same, and so is whatever ends there. -/
structure Unambiguous (chunks : List Chunk) (decorations : List Decoration) : Prop where
  openings : ∀ a ∈ decorations.filterMap (opening? chunks),
    ∀ b ∈ decorations.filterMap (opening? chunks), a.gap = b.gap → a = b
  closings : ∀ a ∈ decorations.filterMap (closing? chunks),
    ∀ b ∈ decorations.filterMap (closing? chunks), a.gap = b.gap → a = b

theorem filter_eq_of_perm {α : Type} {p : α → Bool} {l l' : List α} (perm : l.Perm l')
    (same : ∀ a ∈ l, ∀ b ∈ l, p a = true → p b = true → a = b) : l.filter p = l'.filter p := by
  refine @List.Perm.eq_of_pairwise α (fun _ _ => True) _ _ (fun a b inL inL' _ _ => ?_)
    (List.pairwise_of_forall fun _ _ => trivial) (List.pairwise_of_forall fun _ _ => trivial)
    (perm.filter p)
  rw [List.mem_filter] at inL inL'
  exact same a inL.1 b (perm.mem_iff.mpr inL'.1) inL.2 inL'.2

theorem Unambiguous.layout_eq (h : Unambiguous chunks decorations)
    (perm : decorations.Perm decorations') :
    layout chunks decorations = layout chunks decorations' := by
  have betweens : between chunks decorations = between chunks decorations' := by
    funext gap
    have starts := filter_eq_of_perm (p := fun x => x.gap == gap) (perm.filterMap (opening? chunks))
      fun a inA b inB atA atB =>
        h.openings a inA b inB ((beq_iff_eq.mp atA).trans (beq_iff_eq.mp atB).symm)
    have ends := filter_eq_of_perm (p := fun x => x.gap == gap) (perm.filterMap (closing? chunks))
      fun a inA b inB atA atB =>
        h.closings a inA b inB ((beq_iff_eq.mp atA).trans (beq_iff_eq.mp atB).symm)
    simp only [between,gapMarkup,starts,ends]
  rw [CorpusQuery.layout_eq,CorpusQuery.layout_eq,betweens]

end Layout

def Decoration.Within (n : Nat) : Decoration → Prop
  | .wrap span _ => span.start ≤ n ∧ span.stop ≤ n
  | .lineBreak offset => offset ≤ n

namespace Layout

/-- A chunk that starts at an offset or behind it has no part in what comes before the offset. -/
theorem gapAt_concat (chunks : List Chunk) {offset : Nat} (behind : offset ≤ last.start) :
    gapAt (chunks ++ [last]) offset = gapAt chunks offset := by
  have stays : decide (last.start < offset) = false := decide_eq_false (by omega)
  unfold gapAt
  rw [List.takeWhile_append]
  split
  next all => simp [stays,all]
  next => rfl

theorem between_concat (within : ∀ d ∈ decorations, d.Within last.start) :
    between (chunks ++ [last]) decorations = between chunks decorations := by
  have opening : ∀ d ∈ decorations, opening? (chunks ++ [last]) d = opening? chunks d := by
    intro d member
    have within := within d member
    cases d with
    | wrap span w => simp only [opening?,gapAt_concat chunks within.1]
    | lineBreak offset =>
      simp only [opening?]
      rw [gapAt_concat chunks within]
  have closing : ∀ d ∈ decorations, closing? (chunks ++ [last]) d = closing? chunks d := by
    intro d member
    cases d with
    | wrap span w => simp only [closing?,gapAt_concat chunks (within _ member).2]
    | lineBreak => rfl
  funext gap
  unfold between
  rw [List.filterMap_congr opening,List.filterMap_congr closing]

theorem between_past {gap : Nat} (past : chunks.length < gap) : between chunks decorations gap = [] := by
  have opening : ∀ x ∈ decorations.filterMap (opening? chunks), x.gap ≤ chunks.length := by
    intro x member
    obtain ⟨d,-,opens⟩ := List.mem_filterMap.mp member
    exact gap_opening?_le opens
  have closing : ∀ x ∈ decorations.filterMap (closing? chunks), x.gap ≤ chunks.length := by
    intro x member
    obtain ⟨d,-,closes⟩ := List.mem_filterMap.mp member
    exact gap_closing?_le closes
  have empty {insertions : List Insertion} (all : ∀ x ∈ insertions, x.gap ≤ chunks.length) :
      insertions.filter (fun x => x.gap == gap) = [] := by
    refine List.filter_eq_nil_iff.mpr fun x member same => ?_
    have := all x member
    have := beq_iff_eq.mp same
    omega
  simp only [between,gapMarkup,empty opening,empty closing,List.mergeSort_nil,List.append_nil,
    List.map_nil]

/-- A further chunk behind all decorations is shown after what was shown without it. -/
theorem layout_concat (chunks : List Chunk) (within : ∀ d ∈ decorations, d.Within last.start) :
    layout (chunks ++ [last]) decorations = layout chunks decorations ++ [chunkMarkup last] := by
  have ends : between chunks decorations (chunks.length + 1) = [] := between_past (by omega)
  rw [CorpusQuery.layout_eq,CorpusQuery.layout_eq,between_concat within,body_concat,
    List.length_append,List.length_singleton,ends,List.append_nil]

end Layout

open Layout

/-- Of decorations of names and values, those in one gap are the same when each range has one wrapper. -/
theorem Shown.unambiguous {full : Text} {table : SpanTable} {T : List Entry}
    {decorations : List Decoration} (h : Shown table T) (x : Outline full T)
    (marked : ∀ d ∈ decorations, d.Marks T) (unbroken : ∀ offset, .lineBreak offset ∉ decorations)
    (single : ∀ span u w, .wrap span u ∈ decorations → .wrap span w ∈ decorations → u = w) :
    Unambiguous table.chunks decorations := by
  -- Two ranges are the same or have no gap in common at which both begin or both end.
  have apart {span other : Span} {u w : Wrapper} (inA : .wrap span u ∈ decorations)
      (inB : .wrap other w ∈ decorations) (meet : gapAt table.chunks span.start =
        gapAt table.chunks other.start ∨ gapAt table.chunks span.stop = gapAt table.chunks other.stop) :
      span = other := by
    obtain ⟨r,kind,isRule⟩ := exists_rule (marked _ inA)
    obtain ⟨s,kind',isRule'⟩ := exists_rule (marked _ inB)
    have proper := h.gapAt_lt x kind isRule
    have proper' := h.gapAt_lt x kind' isRule'
    rcases apart x kind isRule kind' isRule' with same | before | after
    · exact same
    · have := gapAt_mono table.chunks before
      omega
    · have := gapAt_mono table.chunks after
      omega
  have wrapper {x : Insertion} (opens : x ∈ decorations.filterMap (opening? table.chunks)) :
      ∃ span w, .wrap span w ∈ decorations ∧ span.isEmpty = false ∧
        x = ⟨gapAt table.chunks span.start,span.length,.opening w⟩ :=
    (mem_openings.mp opens).resolve_right fun ⟨offset,isBreak,_⟩ => unbroken offset isBreak
  constructor
  · intro a isA b isB same
    obtain ⟨span,u,inA,-,rfl⟩ := wrapper isA
    obtain ⟨other,w,inB,-,rfl⟩ := wrapper isB
    obtain rfl := apart inA inB (.inl same)
    rw [single span u w inA inB]
  · intro a isA b isB same
    obtain ⟨span,u,inA,-,rfl⟩ := mem_closings.mp isA
    obtain ⟨other,w,inB,-,rfl⟩ := mem_closings.mp isB
    obtain rfl := apart inA inB (.inr same)
    rfl

namespace SpanTable

theorem chunksFrom_append {source : Text} (more : Text) {covered : Nat} (begun : covered ≤ source.byteLength)
    {entries : List (Span × Terminal)} (within : ∀ x ∈ entries, x.1.stop ≤ source.byteLength)
    (later : List (Span × Terminal)) : ∃ covered', covered' ≤ source.byteLength ∧
      chunksFrom (source ++ more) covered (entries ++ later) =
        chunksFrom source covered entries ++ chunksFrom (source ++ more) covered' later := by
  induction entries generalizing covered with
  | nil => exact ⟨covered,begun,rfl⟩
  | cons x rest ih =>
    obtain ⟨span,kind⟩ := x
    obtain ⟨fits,within⟩ := List.forall_mem_cons.mp within
    have longer : span.stop ≤ (source ++ more).byteLength := by
      rw [Text.byteLength_append]
      exact fits.trans (Nat.le_add_right ..)
    simp only [List.cons_append,chunksFrom,Nat.min_eq_left fits,Nat.min_eq_left longer,
      Text.slice?_append_left fits]
    split
    · split
      · obtain ⟨covered',le,same⟩ := ih fits within
        exact ⟨covered',le,by rw [same,List.cons_append]⟩
      · exact ih begun within
    · exact ih begun within

theorem chunksFrom_last {source piece : Text} (nonempty : piece ≠ []) {covered : Nat}
    (begun : covered ≤ source.byteLength) (kind : Terminal) {later : List (Span × Terminal)}
    (past : ∀ x ∈ later, (source ++ piece).byteLength ≤ x.1.start) :
    chunksFrom (source ++ piece) covered
      ((⟨source.byteLength,(source ++ piece).byteLength⟩,kind) :: later) =
        [⟨source.byteLength,(source ++ piece).byteLength,piece,kind⟩] := by
  have stop : min (source ++ piece).byteLength (source ++ piece ++ []).byteLength =
      (source ++ piece).byteLength := by simp
  have taken := chunksFrom_take ⟨source.byteLength,(source ++ piece).byteLength⟩ kind later nonempty begun
    rfl stop
  rw [List.append_nil,chunksFrom_past past] at taken
  exact taken

end SpanTable

end CorpusQuery
