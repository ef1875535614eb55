import CorpusQuery.Proofs.Breaking
import CorpusQuery.Proofs.Laminarity
import Mathlib.Data.List.Perm.Basic

/-! Where a query is to be broken into lines. The positions of a sequence are counted in the order of the
text. Sequences that lie in no other lie apart, so each has breaks of its own, and no two are the same. -/
namespace CorpusQuery

/-- In a list in ascending order, an element has as many others before it as are less. -/
theorem List.zipIdx_eq_map_countP {α : Type} {f : α → Nat} {l : List α}
    (ascending : l.Pairwise fun a b => f a < f b) (k : Nat) :
    l.zipIdx k = l.map fun x => (x,k + l.countP (f · < f x)) := by
  induction l generalizing k with
  | nil => rfl
  | cons a rest ih =>
    obtain ⟨least,ascending⟩ := List.pairwise_cons.mp ascending
    have first : (a :: rest).countP (f · < f a) = 0 := by
      rw [List.countP_eq_zero]
      intro b member
      rcases List.mem_cons.mp member with rfl | later
      · simp
      · simpa using (least b later).le
    rw [List.zipIdx_cons,List.map_cons,first,ih ascending]
    refine congrArg _ (List.map_congr_left fun x member => ?_)
    rw [List.countP_cons_of_pos (by simpa using least x member),Nat.add_assoc,Nat.add_comm 1]

namespace SpanTable

def positionsIn (table : SpanTable) (span : Span) : List Span :=
  (table.spansOf .position).filter span.contains

/-- The rank of a position in the order of the text: how many positions of its sequence begin before it. -/
def rankIn (table : SpanTable) (span position : Span) : Nat :=
  (table.positionsIn span).countP (·.start < position.start)

/-- A sequence is broken before every third position but the first, and at its end when the text goes
on behind it. -/
def lineBreaksIn (table : SpanTable) (span : Span) : List Nat :=
  ((table.positionsIn span).filter fun position =>
    0 < table.rankIn span position ∧ table.rankIn span position % 3 = 0).map (·.start) ++
    if span.stop < table.source.byteLength then [span.stop] else []

def outerSequences (table : SpanTable) : List Span :=
  (table.spansOf .sequence).filter fun span =>
    !(table.spansOf .sequence).any (·.strictlyContains span)

/-- Where a text is to be broken into lines. -/
def lineBreaks (table : SpanTable) : List Nat := table.outerSequences.flatMap table.lineBreaksIn

example : lineBreaks { source := "[][][][] ".toList, nonTerminals := [(.position,⟨0,2⟩),
    (.position,⟨2,4⟩),(.position,⟨4,6⟩),(.position,⟨6,8⟩),(.sequence,⟨0,8⟩)] } = [6,8] := by decide

/-- Positions lie apart, and sequences nest. -/
structure Layered (table : SpanTable) : Prop where
  nodup : ∀ r, (table.spansOf r).Nodup
  proper : ∀ r, ∀ span ∈ table.spansOf r, span.start < span.stop
  apart : ∀ p ∈ table.spansOf .position, ∀ q ∈ table.spansOf .position,
    p = q ∨ p.stop ≤ q.start ∨ q.stop ≤ p.start
  laminar : ∀ s ∈ table.spansOf .sequence, ∀ t ∈ table.spansOf .sequence,
    s.stop ≤ t.start ∨ t.stop ≤ s.start ∨ s.contains t = true ∨ t.contains s = true

variable {table : SpanTable} {span p q s t : Span}

theorem mem_positionsIn :
    p ∈ table.positionsIn span ↔ p ∈ table.spansOf .position ∧ span.contains p = true :=
  List.mem_filter

theorem mem_outerSequences : s ∈ table.outerSequences ↔ s ∈ table.spansOf .sequence ∧
    ∀ t ∈ table.spansOf .sequence, ¬t.strictlyContains s = true := by
  simp [outerSequences]

theorem mem_lineBreaksIn {n : Nat} : n ∈ table.lineBreaksIn span ↔
    (∃ p ∈ table.positionsIn span, 0 < table.rankIn span p ∧ table.rankIn span p % 3 = 0 ∧
      p.start = n) ∨ n = span.stop ∧ span.stop < table.source.byteLength := by
  have atEnd : n ∈ (if span.stop < table.source.byteLength then [span.stop] else []) ↔
      n = span.stop ∧ span.stop < table.source.byteLength := by
    split <;> simp_all
  simp [lineBreaksIn,atEnd,and_assoc]

namespace Layered

variable (h : table.Layered)

include h

theorem eq_of_start (isP : p ∈ table.spansOf .position) (isQ : q ∈ table.spansOf .position)
    (same : p.start = q.start) : p = q := by
  have properP := h.proper _ p isP
  have properQ := h.proper _ q isQ
  exact (h.apart p isP q isQ).resolve_right (by omega)

theorem nodup_positionsIn (span : Span) : (table.positionsIn span).Nodup := (h.nodup _).filter _

theorem ascending_nested (span : Span) :
    (table.nested span .position).Pairwise fun a b => a.start < b.start := by
  have isPosition : ∀ p ∈ table.nested span .position, p ∈ table.spansOf .position := by
    simp +contextual [nested]
  have nodup : (table.nested span .position).Nodup :=
    (List.mergeSort_perm ..).nodup_iff.mpr ((h.nodup _).filter _)
  refine List.Pairwise.imp_of_mem (fun {a b} inA inB both => ?_)
    ((Span.pairwise_sort _).and nodup)
  obtain ⟨notBefore,differs⟩ := both
  have other := mt (h.eq_of_start (isPosition a inA) (isPosition b inB)) differs
  rw [Span.lt_iff] at notBefore
  omega

theorem positionsIn_of_mem (isPosition : span ∈ table.spansOf .position) :
    ∀ p ∈ table.positionsIn span, p = span := by
  intro p member
  obtain ⟨isP,within⟩ := mem_positionsIn.mp member
  have proper := h.proper _ p isP
  rw [Span.contains_iff] at within
  exact (h.apart p isP span isPosition).resolve_right (by omega)

/-- The breaks of a sequence are before the positions strictly inside it, in the order of the text. -/
theorem breaksIn_perm (outer : ¬(table.spansOf .sequence).any (·.strictlyContains span) = true) :
    (table.breaksIn span).Perm (table.lineBreaksIn span) := by
  have ranked : (table.nested span .position).zipIdx = (table.nested span .position).map fun p =>
      (p,(table.nested span .position).countP (·.start < p.start)) := by
    simpa using List.zipIdx_eq_map_countP (h.ascending_nested span) 0
  rw [breaksIn,if_neg outer,lineBreaksIn,ranked,List.filterMap_map]
  refine List.Perm.append_right _ ?_
  by_cases isPosition : span ∈ table.spansOf .position
  · have only := h.positionsIn_of_mem isPosition
    have empty : table.nested span .position = [] := by
      simp only [List.eq_nil_iff_forall_not_mem,nested,Span.mem_sort,List.mem_filter,not_and]
      intro p isP holds
      obtain ⟨differs,within⟩ := Span.strictlyContains_iff.mp holds
      exact differs (only p (mem_positionsIn.mpr ⟨isP,Span.contains_iff.mpr within⟩))
    have first : ∀ p ∈ table.positionsIn span, table.rankIn span p = 0 := by
      intro p isP
      rw [rankIn,List.countP_eq_zero]
      intro q isQ
      simp [only p isP,only q isQ]
    have noThird : (table.positionsIn span).filter (fun position =>
        0 < table.rankIn span position ∧ table.rankIn span position % 3 = 0) = [] := by
      simp +contextual [List.filter_eq_nil_iff,first]
    rw [empty,noThird]
    rfl
  · have within : (table.nested span .position).Perm (table.positionsIn span) := by
      have same : table.positionsIn span =
          (table.spansOf .position).filter span.strictlyContains := by
        refine List.filter_congr fun p isP => ?_
        have differs : p ≠ span := fun same => isPosition (same ▸ isP)
        simp [Span.strictlyContains,differs]
      rw [same]
      exact List.mergeSort_perm ..
    refine (within.filterMap _).trans (.of_eq ?_)
    rw [← List.filterMap_eq_map,List.filterMap_filter]
    refine List.filterMap_congr fun p _ => ?_
    simp [within.countP_eq,rankIn]

/-- What the visit of the symbols breaks is where a text is to be broken. -/
theorem breaks_perm : table.breaks.Perm table.lineBreaks := by
  have inner : ((table.spansOf .sequence).filter fun span =>
      !(!(table.spansOf .sequence).any (·.strictlyContains span))).flatMap table.breaksIn = [] := by
    refine List.flatMap_eq_nil_iff.mpr fun span member => if_pos ?_
    simpa using (List.mem_filter.mp member).2
  have outer : (table.outerSequences.flatMap table.breaksIn).Perm table.lineBreaks :=
    .flatMap_left _ fun span member =>
      h.breaksIn_perm (by simpa using (List.mem_filter.mp member).2)
  have parts := (List.filter_append_perm (fun span =>
    !(table.spansOf .sequence).any (·.strictlyContains span))
    (table.spansOf .sequence)).flatMap_right table.breaksIn
  rw [List.flatMap_append,inner,List.append_nil] at parts
  exact ((List.reverse_perm _).flatMap_right _).trans (parts.symm.trans outer)

/-- The breaks of a sequence are behind its start, and not behind its end. -/
theorem bounds_of_mem {n : Nat} (isSequence : span ∈ table.spansOf .sequence)
    (member : n ∈ table.lineBreaksIn span) : span.start < n ∧ n ≤ span.stop := by
  have proper := h.proper _ span isSequence
  rcases mem_lineBreaksIn.mp member with ⟨p,isP,behind,-,rfl⟩ | ⟨rfl,-⟩
  · obtain ⟨q,isQ,before⟩ := List.countP_pos_iff.mp behind
    have before : q.start < p.start := of_decide_eq_true before
    have properP := h.proper _ p (mem_positionsIn.mp isP).1
    have withinP := Span.contains_iff.mp (mem_positionsIn.mp isP).2
    have withinQ := Span.contains_iff.mp (mem_positionsIn.mp isQ).2
    omega
  · exact ⟨proper,Nat.le_refl _⟩

theorem nodup_lineBreaksIn (span : Span) : (table.lineBreaksIn span).Nodup := by
  have starts : (((table.positionsIn span).filter fun position =>
      0 < table.rankIn span position ∧ table.rankIn span position % 3 = 0).map (·.start)).Nodup := by
    refine ((h.nodup_positionsIn span).filter _).map_on fun p inP q inQ same => ?_
    exact h.eq_of_start (mem_positionsIn.mp (List.mem_filter.mp inP).1).1
      (mem_positionsIn.mp (List.mem_filter.mp inQ).1).1 same
  refine starts.append (by split <;> simp) fun n inStarts atEnd => ?_
  obtain ⟨p,inP,rfl⟩ := List.mem_map.mp inStarts
  have isP := mem_positionsIn.mp (List.mem_filter.mp inP).1
  have proper := h.proper _ p isP.1
  have within := Span.contains_iff.mp isP.2
  split at atEnd
  · have := List.mem_singleton.mp atEnd
    omega
  · cases atEnd

/-- Sequences that lie in no other lie apart. -/
theorem apart_of_outer (outerS : s ∈ table.outerSequences) (outerT : t ∈ table.outerSequences)
    (differs : s ≠ t) : s.stop ≤ t.start ∨ t.stop ≤ s.start := by
  obtain ⟨isS,aloneS⟩ := mem_outerSequences.mp outerS
  obtain ⟨isT,aloneT⟩ := mem_outerSequences.mp outerT
  rcases h.laminar s isS t isT with before | behind | holds | held
  · exact .inl before
  · exact .inr behind
  · exact absurd (Span.strictlyContains_iff.mpr ⟨differs.symm,Span.contains_iff.mp holds⟩)
      (aloneT s isS)
  · exact absurd (Span.strictlyContains_iff.mpr ⟨differs,Span.contains_iff.mp held⟩) (aloneS t isT)

theorem nodup_lineBreaks : table.lineBreaks.Nodup := by
  rw [lineBreaks,List.nodup_flatMap]
  refine ⟨fun s _ => h.nodup_lineBreaksIn s,?_⟩
  refine List.Pairwise.imp_of_mem (fun {s t} outerS outerT differs => ?_) ((h.nodup _).filter _)
  intro n inS inT
  have boundsS := h.bounds_of_mem (mem_outerSequences.mp outerS).1 inS
  have boundsT := h.bounds_of_mem (mem_outerSequences.mp outerT).1 inT
  have := h.apart_of_outer outerS outerT differs
  omega

end Layered

end SpanTable

/-- The positions and sequences that a parse registers, those inside failed rules included. -/
theorem Reading.layered {full : Text} {start : StartRule} (x : Reading full start) (source : Text) :
    (SpanTable.ofEvents source (parse full start).events).Layered := by
  have registers := x.registers source
  have inside := Cursor.in_tokenize full
  constructor
  · exact fun r => registers.nodup_spansOf
  · exact fun r span member => x.trail.nonempty inside _ (registers.mem_spansOf.mp member)
  · intro p isP q isQ
    have apart := x.outline.apart (registers.mem_spansOf.mp isP) (registers.mem_spansOf.mp isQ) rfl rfl
      rfl rfl
    exact apart.imp_left (congrArg Prod.snd)
  · intro s isS t isT
    have laminar := x.trail.laminar (registers.mem_spansOf.mp isS) (registers.mem_spansOf.mp isT)
    rcases laminar with same | before | behind | ⟨-,held⟩ | ⟨-,holds⟩
    · have same : s = t := congrArg Prod.snd same
      exact .inr (.inr (.inl (by simp [same])))
    · exact .inl before
    · exact .inr (.inl behind)
    · exact .inr (.inr (.inr held))
    · exact .inr (.inr (.inl holds))

end CorpusQuery
