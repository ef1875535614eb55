import CorpusQuery.Decorate
import CorpusQuery.Proofs.Chunks
import CorpusQuery.Proofs.Spans

/-! Which markup closes a span before it opens it. Where chunks stand in the range of a wrapper, its start
comes in an earlier gap than its end. A hollow wrapper, in whose range no chunk begins, has both in one gap,
and there its end comes first: it takes the place of another wrapper that goes on, if there is one. -/
namespace CorpusQuery

open Markup

namespace Html

/-- Spans can be counted just when no prefix closes more of them than are open. -/
theorem isSome_depth?_iff (depth : Nat) (pieces : List Piece) : (depth? depth pieces).isSome = true ↔
    ∀ k, (pieces.take k).countP Piece.closes ≤ depth + (pieces.take k).countP Piece.opens := by
  constructor
  · intro counted
    obtain ⟨final,same⟩ := Option.isSome_iff_exists.mp counted
    exact (countP_of_depth? same).1
  · intro prefixes
    induction pieces generalizing depth with
    | nil => rfl
    | cons p rest ih =>
      have first := prefixes 1
      cases step : p.depth? depth with
      | none =>
        simp only [Piece.depth?] at step
        split_ifs at step with opens closes empty
        simp [opens,closes,empty] at first
      | some next =>
        have counts := Piece.depth?_count step
        rw [depth?_cons,step,Option.bind_some]
        refine ih next fun k => ?_
        have later := prefixes (k + 1)
        rw [List.take_succ_cons,List.countP_cons,List.countP_cons] at later
        omega

/-- Every closing of a span in HTML is that of one opened before, and all are closed in the end. -/
structure SpansClose (html : Text) : Prop where
  prefixes : ∀ k, ((read html).take k).countP Piece.closes ≤ ((read html).take k).countP Piece.opens
  total : (read html).countP Piece.closes = (read html).countP Piece.opens

end Html

namespace Markup

open Html

/-- So many closings need as many spans that are open. -/
theorem le_of_depth?_closings {count depth : Nat} {rest : Markup}
    (counted : (depth? depth (pieces (List.replicate count .closing ++ rest))).isSome = true) :
    count ≤ depth := by
  induction count generalizing depth with
  | zero => exact Nat.zero_le _
  | succ count ih =>
    cases depth with
    | zero =>
      have stops : Fragment.closingPiece.depth? 0 = none := by decide
      rw [List.replicate_succ,List.cons_append,pieces_cons,Fragment.pieces,List.singleton_append,
        depth?_cons,stops] at counted
      cases counted
    | succ depth =>
      rw [List.replicate_succ,List.cons_append,pieces_cons,Fragment.pieces,List.singleton_append,
        depth?_cons,Fragment.depth?_closing,Option.bind_some] at counted
      exact Nat.succ_le_succ (ih counted)

end Markup

namespace Layout

open Html

theorem length_filter_add_filter {α : Type} {l : List α} {p q r s : α → Bool}
    (same : ∀ x ∈ l, (if p x then 1 else 0) + (if q x then 1 else 0) =
      (if r x then 1 else 0) + (if s x then 1 else 0)) :
    (l.filter p).length + (l.filter q).length = (l.filter r).length + (l.filter s).length := by
  induction l with
  | nil => rfl
  | cons x rest ih =>
    obtain ⟨here,later⟩ := List.forall_mem_cons.mp same
    have count (f : α → Bool) : ((x :: rest).filter f).length =
        (rest.filter f).length + (if f x then 1 else 0) := by
      rw [List.filter_cons]
      cases f x <;> rfl
    have := ih later
    simp only [count]
    omega

section Gaps

variable (chunks : List Chunk) (decorations : List Decoration)

/-- The wrappers that begin and end in one gap. -/
def hollow (gap : Nat) : List (Span × Wrapper) := (wraps decorations).filter fun d =>
  gapAt chunks d.1.start = gap ∧ gapAt chunks d.1.stop = gap

variable {chunks decorations}

theorem gapAt_le_of_wraps (chunks : List Chunk) {d : Span × Wrapper} (member : d ∈ wraps decorations) :
    gapAt chunks d.1.start ≤ gapAt chunks d.1.stop := by
  have nonempty := (mem_wraps.mp member).2
  refine gapAt_mono chunks ?_
  simp only [Span.isEmpty,Span.length,beq_eq_false_iff_ne] at nonempty
  omega

theorem length_around_add (gap : Nat) :
    (around chunks decorations gap).length + (hollow chunks decorations gap).length =
      (across chunks decorations gap).length + (begins chunks decorations gap).length := by
  apply length_filter_add_filter
  intro d member
  have := gapAt_le_of_wraps chunks member
  simp only [decide_eq_true_eq]
  split_ifs <;> omega

theorem length_around_add_next (gap : Nat) :
    (around chunks decorations gap).length + (hollow chunks decorations (gap + 1)).length =
      (across chunks decorations (gap + 1)).length + (ends chunks decorations (gap + 1)).length := by
  apply length_filter_add_filter
  intro d member
  have := gapAt_le_of_wraps chunks member
  simp only [decide_eq_true_eq]
  split_ifs <;> omega

theorem hollow_zero : hollow chunks decorations 0 = ends chunks decorations 0 ∧
    across chunks decorations 0 = [] := by
  constructor
  · apply List.filter_congr
    intro d member
    have := gapAt_le_of_wraps chunks member
    simp only [decide_eq_decide]
    omega
  · exact List.filter_eq_nil_iff.mpr fun d _ => by simp

theorem hollow_eq_nil {gap : Nat} (behind : chunks.length < gap) : hollow chunks decorations gap = [] := by
  apply List.filter_eq_nil_iff.mpr
  intro d _
  have := gapAt_le chunks d.1.stop
  simp only [decide_eq_true_eq]
  omega

theorem around_eq_nil {gap : Nat} (last : chunks.length ≤ gap) : around chunks decorations gap = [] := by
  apply List.filter_eq_nil_iff.mpr
  intro d _
  have := gapAt_le chunks d.1.stop
  simp only [decide_eq_true_eq]
  omega

theorem slots_succ (gap : Nat) : (List.range' 0 (gap + 1 + 1)).flatMap (slot chunks decorations) =
    (List.range' 0 (gap + 1)).flatMap (slot chunks decorations) ++ slot chunks decorations (gap + 1) := by
  rw [List.range'_concat,List.flatMap_append,Nat.one_mul,Nat.zero_add,List.flatMap_singleton]

/-- Where enough wrappers go on across the hollow ones, the slots up to a gap leave those open that it is in. -/
theorem depth?_slots_of_held (depth gap : Nat) (held : ∀ g ≤ gap,
    (hollow chunks decorations g).length ≤ depth + (across chunks decorations g).length) :
    depth? depth (pieces ((List.range' 0 (gap + 1)).flatMap (slot chunks decorations))) =
      some (depth + (around chunks decorations gap).length) := by
  -- What is open before a slot is enough for what ends in it.
  have step {before gap : Nat} (enough : (hollow chunks decorations gap).length ≤
        depth + (across chunks decorations gap).length)
      (opened : before + (hollow chunks decorations gap).length = depth +
        (across chunks decorations gap).length + (ends chunks decorations gap).length) :
      depth? before (pieces (slot chunks decorations gap)) =
        some (depth + (around chunks decorations gap).length) := by
    have behind := @length_around_add chunks decorations gap
    have split : before = before - (ends chunks decorations gap).length +
        (ends chunks decorations gap).length := by omega
    rw [split,depth?_slot,Option.some.injEq]
    omega
  induction gap with
  | zero =>
    obtain ⟨same,empty⟩ := @hollow_zero chunks decorations
    rw [List.range'_one,List.flatMap_singleton]
    exact step (held 0 (Nat.le_refl 0)) (by rw [same,empty,List.length_nil,Nat.add_zero])
  | succ gap ih =>
    have before := ih fun g le => held g (Nat.le_succ_of_le le)
    have next := @length_around_add_next chunks decorations gap
    rw [slots_succ,depth?_pieces_append,before,Option.bind_some]
    exact step (held (gap + 1) (Nat.le_refl _)) (by omega)

/-- Where no closing misses its opening, enough wrappers go on across the hollow ones. -/
theorem held_of_depth?_slots {gap : Nat} (counted : (depth? 0 (pieces
    ((List.range' 0 (gap + 1)).flatMap (slot chunks decorations)))).isSome = true) : ∀ g ≤ gap,
    (hollow chunks decorations g).length ≤ (across chunks decorations g).length := by
  -- A slot that can be counted ends no more than what is open before it.
  have step {before gap : Nat}
      (counted : (depth? before (pieces (slot chunks decorations gap))).isSome = true) :
      (ends chunks decorations gap).length ≤ before := by
    rw [slot,between_eq,List.append_assoc] at counted
    exact le_of_depth?_closings counted
  induction gap with
  | zero =>
    intro g le
    obtain rfl := Nat.le_zero.mp le
    obtain ⟨same,-⟩ := @hollow_zero chunks decorations
    rw [List.range'_one,List.flatMap_singleton] at counted
    rw [same]
    exact (step counted).trans (Nat.zero_le _)
  | succ gap ih =>
    rw [slots_succ,depth?_pieces_append] at counted
    obtain ⟨final,same⟩ := Option.isSome_iff_exists.mp counted
    obtain ⟨before,first,second⟩ := Option.bind_eq_some_iff.mp same
    have held := ih (Option.isSome_iff_exists.mpr ⟨before,first⟩)
    have depths := depth?_slots_of_held 0 gap fun g le => by simpa using held g le
    obtain rfl := Option.some.inj (first.symm.trans depths)
    rw [Nat.zero_add] at second
    intro g le
    rcases Nat.lt_or_eq_of_le le with earlier | rfl
    · exact held g (Nat.le_of_lt_succ earlier)
    · have fits := step (Option.isSome_iff_exists.mpr ⟨final,second⟩)
      have next := @length_around_add_next chunks decorations gap
      omega

theorem countP_layout (chunks : List Chunk) (decorations : List Decoration) :
    (pieces (layout chunks decorations)).countP Piece.closes =
      (pieces (layout chunks decorations)).countP Piece.opens := by
  -- With as many spans open as there are wrappers, none is missing.
  have counted := @depth?_slots_of_held chunks decorations (wraps decorations).length chunks.length
    fun g _ => (List.length_filter_le ..).trans (Nat.le_add_right ..)
  rw [← layout_slots,around_eq_nil (Nat.le_refl _)] at counted
  have total := (countP_of_depth? counted).2
  rw [List.length_nil] at total
  omega

theorem isSome_depth?_layout (chunks : List Chunk) (decorations : List Decoration) :
    (depth? 0 (pieces (layout chunks decorations))).isSome = true ↔ ∀ gap,
      (hollow chunks decorations gap).length ≤ (across chunks decorations gap).length := by
  rw [layout_slots]
  constructor
  · intro counted gap
    by_cases inside : gap ≤ chunks.length
    · exact held_of_depth?_slots counted gap inside
    · rw [hollow_eq_nil (Nat.lt_of_not_le inside)]
      exact Nat.zero_le _
  · intro held
    rw [depth?_slots_of_held 0 chunks.length fun g _ => by simpa using held g]
    rfl

end Gaps

end Layout

open Html Layout

/-- The HTML of a table opens as many spans as it closes. It closes none before it opens it just when in
every gap no more wrappers begin and end than wrappers go on across it; so it does when in the range of
every wrapper a chunk begins. -/
theorem spansClose_render_iff (table : SpanTable) (o : DecorateOptions) :
    SpansClose (Markup.html (table.render o).markup) ↔ ∀ gap,
      (hollow table.chunks (table.notes o).decorations gap).length ≤
        (across table.chunks (table.notes o).decorations gap).length := by
  have isLayout : (table.render o).markup = layout table.chunks (table.notes o).decorations := rfl
  rw [← isSome_depth?_layout,← isLayout,isSome_depth?_iff,← Markup.read_html]
  constructor
  · intro closes k
    rw [Nat.zero_add]
    exact closes.prefixes k
  · intro prefixes
    refine ⟨fun k => by simpa using prefixes k,?_⟩
    rw [Markup.read_html]
    exact countP_layout ..

def SpanTable.bare : SpanTable := (({ source := "a=\"\"".toList } : SpanTable).addNonTerminal ⟨0,1⟩
  .attName).addNonTerminal ⟨0,4⟩ .attVal

/-- The tooltip of a name in whose range no chunk begins is closed before it is opened. -/
theorem not_spansClose_bare :
    ¬SpansClose (Markup.html (SpanTable.bare.render { vocabulary := some .permissive }).markup) := by
  intro closes
  have first := closes.prefixes 1
  revert first
  decide +kernel

end CorpusQuery
