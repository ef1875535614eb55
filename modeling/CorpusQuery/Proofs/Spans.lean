import CorpusQuery.Proofs.Html
import CorpusQuery.Proofs.Wrapping
import Mathlib.Data.List.Basic

/-! How the spans of a layout nest. Between two chunks stands first what ends there, then what begins
there. So no span is closed that was not opened, and where wrappers are the same or apart, each is
closed right where its range ends. -/
namespace CorpusQuery

open Markup Html

/-! ### Fragments -/

namespace Fragment

def wrapper? : Fragment → Option Wrapper
  | .opening w => some w
  | _ => none

theorem opens_classBody (cssClass : String) (attributes : Text) :
    (Piece.tag (classBody cssClass attributes)).opens = true := by
  have literal : "span ".toList <+: "span class=\"".toList := List.isPrefixOf_iff_prefix.mp (by decide)
  have whole : "span class=\"".toList <+: classBody cssClass attributes := by
    unfold classBody
    rw [List.append_assoc,List.append_assoc]
    exact List.prefix_append ..
  exact List.isPrefixOf_iff_prefix.mpr (literal.trans whole)

theorem depth?_classBody (cssClass : String) (attributes : Text) (depth : Nat) :
    (Piece.tag (classBody cssClass attributes)).depth? depth = some (depth + 1) := by
  rw [Piece.depth?,opens_classBody,if_pos rfl]

theorem depth?_wrapper (w : Wrapper) (depth : Nat) :
    (Piece.tag w.body).depth? depth = some (depth + 1) := by
  cases w <;> exact depth?_classBody ..

theorem depth?_closing (depth : Nat) : closingPiece.depth? (depth + 1) = some depth := by
  have opens : closingPiece.opens = false := by decide
  have closes : closingPiece.closes = true := by decide
  simp [Piece.depth?,opens,closes]

theorem depth?_tagged (cssClass : String) (attributes t : Text) (depth : Nat) :
    depth? depth (.tag (classBody cssClass attributes) :: ofText t ++ [closingPiece]) =
      some depth := by
  rw [List.cons_append,depth?_cons,depth?_classBody,Option.bind_some,depth?_append,depth?_ofText,
    Option.bind_some,depth?_cons,depth?_closing]
  rfl

theorem depth?_styled (style : Option Style) (t : Text) (depth : Nat) :
    depth? depth (pieces (.styled style t)) = some depth := by
  cases style with
  | none => exact depth?_ofText depth t
  | some style => exact depth?_tagged _ _ t depth

theorem depth?_unrecognized (title t : Text) (depth : Nat) :
    depth? depth (pieces (.unrecognized title t)) = some depth := depth?_tagged _ _ t depth

theorem depth?_lineBreak (depth : Nat) : depth? depth (pieces .lineBreak) = some depth := by
  have opens : (Piece.tag "br /".toList).opens = false := by decide
  have closes : (Piece.tag "br /".toList).closes = false := by decide
  change ((Piece.tag "br /".toList).depth? depth).bind some = some depth
  rw [Piece.depth?,opens,closes]
  rfl

end Fragment

namespace Markup

theorem depth?_pieces_append (depth : Nat) (m m' : Markup) : depth? depth (pieces (m ++ m')) =
    (depth? depth (pieces m)).bind fun next => depth? next (pieces m') := by
  rw [pieces_append,depth?_append]

theorem depth?_openings {m : Markup}
    (opens : ∀ f ∈ m, f = .lineBreak ∨ ∃ w, f = .opening w) (depth : Nat) :
    depth? depth (pieces m) = some (depth + (m.filterMap Fragment.wrapper?).length) := by
  induction m generalizing depth with
  | nil => rfl
  | cons f rest ih =>
    have later := ih fun g member => opens g (List.mem_cons_of_mem _ member)
    rw [pieces_cons,depth?_append]
    rcases opens f List.mem_cons_self with rfl | ⟨w,rfl⟩
    · rw [Fragment.depth?_lineBreak,Option.bind_some,later]
      rfl
    · rw [Fragment.pieces,depth?_cons,Fragment.depth?_wrapper,Option.bind_some,depth?_nil,
        Option.bind_some,later]
      simp only [List.filterMap_cons,Fragment.wrapper?,List.length_cons]
      rw [Nat.add_right_comm,Nat.add_assoc]

theorem depth?_closings (count depth : Nat) :
    depth? (depth + count) (pieces (List.replicate count .closing)) = some depth := by
  induction count with
  | zero => rfl
  | succ count ih =>
    rw [List.replicate_succ,pieces_cons,Fragment.pieces,List.singleton_append,depth?_cons,
      ← Nat.add_assoc,Fragment.depth?_closing,Option.bind_some,ih]

end Markup

/-! ### One element of a list among others -/

section Splitting

variable {α β : Type} {xs ys c d : List α} {x : α}

theorem split_of_not_mem_left (split : xs ++ ys = c ++ x :: d) (absent : x ∉ xs) :
    ∃ c', c = xs ++ c' ∧ ys = c' ++ x :: d := by
  rcases List.append_eq_append_iff.mp split with ⟨c',rfl,same⟩ | ⟨more,rfl,same⟩
  · exact ⟨c',rfl,same⟩
  · cases more with
    | nil => exact ⟨[],by simp,by simpa using same.symm⟩
    | cons y more =>
      obtain ⟨rfl,-⟩ := List.cons.inj same
      simp at absent

theorem split_of_not_mem_right (split : xs ++ ys = c ++ x :: d) (absent : x ∉ ys) :
    ∃ d', d = d' ++ ys ∧ xs = c ++ x :: d' := by
  rcases List.append_eq_append_iff.mp split with ⟨c',-,same⟩ | ⟨more,rfl,same⟩
  · rw [same] at absent
    simp at absent
  · cases more with
    | nil =>
      simp only [List.nil_append] at same
      rw [← same] at absent
      simp at absent
    | cons y more =>
      obtain ⟨rfl,rfl⟩ := List.cons.inj same
      exact ⟨more,rfl,rfl⟩

theorem split_of_flatMap {f : β → List α} {l : List β} {a b : List α}
    (split : l.flatMap f = a ++ x :: b) : ∃ front y back c d, l = front ++ y :: back ∧
      f y = c ++ x :: d ∧ a = front.flatMap f ++ c ∧ b = d ++ back.flatMap f := by
  induction l generalizing a with
  | nil => simp at split
  | cons y rest ih =>
    rw [List.flatMap_cons] at split
    rcases List.append_eq_append_iff.mp split with ⟨a',rfl,later⟩ | ⟨more,same,later⟩
    · obtain ⟨front,z,back,c,d,rfl,holds,rfl,rfl⟩ := ih later
      exact ⟨y :: front,z,back,c,d,rfl,holds,by simp,rfl⟩
    · cases more with
      | nil =>
        obtain ⟨front,z,back,c,d,rfl,holds,before,rfl⟩ := ih (a := []) later.symm
        refine ⟨y :: front,z,back,c,d,rfl,holds,?_,rfl⟩
        rw [List.flatMap_cons,List.append_assoc,← before,List.append_nil,same,List.append_nil]
      | cons z more =>
        obtain ⟨rfl,rfl⟩ := List.cons.inj later
        exact ⟨[],y,rest,a,more,rfl,same,rfl,rfl⟩

end Splitting

theorem Markup.split_of_getElem? {m : Markup} {i : Nat} {p : Piece} (at_ : (pieces m)[i]? = some p) :
    ∃ front f back before after, m = front ++ f :: back ∧ f.pieces = before ++ p :: after ∧
      (pieces m).take i = pieces front ++ before ∧ (pieces m).drop (i + 1) = after ++ pieces back := by
  obtain ⟨inside,isPiece⟩ := List.getElem?_eq_some_iff.mp at_
  have split : m.flatMap Fragment.pieces =
      (pieces m).take i ++ p :: (pieces m).drop (i + 1) := by
    rw [← isPiece,← List.drop_eq_getElem_cons inside,List.take_append_drop]
    rfl
  obtain ⟨front,f,back,before,after,isMarkup,isFragment,upTo,behind⟩ := split_of_flatMap split
  exact ⟨front,f,back,before,after,isMarkup,isFragment,upTo,behind⟩

/-! ### What a tag encloses -/

/-- HTML shows a text before a tag, and another from there to where the span is closed that the tag
opens. -/
structure Html.Encloses (pieces : List Piece) (i : Nat) (before within : Text) : Prop where
  before : shown (pieces.take i) = before
  within : (enclosed? 0 (pieces.drop (i + 1))).map shown = some within

theorem Html.encloses_of_balanced {pieces front within rest : List Piece} {i : Nat}
    (isFront : pieces.take i = front)
    (isBack : pieces.drop (i + 1) = within ++ (Fragment.closingPiece :: rest))
    (balanced : depth? 0 within = some 0) : Encloses pieces i (shown front) (shown within) := by
  have stops : Fragment.closingPiece.depth? 0 = none := by decide
  have closes : enclosed? 0 (Fragment.closingPiece :: rest) = some [] := by
    simp only [enclosed?,stops]
  constructor
  · rw [isFront]
  · rw [isBack,enclosed?_append balanced,closes]
    simp

example : (enclosed? 0 (read "a<span b>c</span>d</span>e".toList)).map shown =
    some "acd".toList := by decide

namespace Layout

/-! ### Gaps -/

section Gaps

variable (chunks : List Chunk) (decorations : List Decoration)

def starts (gap : Nat) : Markup :=
  (((decorations.filterMap (opening? chunks)).filter fun x => x.gap == gap).mergeSort
    fun a b => b.width ≤ a.width).map Insertion.fragment

def slot (gap : Nat) : Markup :=
  between chunks decorations gap ++ (chunks[gap]?.toList).map chunkMarkup

variable {chunks decorations} {gap : Nat}

theorem between_eq : between chunks decorations gap =
    List.replicate (ends chunks decorations gap).length .closing ++
      starts chunks decorations gap := by
  have closes : ∀ x ∈ decorations.filterMap (closing? chunks), x.fragment = .closing := by
    intro x member
    obtain ⟨span,w,-,-,rfl⟩ := mem_closings.mp member
    rfl
  unfold between gapMarkup starts
  rw [List.map_append]
  congr 1
  rw [List.eq_replicate_iff,List.length_map,List.length_mergeSort,length_closings]
  refine ⟨rfl,fun f member => ?_⟩
  obtain ⟨x,isEnd,rfl⟩ := List.mem_map.mp member
  exact closes x (List.mem_filter.mp (List.mem_mergeSort.mp isEnd)).1

theorem mem_starts {f : Fragment} (member : f ∈ starts chunks decorations gap) :
    f = .lineBreak ∨ ∃ d ∈ begins chunks decorations gap, f = .opening d.2 := by
  obtain ⟨x,isStart,rfl⟩ := List.mem_map.mp member
  obtain ⟨isOpening,atGap⟩ := List.mem_filter.mp (List.mem_mergeSort.mp isStart)
  rcases mem_openings.mp isOpening with ⟨span,w,isDecoration,proper,rfl⟩ | ⟨offset,-,rfl⟩
  · refine .inr ⟨(span,w),List.mem_filter.mpr ⟨mem_wraps.mpr ⟨isDecoration,proper⟩,?_⟩,rfl⟩
    simpa using atGap
  · exact .inl rfl

theorem plainText_closings (count : Nat) : plainText (List.replicate count .closing) = [] := by
  simp [plainText,fragmentText]

theorem plainText_starts (chunks : List Chunk) (decorations : List Decoration) (gap : Nat) :
    plainText (starts chunks decorations gap) = [] := by
  have silent := plainText_between chunks decorations gap
  rwa [between_eq,plainText_append,plainText_closings,List.nil_append] at silent

theorem openings_starts : ((starts chunks decorations gap).filterMap Fragment.wrapper?).length =
    (begins chunks decorations gap).length := by
  have same : Insertion.wrapper? = Fragment.wrapper? ∘ Insertion.fragment := by
    funext x
    cases x with
    | mk gap width fragment => cases fragment <;> rfl
  rw [starts,List.filterMap_map,← same]
  have perm := ((List.mergeSort_perm ((decorations.filterMap (opening? chunks)).filter
    fun x => x.gap == gap) fun a b => b.width ≤ a.width).filterMap Insertion.wrapper?).length_eq
  rw [perm,filterMap_openings,List.length_map]

theorem depth?_starts (depth : Nat) : depth? depth (pieces (starts chunks decorations gap)) =
    some (depth + (begins chunks decorations gap).length) := by
  rw [depth?_openings _ depth,openings_starts]
  intro f member
  exact (mem_starts member).imp_right fun opens => opens.elim fun d h => ⟨d.2,h.2⟩

theorem depth?_chunk (depth : Nat) : depth? depth
    (pieces ((chunks[gap]?.toList).map chunkMarkup)) = some depth := by
  cases chunks[gap]? with
  | none => rfl
  | some chunk =>
    change depth? depth (Fragment.pieces (.styled chunk.kind.style? chunk.text) ++ []) = _
    rw [List.append_nil,Fragment.depth?_styled]

theorem depth?_slot (depth : Nat) : depth? (depth + (ends chunks decorations gap).length)
    (pieces (slot chunks decorations gap)) =
      some (depth + (begins chunks decorations gap).length) := by
  rw [slot,between_eq,depth?_pieces_append,depth?_pieces_append,depth?_closings,Option.bind_some,
    depth?_starts,Option.bind_some,depth?_chunk]

theorem plainText_slot : plainText (slot chunks decorations gap) =
    chunks[gap]?.toList.flatMap Chunk.text := by
  rw [slot,plainText_append,plainText_between,List.nil_append]
  cases chunks[gap]? with
  | none => rfl
  | some chunk => rfl

theorem body_eq (f : Nat → Markup) (chunks : List Chunk) : body f chunks =
    (List.range' 0 chunks.length).flatMap fun i => f i ++ (chunks[i]?.toList).map chunkMarkup := by
  induction chunks using List.reverseRecOn with
  | nil => rfl
  | append_singleton chunks chunk ih =>
    rw [body_concat,ih,List.length_append,List.length_singleton,List.range'_concat,
      List.flatMap_append,List.append_assoc]
    congr 1
    · apply List.flatMap_congr
      intro i member
      have inside : i < chunks.length := by simpa using member
      rw [List.getElem?_append_left inside]
    · simp

/-- A layout is its slots, of which the last has no chunk. -/
theorem layout_slots (chunks : List Chunk) (decorations : List Decoration) :
    layout chunks decorations =
      (List.range' 0 (chunks.length + 1)).flatMap (slot chunks decorations) := by
  rw [layout_eq,body_eq,List.range'_concat,List.flatMap_append]
  congr 1
  simp [slot]

theorem mem_layout {f : Fragment} (member : f ∈ layout chunks decorations) :
    f = .closing ∨ f = .lineBreak ∨ (∃ chunk ∈ chunks, f = chunkMarkup chunk) ∨
      ∃ span w, .wrap span w ∈ decorations ∧ f = .opening w := by
  rw [layout_slots,List.mem_flatMap] at member
  obtain ⟨gap,-,inSlot⟩ := member
  rw [slot,between_eq,List.mem_append,List.mem_append] at inSlot
  rcases inSlot with (ends | begins) | isChunk
  · exact .inl (List.eq_of_mem_replicate ends)
  · rcases mem_starts begins with isBreak | ⟨⟨span,w⟩,begun,opens⟩
    · exact .inr (.inl isBreak)
    · have isWrap := (List.mem_filter.mp begun).1
      exact .inr (.inr (.inr ⟨span,w,(mem_wraps.mp isWrap).1,opens⟩))
  · obtain ⟨chunk,inGap,same⟩ := List.mem_map.mp isChunk
    have isChunk : chunk ∈ chunks := List.mem_of_getElem? (Option.mem_toList.mp inGap)
    exact .inr (.inr (.inl ⟨chunk,isChunk,same.symm⟩))

/-! ### Balance -/

theorem gapAt_le (chunks : List Chunk) (offset : Nat) : gapAt chunks offset ≤ chunks.length :=
  (List.takeWhile_prefix _).length_le

theorem gap_opening?_le {d : Decoration} {x : Insertion} (opens : opening? chunks d = some x) :
    x.gap ≤ chunks.length := by
  rcases opening?_eq_some.mp opens with ⟨span,w,rfl,-,rfl⟩ | ⟨offset,rfl,rfl⟩ <;> exact gapAt_le ..

theorem gap_closing?_le {d : Decoration} {x : Insertion} (closes : closing? chunks d = some x) :
    x.gap ≤ chunks.length := by
  obtain ⟨span,w,rfl,-,rfl⟩ := closing?_eq_some.mp closes
  exact gapAt_le ..

variable (chunks decorations) in
/-- The wrappers that begin before a gap and end behind it. -/
def across (gap : Nat) : List (Span × Wrapper) :=
  (wraps decorations).filter fun d => gapAt chunks d.1.start < gap ∧ gap < gapAt chunks d.1.stop

theorem length_filter_add {α : Type} {l : List α} {p q r : α → Bool}
    (parts : ∀ x ∈ l, (p x = true ↔ q x = true ∨ r x = true) ∧ ¬(q x = true ∧ r x = true)) :
    (l.filter p).length = (l.filter q).length + (l.filter r).length := by
  induction l with
  | nil => rfl
  | cons x rest ih =>
    obtain ⟨here,later⟩ := List.forall_mem_cons.mp parts
    have same := ih later
    simp only [List.filter_cons]
    cases isFirst : q x <;> cases isSecond : r x <;>
      simp_all only [Bool.false_eq_true,or_self,or_true,true_or,and_self,not_true_eq_false,
        and_false,if_true,if_false,List.length_cons] <;> omega

theorem Separate.length_around (h : Separate chunks decorations) (gap : Nat) :
    (around chunks decorations gap).length =
      (across chunks decorations gap).length + (begins chunks decorations gap).length := by
  apply length_filter_add
  intro d member
  have := h.proper d member
  simp only [decide_eq_true_eq]
  omega

theorem Separate.length_around_next (h : Separate chunks decorations) (gap : Nat) :
    (around chunks decorations gap).length = (across chunks decorations (gap + 1)).length +
      (ends chunks decorations (gap + 1)).length := by
  apply length_filter_add
  intro d member
  have := h.proper d member
  simp only [decide_eq_true_eq]
  omega

/-- No slot closes a span that was not opened, and behind it those are open that the gap is in. -/
theorem Separate.depth?_slots (h : Separate chunks decorations) (gap : Nat) :
    depth? 0 (pieces ((List.range' 0 (gap + 1)).flatMap (slot chunks decorations))) =
      some (around chunks decorations gap).length := by
  induction gap with
  | zero =>
    have empty : across chunks decorations 0 = [] ∧ ends chunks decorations 0 = [] := by
      constructor
      · exact List.filter_eq_nil_iff.mpr fun d _ => by simp
      · apply List.filter_eq_nil_iff.mpr
        intro d member
        have := h.proper d member
        simp only [decide_eq_true_eq]
        omega
    have first : depth? ((across chunks decorations 0).length + (ends chunks decorations 0).length)
        (pieces (slot chunks decorations 0)) = _ := depth?_slot _
    rw [h.length_around,← first,empty.1,empty.2]
    simp
  | succ gap ih =>
    rw [List.range'_concat,List.flatMap_append,depth?_pieces_append,ih,Option.bind_some,
      h.length_around_next,h.length_around (gap + 1),← depth?_slot]
    simp

theorem Separate.depth?_layout (h : Separate chunks decorations) :
    depth? 0 (pieces (layout chunks decorations)) = some 0 := by
  rw [layout_slots,h.depth?_slots,Option.some.injEq,List.length_eq_zero_iff]
  apply List.filter_eq_nil_iff.mpr
  intro d _
  have := gapAt_le chunks d.1.stop
  simp only [decide_eq_true_eq]
  omega

/-! ### What a wrapper encloses -/

theorem plainText_slots (start count : Nat) :
    plainText ((List.range' start count).flatMap (slot chunks decorations)) =
      ((chunks.drop start).take count).flatMap Chunk.text := by
  induction count generalizing start with
  | zero => simp [plainText]
  | succ count ih =>
    rw [List.range'_succ,List.flatMap_cons,plainText_append,plainText_slot,ih]
    cases here : chunks[start]? with
    | none =>
      have past : chunks.length ≤ start := by simpa using here
      simp [List.drop_eq_nil_of_le past,List.drop_eq_nil_of_le (Nat.le_succ_of_le past)]
    | some chunk =>
      obtain ⟨inside,same⟩ := List.getElem?_eq_some_iff.mp here
      rw [List.drop_eq_getElem_cons inside,same]
      simp

theorem Separate.begins_eq_ends (h : Separate chunks decorations) {d : Span × Wrapper}
    (member : d ∈ wraps decorations) : begins chunks decorations (gapAt chunks d.1.start) =
      ends chunks decorations (gapAt chunks d.1.stop) := by
  apply List.filter_congr
  intro e isWrap
  have := h.apart d member e isWrap
  have := h.proper d member
  have := h.proper e isWrap
  simp only [decide_eq_decide]
  omega

/-- Slots behind the start of a wrapper and before its end leave open what is open: none begins or ends
there. -/
theorem Separate.depth?_inside (h : Separate chunks decorations) {d : Span × Wrapper}
    (member : d ∈ wraps decorations) (depth start count : Nat)
    (after : gapAt chunks d.1.start < start) (before : start + count ≤ gapAt chunks d.1.stop) :
    depth? depth (pieces ((List.range' start count).flatMap (slot chunks decorations))) =
      some depth := by
  induction count generalizing start with
  | zero => rfl
  | succ count ih =>
    have quiet : begins chunks decorations start = [] ∧ ends chunks decorations start = [] := by
      constructor
      all_goals
        apply List.filter_eq_nil_iff.mpr
        intro e isWrap
        have := h.apart d member e isWrap
        have := h.proper e isWrap
        simp only [decide_eq_true_eq]
        omega
    have here := @depth?_slot chunks decorations start depth
    rw [quiet.1,quiet.2,List.length_nil,Nat.add_zero] at here
    rw [List.range'_succ,List.flatMap_cons,depth?_pieces_append,here,Option.bind_some,
      ih (start + 1) (Nat.lt_succ_of_lt after) (by omega)]

/-- A fragment of a layout that is no chunk and closes nothing stands among what begins in a gap. -/
theorem starts_split {front back : Markup} {f : Fragment} (opens : f ≠ .closing)
    (noChunk : ∀ chunk, f ≠ chunkMarkup chunk) (split : layout chunks decorations = front ++ f :: back) :
    ∃ gap first last, starts chunks decorations gap = first ++ f :: last ∧
      front = (List.range' 0 gap).flatMap (slot chunks decorations) ++
        (List.replicate (ends chunks decorations gap).length .closing ++ first) ∧
      back = last ++ (chunks[gap]?.toList).map chunkMarkup ++
        (List.range' (gap + 1) (chunks.length - gap)).flatMap (slot chunks decorations) := by
  rw [layout_slots] at split
  obtain ⟨before,gap,after,c,d,gaps,here,rfl,rfl⟩ := split_of_flatMap split
  obtain ⟨k,-,rfl,later⟩ := List.range'_eq_append_iff.mp gaps
  obtain ⟨same,-,rfl⟩ := List.range'_eq_cons_iff.mp later.symm
  obtain rfl : k = gap := by omega
  have notChunk : f ∉ (chunks[k]?.toList).map chunkMarkup := by
    simpa using fun chunk _ same => noChunk chunk same.symm
  obtain ⟨last,rfl,inGap⟩ := split_of_not_mem_right here notChunk
  rw [between_eq] at inGap
  obtain ⟨first,rfl,begins⟩ := split_of_not_mem_left inGap (by simp [List.mem_replicate,opens])
  refine ⟨k,first,last,begins,rfl,?_⟩
  rw [Nat.sub_right_comm,Nat.add_sub_cancel]

/-- An opening in a layout stands in the gap where the range of its wrapper starts. -/
theorem opening_split {front back : Markup} {w : Wrapper}
    (split : layout chunks decorations = front ++ .opening w :: back) :
    ∃ span first last, (span,w) ∈ wraps decorations ∧
      starts chunks decorations (gapAt chunks span.start) = first ++ .opening w :: last ∧
      front = (List.range' 0 (gapAt chunks span.start)).flatMap (slot chunks decorations) ++
        (List.replicate (ends chunks decorations (gapAt chunks span.start)).length .closing ++
          first) ∧
      back = last ++ (chunks[gapAt chunks span.start]?.toList).map chunkMarkup ++
        (List.range' (gapAt chunks span.start + 1)
          (chunks.length - gapAt chunks span.start)).flatMap (slot chunks decorations) := by
  obtain ⟨gap,first,last,opens,before,behind⟩ := starts_split (by simp) (by simp [chunkMarkup]) split
  have opening : .opening w ∈ starts chunks decorations gap := by simp [opens]
  obtain ⟨⟨span,w'⟩,begun,same⟩ := (mem_starts opening).resolve_left (by simp)
  obtain rfl := Fragment.opening.inj same
  obtain ⟨isWrap,atGap⟩ := List.mem_filter.mp begun
  obtain rfl : gapAt chunks span.start = gap := by simpa using atGap
  exact ⟨span,first,last,isWrap,opens,before,behind⟩

theorem slots_behind {a b : Nat} (less : a < b) (bound : b ≤ chunks.length) :
    (List.range' (a + 1) (chunks.length - a)).flatMap (slot chunks decorations) =
      (List.range' (a + 1) (b - a - 1)).flatMap (slot chunks decorations) ++
        (slot chunks decorations b ++
          (List.range' (b + 1) (chunks.length - b)).flatMap (slot chunks decorations)) := by
  have count : chunks.length - a = b - a - 1 + (chunks.length - b + 1) := by omega
  have next : a + 1 + (b - a - 1) = b := by omega
  rw [count,← List.range'_append_1,next,List.range'_succ,List.flatMap_append,List.flatMap_cons]

theorem slot_split {b j m : Nat} (closes : (ends chunks decorations b).length = j + (m + 1)) :
    slot chunks decorations b = List.replicate j .closing ++ .closing ::
      (List.replicate m .closing ++ (starts chunks decorations b ++
        (chunks[b]?.toList).map chunkMarkup)) := by
  rw [slot,between_eq,closes,List.replicate_add,List.replicate_succ]
  simp only [List.append_assoc,List.cons_append]

/-- Where a wrapper is opened in a layout, the chunks up to the start of its range are shown, and it is
closed where those up to the end of its range are. -/
theorem Separate.encloses (h : Separate chunks decorations) {front back : Markup} {w : Wrapper}
    (split : layout chunks decorations = front ++ .opening w :: back) :
    ∃ span within rest, .wrap span w ∈ decorations ∧ back = within ++ .closing :: rest ∧
      depth? 0 (pieces within) = some 0 ∧
      plainText front = (chunks.take (gapAt chunks span.start)).flatMap Chunk.text ∧
      plainText (front ++ within) = (chunks.take (gapAt chunks span.stop)).flatMap Chunk.text := by
  obtain ⟨span,first,last,isWrap,opens,rfl,rfl⟩ := opening_split split
  have proper := h.proper _ isWrap
  have bound := gapAt_le chunks span.stop
  have closed := congrArg List.length (h.begins_eq_ends isWrap)
  have middle (depth count : Nat) := h.depth?_inside isWrap depth _ count (Nat.lt_succ_self _)
  have silent := plainText_starts chunks decorations (gapAt chunks span.start)
  have isLast (f : Fragment) (member : f ∈ last) : f = .lineBreak ∨ ∃ w, f = .opening w := by
    have isStart : f ∈ starts chunks decorations (gapAt chunks span.start) := by simp [opens,member]
    exact (mem_starts isStart).imp_right fun h => h.elim fun d h => ⟨d.2,h.2⟩
  simp only at proper closed middle
  revert proper bound closed middle silent opens
  generalize isStart : gapAt chunks span.start = a
  generalize isStop : gapAt chunks span.stop = b
  intro opens proper bound closed middle silent
  -- As many spans end with this one as begin with it, those inside it first.
  rw [← openings_starts,opens,List.filterMap_append,List.length_append] at closed
  have closes : (ends chunks decorations b).length =
      (last.filterMap Fragment.wrapper?).length + ((first.filterMap Fragment.wrapper?).length + 1) := by
    simp only [List.filterMap_cons,Fragment.wrapper?,List.length_cons] at closed
    omega
  rw [opens,plainText_append,List.append_eq_nil_iff] at silent
  obtain ⟨noFirst,noOpening⟩ := silent
  have noLast : plainText last = [] := noOpening
  refine ⟨span,last ++ ((chunks[a]?.toList).map chunkMarkup ++
    ((List.range' (a + 1) (b - a - 1)).flatMap (slot chunks decorations) ++
      List.replicate (last.filterMap Fragment.wrapper?).length .closing)),
    List.replicate (first.filterMap Fragment.wrapper?).length .closing ++
      (starts chunks decorations b ++ ((chunks[b]?.toList).map chunkMarkup ++
        (List.range' (b + 1) (chunks.length - b)).flatMap (slot chunks decorations))),
    (mem_wraps.mp isWrap).1,?_,?_,?_,?_⟩
  · rw [slots_behind proper bound,slot_split closes]
    simp only [List.append_assoc,List.cons_append]
  · rw [depth?_pieces_append,depth?_openings isLast,Option.bind_some,depth?_pieces_append,
      depth?_chunk,Option.bind_some,depth?_pieces_append,middle _ _ (by omega),Option.bind_some,
      depth?_closings]
  · rw [plainText_append,plainText_slots,plainText_append,plainText_closings,noFirst,isStart]
    simp
  · have upTo : List.range' 0 b = List.range' 0 a ++ a :: List.range' (a + 1) (b - a - 1) := by
      have count : b = a + (b - a - 1 + 1) := by omega
      nth_rewrite 1 [count]
      rw [← List.range'_append_1,Nat.zero_add,List.range'_succ]
    have whole := @plainText_slots chunks decorations 0 b
    rw [upTo,List.flatMap_append,List.flatMap_cons,List.drop_zero] at whole
    rw [isStop,← whole,slot]
    simp only [plainText_append,noFirst,noLast,plainText_closings,plainText_between,List.append_nil,
      List.nil_append,List.append_assoc]

end Gaps

end Layout

end CorpusQuery
