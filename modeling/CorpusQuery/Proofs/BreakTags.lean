import CorpusQuery.Proofs.Breaking
import CorpusQuery.Proofs.Chunks
import CorpusQuery.Proofs.Spans
import Mathlib.Data.List.Perm.Basic

/-! Line breaks in HTML. Taking them out of a layout leaves the layout without them, since they change the
order of nothing else; and each stands behind the chunks that are before its offset. -/
namespace CorpusQuery

open Markup Html

/-- What is left of a sorted list is what is left of the list, sorted. -/
theorem List.filter_mergeSort {α : Type} {le : α → α → Bool}
    (trans : ∀ a b c, le a b = true → le b c = true → le a c = true)
    (total : ∀ a b, (le a b || le b a) = true) (p : α → Bool) (l : List α) :
    (l.mergeSort le).filter p = (l.filter p).mergeSort le := by
  -- What goes before an element of a sorted list, and what goes behind it, is told by the order.
  have parts {a : α} {front back : List α} (before : ∀ b ∈ front, (!le a b) = true)
      (behind : ∀ b ∈ back, le a b = true) : front = (front ++ back).filter (!le a ·) ∧
        back = (front ++ back).filter (le a ·) := by
    have empty : back.filter (!le a ·) = [] ∧ front.filter (le a ·) = [] := by
      simp_all [List.filter_eq_nil_iff]
    rw [List.filter_append,List.filter_append,List.filter_eq_self.mpr before,
      List.filter_eq_self.mpr behind,empty.1,empty.2]
    simp
  induction l with
  | nil => simp
  | cons a l ih =>
    obtain ⟨front,back,whole,rest,before⟩ := List.mergeSort_cons trans total a l
    by_cases kept : p a = true
    · obtain ⟨front',back',whole',rest',before'⟩ := List.mergeSort_cons trans total a (l.filter p)
      have behind (l front back : List α) (whole : (a :: l).mergeSort le = front ++ a :: back) :
          ∀ b ∈ back, le a b = true := by
        have sorted := List.pairwise_mergeSort trans total (a :: l)
        rw [whole,List.pairwise_append] at sorted
        exact (List.pairwise_cons.mp sorted.2.1).1
      have same : front' ++ back' = front.filter p ++ back.filter p := by
        rw [← rest',← ih,rest,List.filter_append]
      obtain ⟨isFront',isBack'⟩ := parts before' (behind _ _ _ whole')
      have ⟨isFront,isBack⟩ : front.filter p = (front.filter p ++ back.filter p).filter (!le a ·) ∧
          back.filter p = (front.filter p ++ back.filter p).filter (le a ·) :=
        parts (fun b member => before b (List.mem_filter.mp member).1)
          (fun b member => behind _ _ _ whole b (List.mem_filter.mp member).1)
      rw [same] at isFront' isBack'
      rw [List.filter_cons_of_pos kept,whole,whole',List.filter_append,List.filter_cons_of_pos kept,
        isFront.trans isFront'.symm,isBack.trans isBack'.symm]
    · rw [List.filter_cons_of_neg kept,whole,List.filter_append,List.filter_cons_of_neg kept,
        ← List.filter_append,← rest,ih]

namespace Markup

def eraseBreaks : Text → Text
  | '<' :: 'b' :: 'r' :: ' ' :: '/' :: '>' :: rest => eraseBreaks rest
  | c :: rest => c :: eraseBreaks rest
  | [] => []

def withoutBreaks (m : Markup) : Markup := m.filter (· ≠ .lineBreak)

@[simp] theorem withoutBreaks_append (m m' : Markup) :
    withoutBreaks (m ++ m') = withoutBreaks m ++ withoutBreaks m' := List.filter_append ..

theorem withoutBreaks_eq_self {m : Markup} (absent : .lineBreak ∉ m) : withoutBreaks m = m :=
  List.filter_eq_self.mpr fun _ member => decide_eq_true (ne_of_mem_of_not_mem member absent)

theorem not_mem_closings (count : Nat) : .lineBreak ∉ List.replicate count Fragment.closing := by
  simp [List.mem_replicate]

theorem eraseBreaks_text {t : Text} (plain : ∀ c ∈ t, c ≠ '<') (rest : Text) :
    eraseBreaks (t ++ rest) = t ++ eraseBreaks rest := by
  induction t with
  | nil => rfl
  | cons c t ih =>
    rw [List.forall_mem_cons] at plain
    rw [List.cons_append,eraseBreaks,ih plain.2]
    · rfl
    · exact fun _ isBracket _ => plain.1 isBracket

theorem eraseBreaks_tag {body : Text} (plain : ∀ c ∈ body, c ≠ '<') (other : body.head? ≠ some 'b')
    (rest : Text) : eraseBreaks (tag body ++ rest) = tag body ++ eraseBreaks rest := by
  have inner := eraseBreaks_text (t := body ++ ['>']) (by simpa [or_imp,forall_and] using plain) rest
  rw [tag,List.cons_append,List.cons_append,eraseBreaks,inner]
  · rfl
  · intro _ _ same
    cases body <;> simp_all

theorem head?_classBody (cssClass : String) (attributes : Text) :
    (classBody cssClass attributes).head? = some 's' := by
  have literal : "span class=\"".toList = 's' :: "pan class=\"".toList := by decide
  unfold classBody
  rw [literal]
  generalize "pan class=\"".toList = name
  simp

theorem eraseBreaks_fragment (f : Fragment) (rest : Text) :
    eraseBreaks (f.html ++ rest) = Markup.html (withoutBreaks [f]) ++ eraseBreaks rest := by
  have closes (rest : Text) : eraseBreaks (closeSpan ++ rest) = closeSpan ++ eraseBreaks rest := by
    rw [closeSpan_eq]
    exact eraseBreaks_tag (ne_of_not_mem (by decide)) (by decide) rest
  have content (text rest : Text) : eraseBreaks (escape text ++ rest) =
      escape text ++ eraseBreaks rest :=
    eraseBreaks_text (fun _ member => (not_bracket_of_mem_escape member).1) rest
  have span (cssClass : String) (attributes : Text) :
      (classBody cssClass attributes).head? ≠ some 'b' := by
    rw [head?_classBody]
    decide
  have kept (other : f ≠ .lineBreak) (same : eraseBreaks (f.html ++ rest) = f.html ++ eraseBreaks rest) :
      eraseBreaks (f.html ++ rest) = Markup.html (withoutBreaks [f]) ++ eraseBreaks rest := by
    rw [withoutBreaks_eq_self (by simpa using Ne.symm other),same]
    simp [Markup.html]
  cases f with
  | styled style text =>
    refine kept (by simp) ?_
    cases style with
    | none => exact content text rest
    | some style =>
      simp only [Fragment.html,List.append_assoc]
      rw [classSpan_eq,eraseBreaks_tag (style.ne_of_mem_body (.inl rfl)) (span _ _),content,closes]
  | opening w =>
    refine kept (by simp) ?_
    rw [Fragment.html,w.html_eq]
    exact eraseBreaks_tag (w.ne_of_mem_body (.inl rfl)) (by cases w <;> exact span _ _) rest
  | closing => exact kept (by simp) (closes rest)
  | lineBreak => rfl
  | unrecognized title text =>
    refine kept (by simp) ?_
    simp only [Fragment.html,List.append_assoc]
    rw [classSpan_eq,← unrecognizedAttributes,
      eraseBreaks_tag (ne_of_mem_unrecognized (.inl rfl) title) (span _ _),content,closes]

/-- Deleting line breaks from HTML takes those of the markup, and nothing else. -/
theorem eraseBreaks_html (m : Markup) :
    eraseBreaks (Markup.html m) = Markup.html (withoutBreaks m) := by
  induction m with
  | nil => rfl
  | cons f rest ih =>
    change eraseBreaks (f.html ++ Markup.html rest) = Markup.html (withoutBreaks ([f] ++ rest))
    rw [eraseBreaks_fragment,ih,withoutBreaks_append]
    exact List.flatMap_append.symm

end Markup

namespace Layout

theorem filterMap_opening?_wraps (chunks : List Chunk) (decorations : List Decoration) :
    (decorations.filter (·.isWrap)).filterMap (opening? chunks) =
      (decorations.filterMap (opening? chunks)).filter fun x => x.fragment ≠ .lineBreak := by
  induction decorations with
  | nil => rfl
  | cons d rest ih =>
    cases d with
    | wrap span w =>
      have isWrap : (Decoration.wrap span w).isWrap = true := rfl
      rw [List.filter_cons_of_pos isWrap,List.filterMap_cons,List.filterMap_cons,ih]
      cases empty : span.isEmpty <;> simp [opening?,empty]
    | lineBreak offset =>
      rw [List.filter_cons_of_neg (by simp [Decoration.isWrap]),ih,List.filterMap_cons]
      simp [opening?]

/-- Without breaks, what is left in a gap is what other decorations put there. -/
theorem withoutBreaks_between (chunks : List Chunk) (decorations : List Decoration) (gap : Nat) :
    withoutBreaks (between chunks decorations gap) =
      between chunks (decorations.filter (·.isWrap)) gap := by
  have starts_eq : withoutBreaks (starts chunks decorations gap) =
      starts chunks (decorations.filter (·.isWrap)) gap := by
    rw [withoutBreaks,starts,List.filter_map,List.filter_mergeSort,starts,filterMap_opening?_wraps]
    · simp only [List.filter_filter,Bool.and_comm]
      rfl
    · simp only [decide_eq_true_eq]
      omega
    · simp only [Bool.or_eq_true,decide_eq_true_eq]
      omega
  have ends_eq : ends chunks (decorations.filter (·.isWrap)) gap = ends chunks decorations gap := by
    unfold ends wraps
    rw [List.filterMap_filter]
    congr 1
    refine List.filterMap_congr fun d _ => ?_
    cases d <;> rfl
  rw [between_eq,between_eq,withoutBreaks_append,starts_eq,ends_eq,
    withoutBreaks_eq_self (not_mem_closings _)]

theorem withoutBreaks_body (chunks front : List Chunk) (decorations : List Decoration) :
    withoutBreaks (body (between chunks decorations) front) =
      body (between chunks (decorations.filter (·.isWrap))) front := by
  induction front using List.reverseRecOn with
  | nil => rfl
  | append_singleton front chunk ih =>
    have kept : withoutBreaks [chunkMarkup chunk] = [chunkMarkup chunk] :=
      withoutBreaks_eq_self (by simp [chunkMarkup])
    rw [body_concat,body_concat,withoutBreaks_append,withoutBreaks_append,ih,withoutBreaks_between,
      kept]

theorem withoutBreaks_layout (chunks : List Chunk) (decorations : List Decoration) :
    withoutBreaks (layout chunks decorations) = layout chunks (decorations.filter (·.isWrap)) := by
  rw [CorpusQuery.layout_eq,CorpusQuery.layout_eq,withoutBreaks_append,withoutBreaks_body,
    withoutBreaks_between]

end Layout

/-! ### Where lines are broken -/

namespace Html

def breakPiece : Piece := .tag "br /".toList

def breakOffsets (before : Nat) : List Piece → List Nat
  | [] => []
  | p :: rest =>
    if p = breakPiece then before :: breakOffsets before rest
    else breakOffsets (before + Text.byteLength p.shown) rest

example : breakOffsets 0 (read "<b>a&lt;</b><br />c<br />".toList) = [2,3] := by decide

theorem breakOffsets_append (before : Nat) (pieces more : List Piece) :
    breakOffsets before (pieces ++ more) = breakOffsets before pieces ++
      breakOffsets (before + Text.byteLength (shown pieces)) more := by
  induction pieces generalizing before with
  | nil => rfl
  | cons p rest ih =>
    have whole : shown (p :: rest) = p.shown ++ shown rest := rfl
    rw [List.cons_append,breakOffsets,breakOffsets,whole,Text.byteLength_append,← Nat.add_assoc]
    split
    next isBreak =>
      rw [ih,isBreak]
      rfl
    next => exact ih _

theorem breakOffsets_of_not_mem {pieces : List Piece} (absent : breakPiece ∉ pieces)
    (before : Nat) : breakOffsets before pieces = [] := by
  induction pieces generalizing before with
  | nil => rfl
  | cons p rest ih =>
    rw [List.mem_cons,not_or] at absent
    rw [breakOffsets,if_neg (Ne.symm absent.1),ih absent.2]

theorem not_mem_ofText (t : Text) : breakPiece ∉ ofText t := by
  intro member
  obtain ⟨c,-,same⟩ := List.mem_map.mp member
  unfold ofChar breakPiece at same
  split_ifs at same

end Html

namespace Markup

theorem not_mem_pieces {f : Fragment} (other : f ≠ .lineBreak) : breakPiece ∉ f.pieces := by
  have differs (cssClass : String) (attributes : Text) :
      breakPiece ≠ .tag (classBody cssClass attributes) := fun same =>
    absurd (congrArg List.head? (Piece.tag.inj same)) (by rw [head?_classBody]; decide)
  have closes : breakPiece ≠ Fragment.closingPiece := by decide
  cases f with
  | styled style text =>
    cases style with
    | none => exact not_mem_ofText text
    | some style => simp [Fragment.pieces,not_mem_ofText,differs,closes]
  | opening w => cases w <;> simp [Fragment.pieces,Wrapper.body,differs]
  | closing => simp [Fragment.pieces,closes]
  | lineBreak => exact absurd rfl other
  | unrecognized title text => simp [Fragment.pieces,not_mem_ofText,differs,closes]

theorem split_of_breakPiece {m : Markup} {i : Nat} (at_ : (pieces m)[i]? = some breakPiece) :
    ∃ front back, m = front ++ .lineBreak :: back ∧ (pieces m).take i = pieces front ∧
      (pieces m).drop (i + 1) = pieces back := by
  obtain ⟨front,f,back,before,after,isMarkup,isFragment,upTo,behind⟩ := split_of_getElem? at_
  obtain rfl : f = .lineBreak := by
    by_contra other
    exact not_mem_pieces other (by simp [isFragment])
  have alone : [breakPiece] = before ++ breakPiece :: after := isFragment
  obtain ⟨rfl,same⟩ := List.append_eq_singleton_iff.mp alone.symm |>.resolve_right (by simp)
  obtain ⟨-,rfl⟩ := List.cons.inj same
  exact ⟨front,back,isMarkup,by rw [upTo,List.append_nil],behind⟩

theorem breakOffsets_of_unbroken {m : Markup} (absent : .lineBreak ∉ m) (before : Nat) :
    breakOffsets before (pieces m) = [] := by
  refine breakOffsets_of_not_mem (fun member => ?_) before
  obtain ⟨f,inMarkup,isPiece⟩ := List.mem_flatMap.mp member
  exact not_mem_pieces (ne_of_mem_of_not_mem inMarkup absent) isPiece

/-- Breaks with no text between them have one offset. -/
theorem breakOffsets_of_silent {m : Markup} (silent : plainText m = []) (before : Nat) :
    breakOffsets before (pieces m) = List.replicate (m.count .lineBreak) before := by
  induction m with
  | nil => rfl
  | cons f rest ih =>
    have parts : fragmentText f ++ plainText rest = [] := silent
    rw [List.append_eq_nil_iff] at parts
    rw [pieces_cons,breakOffsets_append,f.shown_pieces,parts.1,Text.byteLength_nil,Nat.add_zero,
      ih parts.2]
    by_cases isBreak : f = .lineBreak
    · rw [isBreak,List.count_cons_self,List.replicate_succ]
      rfl
    · rw [breakOffsets_of_not_mem (not_mem_pieces isBreak),List.count_cons_of_ne isBreak]
      rfl

end Markup

namespace Layout

variable {chunks : List Chunk} {decorations : List Decoration}

theorem count_starts (gap : Nat) : (starts chunks decorations gap).count .lineBreak =
    ((decorations.filterMap (·.offset?)).filter (gapAt chunks · = gap)).length := by
  rw [starts,((List.mergeSort_perm ..).map _).count_eq]
  induction decorations with
  | nil => rfl
  | cons d rest ih =>
    cases d with
    | wrap span w =>
      have noOffset : (Decoration.wrap span w).offset? = none := rfl
      rw [List.filterMap_cons_none noOffset,← ih]
      cases empty : span.isEmpty with
      | true => simp [opening?,empty]
      | false => by_cases here : gapAt chunks span.start = gap <;> simp [opening?,empty,here]
    | lineBreak offset =>
      have hasOffset : (Decoration.lineBreak offset).offset? = some offset := rfl
      rw [List.filterMap_cons_some hasOffset]
      by_cases here : gapAt chunks offset = gap <;> simp [opening?,here,← ih]

theorem breakOffsets_slot (before gap : Nat) :
    breakOffsets before (pieces (slot chunks decorations gap)) = List.replicate
      ((decorations.filterMap (·.offset?)).filter (gapAt chunks · = gap)).length before := by
  have noChunk : Fragment.lineBreak ∉ (chunks[gap]?.toList).map chunkMarkup := by simp [chunkMarkup]
  rw [slot,pieces_append,breakOffsets_append,breakOffsets_of_unbroken noChunk,
    breakOffsets_of_silent (plainText_between ..),List.append_nil,between_eq,List.count_append,
    List.count_eq_zero.mpr (not_mem_closings _),Nat.zero_add,count_starts]

/-- Items put in order by a number are the same items. -/
theorem perm_flatMap_filter {α : Type} (f : α → Nat) {count : Nat} {l : List α}
    (bound : ∀ x ∈ l, f x < count) :
    ((List.range' 0 count).flatMap fun i => l.filter (f · = i)).Perm l := by
  induction count generalizing l with
  | zero =>
    have empty : l = [] := List.eq_nil_iff_forall_not_mem.mpr fun x member =>
      absurd (bound x member) (Nat.not_lt_zero _)
    rw [empty]
    rfl
  | succ count ih =>
    have below : (List.range' 0 count).flatMap (fun i => l.filter (f · = i)) =
        (List.range' 0 count).flatMap fun i => (l.filter (f · < count)).filter (f · = i) := by
      refine List.flatMap_congr fun i member => ?_
      have less : i < count := by simpa using member
      rw [List.filter_filter]
      refine List.filter_congr fun x _ => ?_
      simp only [← Bool.decide_and,decide_eq_decide]
      omega
    have last : l.filter (f · = count) = l.filter fun x => !decide (f x < count) := by
      refine List.filter_congr fun x member => ?_
      have := bound x member
      simp only [← decide_not,decide_eq_decide]
      omega
    rw [List.range'_concat,List.flatMap_append,below,Nat.one_mul,Nat.zero_add,List.flatMap_singleton,last]
    refine ((ih fun x member => ?_).append_right _).trans (List.filter_append_perm ..)
    simpa using (List.mem_filter.mp member).2

/-- In the first slots of a layout, the breaks of a gap are those that its offsets ask for. -/
theorem breakOffsets_slots (placed : ∀ n ∈ decorations.filterMap (·.offset?),
      Text.byteLength ((chunks.take (gapAt chunks n)).flatMap Chunk.text) = n) (count : Nat) :
    breakOffsets 0 (pieces ((List.range' 0 count).flatMap (slot chunks decorations))) =
      (List.range' 0 count).flatMap fun gap =>
        (decorations.filterMap (·.offset?)).filter (gapAt chunks · = gap) := by
  induction count with
  | zero => rfl
  | succ count ih =>
    have here : (decorations.filterMap (·.offset?)).filter (gapAt chunks · = count) =
        List.replicate ((decorations.filterMap (·.offset?)).filter (gapAt chunks · = count)).length
          (Text.byteLength ((chunks.take count).flatMap Chunk.text)) := by
      refine List.eq_replicate_iff.mpr ⟨rfl,fun n member => ?_⟩
      obtain ⟨isBreak,atGap⟩ := List.mem_filter.mp member
      rw [← of_decide_eq_true atGap,placed n isBreak]
    have shown_ := @plainText_slots chunks decorations 0 count
    rw [List.drop_zero] at shown_
    rw [List.range'_concat,List.flatMap_append,List.flatMap_append,pieces_append,breakOffsets_append,
      ih,Markup.shown_pieces,shown_,Nat.one_mul,Nat.zero_add,List.flatMap_singleton,
      List.flatMap_singleton,breakOffsets_slot,Nat.zero_add,← here]

/-- In a layout each line is broken at its offset, when chunks have just the bytes up to there. -/
theorem breakOffsets_layout (placed : ∀ n ∈ decorations.filterMap (·.offset?),
      Text.byteLength ((chunks.take (gapAt chunks n)).flatMap Chunk.text) = n) :
    (breakOffsets 0 (pieces (layout chunks decorations))).Perm
      (decorations.filterMap (·.offset?)) := by
  rw [layout_slots,breakOffsets_slots placed]
  exact perm_flatMap_filter _ fun n _ => Nat.lt_succ_of_le (gapAt_le chunks n)

theorem exists_offset (member : .lineBreak ∈ starts chunks decorations gap) :
    ∃ n ∈ decorations.filterMap (·.offset?), gapAt chunks n = gap := by
  have counted := List.count_pos_iff.mpr member
  rw [count_starts] at counted
  obtain ⟨n,isBreak⟩ := List.exists_mem_of_length_pos counted
  obtain ⟨isOffset,atGap⟩ := List.mem_filter.mp isBreak
  exact ⟨n,isOffset,of_decide_eq_true atGap⟩

/-- Where no line is broken twice, and chunks have the bytes up to each break, a break that begins in a gap
with no wrapper is the last there. -/
theorem last_of_break (nodup : (decorations.filterMap (·.offset?)).Nodup)
    (placed : ∀ n ∈ decorations.filterMap (·.offset?),
      Text.byteLength ((chunks.take (gapAt chunks n)).flatMap Chunk.text) = n)
    (breaks : ∀ f ∈ starts chunks decorations gap, f = .lineBreak) {first last : Markup}
    (split : starts chunks decorations gap = first ++ .lineBreak :: last) : last = [] := by
  have one : (starts chunks decorations gap).count .lineBreak ≤ 1 := by
    have same : (decorations.filterMap (·.offset?)).filter (gapAt chunks · = gap) ⊆
        [Text.byteLength ((chunks.take gap).flatMap Chunk.text)] := by
      intro n member
      obtain ⟨isOffset,atGap⟩ := List.mem_filter.mp member
      rw [List.mem_singleton,← of_decide_eq_true atGap,placed n isOffset]
    rw [count_starts]
    exact (List.subperm_of_subset (nodup.filter _) same).length_le
  cases last with
  | nil => rfl
  | cons f rest =>
    have isBreak : f = .lineBreak := breaks f (by simp [split])
    rw [split,isBreak] at one
    simp only [List.count_append,List.count_cons_self] at one
    omega

theorem chunk_behind_break (nodup : (decorations.filterMap (·.offset?)).Nodup)
    (placed : ∀ n ∈ decorations.filterMap (·.offset?),
      Text.byteLength ((chunks.take (gapAt chunks n)).flatMap Chunk.text) = n)
    (sorted : chunks.Pairwise fun a b => a.start < b.start) {chunk : Chunk} (member : chunk ∈ chunks)
    (breaks : ∀ f ∈ starts chunks decorations (gapAt chunks chunk.start), f = .lineBreak)
    {front back : Markup} (here : chunk.start = Text.byteLength (plainText front))
    (split : layout chunks decorations = front ++ .lineBreak :: back) :
    ∃ later, back = chunkMarkup chunk :: later := by
  obtain ⟨gap,first,last,begins,rfl,rfl⟩ := starts_split (by simp) (by simp [chunkMarkup]) split
  have isBreak : .lineBreak ∈ starts chunks decorations gap := by simp [begins]
  obtain ⟨n,isOffset,rfl⟩ := exists_offset isBreak
  have noFirst : plainText first = [] := by
    have silent := plainText_starts chunks decorations (gapAt chunks n)
    rw [begins,plainText_append,List.append_eq_nil_iff] at silent
    exact silent.1
  -- The text up to the break tells its offset, so the chunk starts there.
  rw [plainText_append,plainText_slots,plainText_append,noFirst,plainText_closings,List.append_nil,List.drop_zero,
    List.append_nil,placed n isOffset] at here
  subst here
  obtain rfl := last_of_break nodup placed breaks begins
  obtain ⟨A,B,rfl⟩ := List.append_of_mem member
  have atGap : (A ++ chunk :: B)[gapAt (A ++ chunk :: B) chunk.start]? = some chunk := by
    rw [gapAt_start sorted]
    simp
  rw [atGap]
  exact ⟨_,rfl⟩

end Layout

end CorpusQuery
