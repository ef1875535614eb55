import CorpusQuery.Highlighter
import CorpusQuery.Proofs.Chunks
import CorpusQuery.Proofs.PlainText

/-! Rendering loses no character of a query. The chunks of a pass are the text that it could use;
what is left goes to skipped text and to later passes. -/
namespace CorpusQuery

open Markup

namespace Highlighter

theorem pass_split (t : Text) (start : StartRule) (o : DecorateOptions) :
    plainText (pass t start o).rendering.markup <+: t ∧ (pass t start o).consumed =
      Text.byteLength (plainText (pass t start o).rendering.markup) := by
  obtain ⟨x⟩ := reading (t ++ start.ending) start
  obtain ⟨middle,left,split,shows_⟩ := x.shows
  have shown : plainText (pass t start o).rendering.markup = middle := by
    change plainText (layout (SpanTable.ofEvents t _).chunks _) = _
    rw [plainText_layout,shows_.text]
  have consumed : (pass t start o).consumed = middle.byteLength := by
    change min ((SpanTable.Builder.start t).run _).1.reach t.byteLength = _
    rw [x.reach_eq]
    exact shows_.reach
  rw [shown,consumed]
  exact ⟨⟨left,split.symm⟩,rfl⟩

theorem pass_text (t : Text) (start : StartRule) (o : DecorateOptions) :
    plainText (pass t start o).rendering.markup ++ remainder t (pass t start o).consumed = t := by
  obtain ⟨isPrefix,consumed⟩ := pass_split t start o
  rw [consumed,remainder]
  revert isPrefix
  generalize plainText (pass t start o).rendering.markup = shown
  rintro ⟨left,rfl⟩
  rw [Text.dropBytes?_append]
  rfl

theorem splitWord_append (t : Text) :
    (splitWord t).1 ++ (splitWord t).2.1 ++ (splitWord t).2.2 = t := by
  simp [splitWord]

structure Passes (h : Highlighter) (v : Vocabulary) (depth : Nat) (start : StartRule)
    (fallbacks : List StartRule) (p : Passage) : Prop where
  reads : p.pass = pass p.text p.start (h.options v p.depth)
  /-- What is skipped stands right behind what the pass used. -/
  skips : p.skipped <+: remainder p.text p.pass.consumed
  depth_le : depth ≤ p.depth
  rules : p.start :: p.fallbacks <:+ start :: fallbacks

theorem passes_of_mem (h : Highlighter) (v : Vocabulary) (depth : Nat) (start : StartRule)
    (fallbacks : List StartRule) (t : Text) :
    ∀ p ∈ h.passages v depth start fallbacks t, h.Passes v depth start fallbacks p := by
  fun_induction passages h v depth start fallbacks t with
  | case1 =>
    intro p member
    obtain rfl := List.mem_singleton.mp member
    exact ⟨rfl,List.nil_prefix,Nat.le_refl _,List.suffix_rfl⟩
  | case2 =>
    intro p member
    obtain rfl := List.mem_singleton.mp member
    exact ⟨rfl,List.prefix_rfl,Nat.le_refl _,List.suffix_rfl⟩
  | case3 depth start t pass left _ next later split rest stop ihSame ihNext =>
    intro p member
    rcases List.mem_cons.mp member with rfl | onward
    · exact ⟨rfl,⟨rest,splitWord_append left⟩,Nat.le_refl _,List.suffix_rfl⟩
    · split_ifs at onward
      · simp at onward
      · have same := ihSame p onward
        exact { same with depth_le := Nat.le_of_succ_le same.depth_le }
      · have fewer := ihNext p onward
        exact { fewer with
          depth_le := Nat.le_of_succ_le fewer.depth_le
          rules := fewer.rules.trans (List.suffix_cons ..) }

/-- What was skipped is shown as unrecognized by the first pass, and as it is by the later ones. -/
theorem skippedMarkup_cases (p : Passage) (w : Wording) :
    p.skipped = [] ∧ p.skippedMarkup w = [] ∨
    p.depth = 0 ∧ (∃ title, p.skippedMarkup w = [.unrecognized title p.skipped]) ∨
    p.depth ≠ 0 ∧ p.skippedMarkup w = [.styled none p.skipped] := by
  unfold Passage.skippedMarkup
  split
  next empty => exact .inl ⟨empty,rfl⟩
  next =>
    split
    next first => exact .inr (.inl ⟨first,_,rfl⟩)
    next later => exact .inr (.inr ⟨later,rfl⟩)

theorem plainText_passage (p : Passage) (w : Wording) :
    plainText (p.markup w) = plainText p.pass.rendering.markup ++ p.skipped := by
  have skipped : plainText (p.skippedMarkup w) = p.skipped := by
    rcases skippedMarkup_cases p w with ⟨empty,same⟩ | ⟨-,title,same⟩ | ⟨-,same⟩
    · rw [same,empty]
      rfl
    all_goals simp [same,plainText,fragmentText]
  rw [Passage.markup,plainText_append,skipped]

theorem passages_text (h : Highlighter) (v : Vocabulary) (depth : Nat) (start : StartRule)
    (fallbacks : List StartRule) (t : Text) :
    (h.passages v depth start fallbacks t).flatMap (fun p => plainText (p.markup h.wording)) = t := by
  fun_induction passages h v depth start fallbacks t with
  | case1 depth start _ t pass left _ nothingLeft =>
    have shown : plainText pass.rendering.markup ++ left = t := pass_text t start _
    rw [List.flatMap_singleton,plainText_passage,← nothingLeft]
    exact shown
  | case2 depth start t pass left =>
    have shown : plainText pass.rendering.markup ++ left = t := pass_text t start _
    rw [List.flatMap_singleton,plainText_passage]
    exact shown
  | case3 depth start t pass left _ next later split rest stop ihSame ihNext =>
    have shown : plainText pass.rendering.markup ++ left = t := pass_text t start _
    have parts : split.1 ++ split.2.1 ++ rest = left := splitWord_append left
    have onward : (if rest = [] then []
        else if split.1 = [] then h.passages v (depth + 1) start (next :: later) rest
        else h.passages v (depth + 1) next later rest).flatMap
          (fun p => plainText (p.markup h.wording)) = rest := by
      split_ifs with empty sameRule
      · exact empty.symm
      · exact ihSame
      · exact ihNext
    rw [List.flatMap_cons,onward,plainText_passage,List.append_assoc]
    change plainText pass.rendering.markup ++ (split.1 ++ split.2.1 ++ rest) = t
    rw [parts,shown]

theorem allPassages_text (h : Highlighter) (v : Vocabulary) (query : Text) :
    (h.allPassages v query).flatMap (fun p => plainText (p.markup h.wording)) = query := by
  unfold allPassages
  split
  next empty => exact empty.symm
  next => exact h.passages_text v ..

/-- Without its tags, and its entities decoded, the markup of a query is the query: no character is
lost, added or moved, whatever the start rules, the vocabulary, the labels and the options are. -/
theorem decode_stripTags_render (h : Highlighter) (query : Text) (v : Option Vocabulary) :
    decode (stripTags false (Markup.html (h.render query v).markup)) = query := by
  rw [decode_stripTags_html]
  simp only [render,plainText,List.flatMap_assoc]
  exact h.allPassages_text _ query

end Highlighter

end CorpusQuery
