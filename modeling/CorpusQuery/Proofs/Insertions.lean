import CorpusQuery.Proofs.Breaking
import CorpusQuery.Proofs.Recovery

/-! What options put into a text. Without wrappers, the tags that close them and line breaks, the HTML of a
table is that of its chunks one after the other, whatever ranges were registered and however they cross. -/
namespace CorpusQuery

open Markup Html

namespace Html

def Piece.wraps (p : Piece) : Bool := p.hasClass "sh-tooltip" || p.hasClass "sh-clickable"

/-- Pieces without line breaks, without wrappers and without the tags that close these. Of the spans that are
open, innermost first, the stack says whether they are wrappers. A wrapper round no chunk is closed before it
is opened, so a tag that closes no open span closes a wrapper. -/
def bare : List Bool → List Piece → List Piece
  | _,[] => []
  | stack,p :: rest =>
    if p.opens then
      if p.wraps then bare (true :: stack) rest else p :: bare (false :: stack) rest
    else if p.closes then
      if stack.headD true then bare stack.tail rest else p :: bare stack.tail rest
    else if p = .tag "br /".toList then bare stack rest
    else p :: bare stack rest

/-- HTML without what options put into it. -/
def withoutInsertions (html : Text) : Text := (bare [] (read html)).flatMap Piece.html

example : withoutInsertions
    "<span class=\"sh-tooltip\" title=\"t\"><span class=\"sh-attr\">a</span></span><br />b".toList =
    "<span class=\"sh-attr\">a</span>b".toList := by decide

theorem bare_ofText (stack : List Bool) (t : Text) (rest : List Piece) :
    bare stack (ofText t ++ rest) = ofText t ++ bare stack rest := by
  induction t with
  | nil => rfl
  | cons c t ih =>
    have kept : bare stack (ofChar c :: (ofText t ++ rest)) =
        ofChar c :: bare stack (ofText t ++ rest) := by
      unfold ofChar
      split_ifs <;> rfl
    exact kept.trans (congrArg (ofChar c :: ·) ih)

theorem wraps_wrapper (w : Wrapper) : (Piece.tag w.body).wraps = true := by
  cases w with
  | tooltip title => exact Bool.or_eq_true_iff.mpr (.inl (hasClass_self ..))
  | clickable kind left right => exact Bool.or_eq_true_iff.mpr (.inr (hasClass_self ..))

theorem wraps_classBody {cssClass : String} (other : cssClass ∈ "sh-unrecognized" :: styleNames)
    (attributes : Text) : (Piece.tag (classBody cssClass attributes)).wraps = false := by
  have known : cssClass ∈ classNames ∧ cssClass ≠ "sh-tooltip" ∧ cssClass ≠ "sh-clickable" := by
    revert cssClass
    decide
  rw [Piece.wraps,Bool.or_eq_false_iff,← Bool.not_eq_true,← Bool.not_eq_true]
  exact ⟨fun has => known.2.1 (eq_of_hasClass (by decide) known.1 has).symm,
    fun has => known.2.2 (eq_of_hasClass (by decide) known.1 has).symm⟩

theorem bare_tagged {cssClass : String} (other : cssClass ∈ "sh-unrecognized" :: styleNames)
    (attributes t : Text) (stack : List Bool) (rest : List Piece) :
    bare stack ((.tag (classBody cssClass attributes) :: ofText t ++ [Fragment.closingPiece]) ++ rest) =
      (.tag (classBody cssClass attributes) :: ofText t ++ [Fragment.closingPiece]) ++
        bare stack rest := by
  have closes : bare (false :: stack) (Fragment.closingPiece :: rest) =
      Fragment.closingPiece :: bare stack rest := rfl
  simp only [List.cons_append,List.append_assoc,List.nil_append]
  rw [bare,if_pos (Fragment.opens_classBody ..),wraps_classBody other,if_neg Bool.false_ne_true,
    bare_ofText,closes]

end Html

def Fragment.inserted : Fragment → Bool
  | .opening _ | .closing | .lineBreak => true
  | .styled .. | .unrecognized .. => false

namespace Markup

theorem flatMap_html_pieces (m : Markup) : (pieces m).flatMap Piece.html = Markup.html m := by
  rw [← Markup.read_html,flatMap_html_read]

theorem bare_pieces (depth : Nat) (m : Markup) :
    bare (List.replicate depth true) (pieces m) = pieces (m.filter (!·.inserted)) := by
  induction m generalizing depth with
  | nil => cases depth <;> rfl
  | cons f rest ih =>
    rw [pieces_cons]
    cases f with
    | styled style text =>
      have kept : bare (List.replicate depth true) ((Fragment.styled style text).pieces ++ pieces rest) =
          (Fragment.styled style text).pieces ++ bare (List.replicate depth true) (pieces rest) := by
        cases style with
        | none => exact bare_ofText ..
        | some style => exact bare_tagged (by cases style <;> decide) [] text _ _
      rw [kept,ih]
      rfl
    | unrecognized title text =>
      have isClass : "sh-unrecognized" ∈ "sh-unrecognized" :: styleNames := List.mem_cons_self
      have kept := bare_tagged isClass (unrecognizedAttributes title) text (List.replicate depth true)
        (pieces rest)
      exact kept.trans (congrArg _ (ih depth))
    | opening w =>
      have opens : (Piece.tag w.body).opens = true := by cases w <;> exact Fragment.opens_classBody ..
      rw [Fragment.pieces,List.singleton_append,bare,if_pos opens,if_pos (wraps_wrapper w)]
      exact ih (depth + 1)
    | closing =>
      cases depth with
      | zero => exact ih 0
      | succ depth => exact ih depth
    | lineBreak => exact ih depth

theorem withoutInsertions_html (m : Markup) :
    withoutInsertions (Markup.html m) = Markup.html (m.filter (!·.inserted)) := by
  have pieces := bare_pieces 0 m
  rw [List.replicate_zero] at pieces
  rw [withoutInsertions,Markup.read_html,pieces,flatMap_html_pieces]

end Markup

namespace Layout

theorem filter_between (chunks : List Chunk) (decorations : List Decoration) (gap : Nat) :
    (between chunks decorations gap).filter (!·.inserted) = [] := by
  rw [List.filter_eq_nil_iff]
  intro f member
  rw [between_eq,List.mem_append] at member
  rcases member with ends | begins
  · simp [List.eq_of_mem_replicate ends,Fragment.inserted]
  · rcases mem_starts begins with rfl | ⟨d,-,rfl⟩ <;> simp [Fragment.inserted]

theorem filter_body {gap : Nat → Markup} (empty : ∀ i, (gap i).filter (!·.inserted) = [])
    (chunks : List Chunk) : (body gap chunks).filter (!·.inserted) = chunks.map chunkMarkup := by
  induction chunks using List.reverseRecOn with
  | nil => rfl
  | append_singleton chunks chunk ih =>
    rw [body_concat,List.filter_append,List.filter_append,ih,empty,List.append_nil,List.map_append]
    rfl

end Layout

open Layout

theorem filter_layout (chunks : List Chunk) (decorations : List Decoration) :
    (layout chunks decorations).filter (!·.inserted) = chunks.map chunkMarkup := by
  rw [layout_eq,List.filter_append,filter_between,List.append_nil]
  exact filter_body (filter_between chunks decorations) chunks

namespace SpanTable

/-- Options insert fragments between the chunks of a table and change nothing else. -/
structure OnlyInserts (table : SpanTable) : Prop where
  /-- Without what is inserted, the chunks are left as they are, in order. -/
  erased : ∀ o, withoutInsertions (table.render o).markup.html =
    table.chunks.flatMap fun chunk => (chunkMarkup chunk).html
  /-- So they are without a vocabulary and without breaks. -/
  plain : ∀ w, (table.render { wording := w }).markup.html =
    table.chunks.flatMap fun chunk => (chunkMarkup chunk).html
  /-- The text that is shown is the same with any options. -/
  shown : ∀ o o', decode (stripTags false (table.render o).markup.html) =
    decode (stripTags false (table.render o').markup.html)
  hint : ∀ o wraps, (table.render { o with wrapLines := wraps }).hint = (table.render o).hint

/-- Options never touch the styled text of a table, whatever symbols are registered in it. -/
theorem render_onlyInserts (table : SpanTable) : table.OnlyInserts := by
  have chunksHtml : Markup.html (table.chunks.map chunkMarkup) =
      table.chunks.flatMap fun chunk => (chunkMarkup chunk).html := by
    rw [Markup.html,List.flatMap_map]
  refine ⟨?_,?_,?_,?_⟩
  · intro o
    rw [withoutInsertions_html,render,filter_layout,chunksHtml]
  · intro w
    have unvisited : (table.notes { wording := w }).decorations = [] :=
      notes_induction (P := (·.decorations = [])) rfl (by simp) (by simp)
    rw [← chunksHtml,render,unvisited,layout_nil]
  · intro o o'
    rw [decode_stripTags_html,decode_stripTags_html,render,render,plainText_layout,plainText_layout]
  · intro o wraps
    rw [hint_render_wrapLines,← hint_render_wrapLines table o o.wrapLines]

end SpanTable

end CorpusQuery
