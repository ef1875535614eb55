import CorpusQuery.Proofs.Misses
import CorpusQuery.Proofs.Origin
import CorpusQuery.Proofs.Places

/-! What is said of unrecognized text. The first pass stops where its parse missed something, so the title
of the text that it skips names the character with which that text begins, and its column. -/
namespace CorpusQuery

open Markup Html

theorem Text.charAt?_of_prefix {before rest t : Text} {c : Char} (h : before ++ c :: rest <+: t) :
    t.charAt? before.byteLength = some c := by
  obtain ⟨after,rfl⟩ := h
  rw [charAt?,List.append_assoc,dropBytes?_append]
  rfl

/-- The title of text that was skipped: with which character it begins, and in which column. -/
def Wording.skipped (w : Wording) (c : Char) (column : Nat) : Text :=
  w.unrecognizedInput.toList ++ [':',' ','\x27',c,'\x27',',',' '] ++ w.column.toList ++
    ' ' :: number column

theorem Wording.unrecognized_eq (w : Wording) (c : Char) (column : Nat) :
    (w.unrecognized (some c) column).toList = w.skipped c column := by
  have marks : (": ".toList = [':',' '] ∧ "\x27".toList = ['\x27'] ∧ ", ".toList = [',',' '] ∧
      " ".toList = [' ']) := by decide
  simp [unrecognized,skipped,marks,number,toString]

/-- The tag at `i` marks text that was skipped. It encloses some text of the query, and its title names the
first character of that and the place of it, counted from one. -/
inductive Html.UnrecognizedAt (query : Text) (w : Wording) (pieces : List Piece) (i : Nat) : Prop where
  | intro : before ++ c :: rest <+: query →
      pieces[i]? = some (.tag (OpeningTag.unrecognized (escape (w.skipped c (before.length + 1)))).body) →
      Encloses pieces i before (c :: rest) → UnrecognizedAt query w pieces i

/-- HTML marks skipped text once at most, and says where it stands. -/
structure Html.Diagnosed (query : Text) (w : Wording) (pieces : List Piece) : Prop where
  single : pieces.countP (Piece.hasClass "sh-unrecognized") ≤ 1
  skipped : ∀ i p, pieces[i]? = some p → p.hasClass "sh-unrecognized" = true →
    UnrecognizedAt query w pieces i

theorem Fragment.countP_unrecognized (title t : Text) :
    (Markup.pieces [.unrecognized title t]).countP (Piece.hasClass "sh-unrecognized") ≤ 1 := by
  have zero : (ofText t ++ [closingPiece]).countP (Piece.hasClass "sh-unrecognized") = 0 := by
    rw [List.countP_eq_zero]
    intro p member isClass
    rcases List.mem_append.mp member with inText | closes
    · simp [not_hasClass_ofText _ p inText] at isClass
    · rw [List.mem_singleton.mp closes,not_hasClass_closing _ (by decide)] at isClass
      cases isClass
  rw [pieces_cons,Fragment.pieces,List.cons_append,List.cons_append]
  change List.countP _ (_ :: ((ofText t ++ [closingPiece]) ++ [])) ≤ 1
  rw [List.append_nil,List.countP_cons,zero]
  split <;> simp

theorem Markup.countP_hasClass_eq_zero {m : Markup} {cssClass : String} (known : cssClass ∈ classNames)
    (others : ∀ f ∈ m, f.cssClass? ≠ some cssClass) :
    (pieces m).countP (Piece.hasClass cssClass) = 0 := by
  rw [List.countP_eq_zero]
  intro p member isClass
  obtain ⟨i,at_⟩ := List.mem_iff_getElem?.mp member
  obtain ⟨front,f,back,_,split,same,-⟩ := split_of_hasClass at_ known isClass
  exact others f (by simp [split]) same

namespace Highlighter

theorem stop_eq_consumed (t : Text) (start : StartRule) (o : DecorateOptions) :
    min (((pass t start o).error.map SyntaxError.offset).getD (pass t start o).consumed)
      t.byteLength = (pass t start o).consumed := by
  obtain ⟨x⟩ := reading (t ++ start.ending) start
  have consumed : (pass t start o).consumed = min ((SpanTable.Builder.start t).run
    (parse (t ++ start.ending) start).events).1.reach t.byteLength := rfl
  cases fails : (pass t start o).error with
  | none =>
    rw [Option.map_none,Option.getD_none,consumed]
    omega
  | some e =>
    rw [Option.map_some,Option.getD_some,consumed,x.offset_of_error t fails]

theorem not_unrecognized_of_pass (t : Text) (start : StartRule) (o : DecorateOptions) :
    ∀ f ∈ (pass t start o).rendering.markup, f.cssClass? ≠ some "sh-unrecognized" := by
  intro f member same
  rcases Layout.mem_layout member with rfl | rfl | ⟨chunk,-,rfl⟩ | ⟨_,w,-,rfl⟩
  · cases same
  · cases same
  · exact absurd (Fragment.plain_styled _ _ _ same) (by decide)
  · cases w <;> simp [Fragment.cssClass?] at same

/-- What the first pass skips stands behind what it shows, and is marked with a title that says so. -/
theorem skippedMarkup_first {p : Passage} {query : Text} {start : StartRule} {o : DecorateOptions}
    (first : p.depth = 0) (isText : p.text = query) (isPass : p.pass = pass query start o)
    (isSkipped : p.skipped <+: remainder query p.pass.consumed) (w : Wording) :
    p.skippedMarkup w = [] ∨ ∃ c rest, plainText p.pass.rendering.markup ++ c :: rest <+: query ∧
      p.skippedMarkup w = [.unrecognized
        (w.skipped c ((plainText p.pass.rendering.markup).length + 1)) (c :: rest)] := by
  unfold Passage.skippedMarkup
  rw [if_pos first]
  cases skipped : p.skipped with
  | nil => exact .inl rfl
  | cons c rest =>
    right
    refine ⟨c,rest,?_⟩
    have text := pass_text query start o
    obtain ⟨-,consumed⟩ := pass_split query start o
    have stops := stop_eq_consumed query start o
    rw [← isPass] at text consumed stops
    have place : plainText p.pass.rendering.markup ++ c :: rest <+: query := by
      rw [skipped] at isSkipped
      exact text ▸ (List.prefix_append_right_inj _).mpr isSkipped
    refine ⟨place,?_⟩
    rw [if_neg (List.cons_ne_nil c rest),isText]
    simp only
    rw [stops,consumed,Text.charAt?_of_prefix place,
      Text.charsBefore_prefix ((List.prefix_append ..).trans place),w.unrecognized_eq]

/-- The HTML of a query marks unrecognized text once at most; what it marks is not empty, and the title
names the character with which that begins, and its column. -/
theorem diagnosed_render (h : Highlighter) (query : Text) (v : Option Vocabulary) :
    Diagnosed query h.wording (read (Markup.html (h.render query v).markup)) := by
  rw [Markup.read_html]
  by_cases empty : query = []
  · subst empty
    constructor <;> simp [render,allPassages,pieces]
  obtain ⟨first,rest,isFirst,isText,isPass,isSkipped,markup,plain⟩ := h.markup_render_eq v empty
  have known : "sh-unrecognized" ∈ classNames := by decide
  have layoutPlain : ∀ f ∈ first.pass.rendering.markup, f.cssClass? ≠ some "sh-unrecognized" :=
    isPass ▸ not_unrecognized_of_pass _ _ _
  have restPlain : ∀ f ∈ rest, f.cssClass? ≠ some "sh-unrecognized" := by
    intro f member same
    exact absurd (plain f member _ same) (by decide)
  have mark := skippedMarkup_first isFirst isText isPass isSkipped h.wording
  constructor
  · rw [markup,pieces_append,pieces_append,List.countP_append,List.countP_append,
      countP_hasClass_eq_zero known layoutPlain,countP_hasClass_eq_zero known restPlain]
    rcases mark with unmarked | ⟨c,rest,-,one⟩
    · simp [unmarked,pieces]
    · rw [one,Nat.zero_add,Nat.add_zero]
      exact Fragment.countP_unrecognized _ _
  · intro i p at_ isClass
    obtain ⟨front,f,back,after,split,same,isPieces,before,behind⟩ :=
      split_of_hasClass at_ known isClass
    rw [markup] at split
    obtain ⟨front,rfl,behindLayout⟩ :=
      split_of_not_mem_left split fun member => layoutPlain f member same
    obtain ⟨back,rfl,isSkipped⟩ :=
      split_of_not_mem_right behindLayout fun member => restPlain f member same
    rcases mark with unmarked | ⟨c,t,place,one⟩
    · simp [unmarked] at isSkipped
    · rw [one] at isSkipped
      obtain ⟨rfl,isMark⟩ :=
        List.append_eq_singleton_iff.mp isSkipped.symm |>.resolve_right (by simp)
      obtain ⟨rfl,rfl⟩ := List.cons.inj isMark
      have isTag := (List.cons.inj isPieces).1
      have content : ofText (c :: t) ++ [Fragment.closingPiece] = after := (List.cons.inj isPieces).2
      rw [← content,List.append_assoc,List.singleton_append] at behind
      have encloses := encloses_of_balanced before behind (depth?_ofText 0 (c :: t))
      rw [List.append_nil,Markup.shown_pieces,shown_ofText] at encloses
      rw [← isTag,unrecognized_body] at at_
      exact .intro place at_ encloses

end Highlighter

end CorpusQuery
