import CorpusQuery.Proofs.Coverage
import CorpusQuery.Proofs.WellFormed

/-! Where a tag in the HTML of a query comes from. Wrappers are opened in the layout of the first pass
only, and the mark of unrecognized text is put round what the first pass skipped: the later passes show
text in styles, and nothing else. -/
namespace CorpusQuery

open Markup Html

namespace Html

def classNames : List String := styleNames ++ ["sh-tooltip","sh-clickable","sh-unrecognized"]

/-- No class is spelled like the beginning of another. -/
theorem eq_of_isPrefixOf : ∀ cssClass ∈ classNames, ∀ other ∈ classNames,
    (classBody cssClass []).isPrefixOf (classBody other []) = true → cssClass = other := by
  decide +kernel

theorem eq_of_hasClass {cssClass other : String} {attributes : Text} (known : cssClass ∈ classNames)
    (isClass : other ∈ classNames)
    (h : (Piece.tag (classBody other attributes)).hasClass cssClass = true) : cssClass = other := by
  rcases hasClass_classBody h with first | second
  · exact eq_of_isPrefixOf _ known _ isClass first
  · exact (eq_of_isPrefixOf _ isClass _ known second).symm

theorem not_hasClass_ofText {t : Text} (cssClass : String) :
    ∀ p ∈ ofText t, p.hasClass cssClass = false := by
  intro p member
  obtain ⟨c,-,rfl⟩ := List.mem_map.mp member
  unfold ofChar
  split_ifs <;> rfl

end Html

namespace Fragment

def cssClass? : Fragment → Option String
  | .styled style _ => style.map Style.cssClass
  | .opening (.tooltip _) => some "sh-tooltip"
  | .opening (.clickable ..) => some "sh-clickable"
  | .unrecognized .. => some "sh-unrecognized"
  | .closing | .lineBreak => none

def Plain (f : Fragment) : Prop := ∀ cssClass, f.cssClass? = some cssClass → cssClass ∈ styleNames

theorem plain_styled (style : Option Style) (t : Text) : (styled style t).Plain := by
  intro cssClass same
  obtain ⟨style,-,rfl⟩ := Option.map_eq_some_iff.mp same
  cases style <;> decide

theorem not_hasClass_closing : ∀ cssClass ∈ classNames, closingPiece.hasClass cssClass = false := by
  decide

theorem not_hasClass_lineBreak :
    ∀ cssClass ∈ classNames, (Piece.tag "br /".toList).hasClass cssClass = false := by
  decide

/-- In a fragment, a tag of a class comes first, and is that of the fragment. -/
theorem split_of_hasClass {f : Fragment} {before after : List Piece} {p : Piece} {cssClass : String}
    (split : f.pieces = before ++ p :: after) (known : cssClass ∈ classNames)
    (h : p.hasClass cssClass = true) : before = [] ∧ f.cssClass? = some cssClass := by
  have tagged {other : String} {attributes t : Text} (isClass : other ∈ classNames)
      (split : .tag (classBody other attributes) :: ofText t ++ [closingPiece] =
        before ++ p :: after) : before = [] ∧ other = cssClass := by
    cases before with
    | nil =>
      obtain ⟨rfl,-⟩ := List.cons.inj split
      exact ⟨rfl,(eq_of_hasClass known isClass h).symm⟩
    | cons first before =>
      have later : ofText t ++ [closingPiece] = before ++ p :: after := (List.cons.inj split).2
      have member : p ∈ ofText t ++ [closingPiece] := by simp [later]
      rcases List.mem_append.mp member with inText | closes
      · simp [not_hasClass_ofText cssClass p inText] at h
      · rw [List.mem_singleton.mp closes,not_hasClass_closing cssClass known] at h
        simp at h
  have alone {q : Piece} (split : [q] = before ++ p :: after) : before = [] ∧ p = q := by
    obtain ⟨empty,same⟩ := List.append_eq_singleton_iff.mp split.symm |>.resolve_right (by simp)
    exact ⟨empty,(List.cons.inj same).1⟩
  cases f with
  | styled style t =>
    cases style with
    | none =>
      have member : p ∈ ofText t := by
        rw [show ofText t = _ from split]
        simp
      simp [not_hasClass_ofText cssClass p member] at h
    | some style =>
      have isClass : style.cssClass ∈ classNames := by cases style <;> decide
      exact (tagged isClass split).imp_right (congrArg some)
  | opening w =>
    obtain ⟨empty,rfl⟩ := alone split
    refine ⟨empty,?_⟩
    cases w with
    | tooltip => exact congrArg some (eq_of_hasClass known (by decide) h).symm
    | clickable => exact congrArg some (eq_of_hasClass known (by decide) h).symm
  | closing =>
    rw [(alone split).2,not_hasClass_closing cssClass known] at h
    cases h
  | lineBreak =>
    rw [(alone split).2,not_hasClass_lineBreak cssClass known] at h
    cases h
  | unrecognized => exact (tagged (by decide) split).imp_right (congrArg some)

end Fragment

/-- A tag of a class in the HTML of marked-up text begins a fragment of that class. -/
theorem Markup.split_of_hasClass {m : Markup} {i : Nat} {p : Piece} {cssClass : String}
    (at_ : (pieces m)[i]? = some p) (known : cssClass ∈ classNames)
    (h : p.hasClass cssClass = true) : ∃ front f back after, m = front ++ f :: back ∧
      f.cssClass? = some cssClass ∧ f.pieces = p :: after ∧ (pieces m).take i = pieces front ∧
      (pieces m).drop (i + 1) = after ++ pieces back := by
  obtain ⟨front,f,back,c,d,isMarkup,isFragment,before,behind⟩ := split_of_getElem? at_
  obtain ⟨rfl,isClass⟩ := Fragment.split_of_hasClass isFragment known h
  rw [List.append_nil] at before
  exact ⟨front,f,back,d,isMarkup,isClass,isFragment,before,behind⟩

theorem layout_nil (chunks : List Chunk) : layout chunks [] = chunks.map Layout.chunkMarkup := by
  have empty : Layout.between chunks [] = fun _ => [] := by
    funext gap
    simp [Layout.between,Layout.gapMarkup]
  calc layout chunks []
    _ = chunks.zipIdx.flatMap fun x => [Layout.chunkMarkup x.1] := by
        simp [layout_eq,empty,Layout.body]
    _ = (chunks.zipIdx.map Prod.fst).map Layout.chunkMarkup := by
        rw [List.map_map]
        exact List.map_eq_flatMap.symm
    _ = chunks.map Layout.chunkMarkup := by rw [List.zipIdx_map_fst]

namespace Highlighter

variable {h : Highlighter}

/-- The first of some passes reads all the text, and skips what comes behind the part that it used. -/
theorem passages_eq_cons (h : Highlighter) (v : Vocabulary) (depth : Nat) (start : StartRule)
    (fallbacks : List StartRule) (t : Text) : ∃ skipped later,
      h.passages v depth start fallbacks t =
        ⟨depth,start,fallbacks,t,pass t start (h.options v depth),skipped⟩ :: later ∧
      skipped <+: remainder t (pass t start (h.options v depth)).consumed ∧
      ∀ p ∈ later, depth < p.depth ∧ p.pass = pass p.text p.start (h.options v p.depth) := by
  have onward (start : StartRule) (fallbacks : List StartRule) (t : Text) :
      ∀ p ∈ h.passages v (depth + 1) start fallbacks t,
        depth < p.depth ∧ p.pass = pass p.text p.start (h.options v p.depth) := fun p member =>
    have one := h.passes_of_mem v _ _ _ _ p member
    ⟨one.depth_le,one.reads⟩
  unfold passages
  simp only
  split
  · exact ⟨[],[],rfl,List.nil_prefix,by simp⟩
  · split
    · exact ⟨_,[],rfl,List.prefix_rfl,by simp⟩
    · refine ⟨_,_,rfl,?_,?_⟩
      · exact ⟨_,splitWord_append _⟩
      · split_ifs
        · simp
        · exact onward _ _ _
        · exact onward _ _ _

theorem notes_eq_empty {table : SpanTable} {o : DecorateOptions} (noNames : o.vocabulary = none)
    (noBreaks : o.wrapLines = false) : table.notes o = {} := by
  refine SpanTable.notes_induction (P := (· = {})) rfl ?_ ?_
  · intro n v r span known
    simp [noNames] at known
  · intro n span breaks
    simp [noBreaks] at breaks

def Styled (f : Fragment) : Prop := ∃ style t, f = .styled style t

theorem styled_of_later {v : Vocabulary} {p : Passage} (later : 0 < p.depth)
    (isPass : p.pass = pass p.text p.start (h.options v p.depth)) :
    ∀ f ∈ p.markup h.wording, Styled f := by
  intro f member
  rw [Passage.markup,isPass,List.mem_append] at member
  rcases member with inLayout | isSkipped
  · change f ∈ layout _ (SpanTable.notes _ (h.options v p.depth)).decorations at inLayout
    rw [show h.options v p.depth = { wording := h.wording } from if_neg later.ne',
      notes_eq_empty rfl rfl,layout_nil] at inLayout
    obtain ⟨chunk,-,rfl⟩ := List.mem_map.mp inLayout
    exact ⟨_,_,rfl⟩
  · rcases skippedMarkup_cases p h.wording with ⟨-,same⟩ | ⟨first,-⟩ | ⟨-,same⟩
    · simp [same] at isSkipped
    · exact absurd first later.ne'
    · rw [same,List.mem_singleton] at isSkipped
      exact ⟨_,_,isSkipped⟩

theorem plain_of_later {v : Vocabulary} {p : Passage} (later : 0 < p.depth)
    (isPass : p.pass = pass p.text p.start (h.options v p.depth)) :
    ∀ f ∈ p.markup h.wording, f.Plain := by
  intro f member
  obtain ⟨style,t,rfl⟩ := styled_of_later later isPass f member
  exact Fragment.plain_styled style t

/-- The markup of a query is that of the first pass, what that pass skipped, and text in styles. -/
theorem markup_render_eq (h : Highlighter) {query : Text} (v : Option Vocabulary)
    (nonempty : query ≠ []) : ∃ (first : Passage) (rest : Markup), first.depth = 0 ∧
      first.text = query ∧
      first.pass = pass query h.startRules.first (h.options (v.getD .permissive) 0) ∧
      first.skipped <+: remainder query first.pass.consumed ∧
      (h.render query v).markup =
        first.pass.rendering.markup ++ (first.skippedMarkup h.wording ++ rest) ∧
      ∀ f ∈ rest, f.Plain := by
  obtain ⟨skipped,later,passages,isSkipped,behind⟩ := h.passages_eq_cons (v.getD .permissive) 0
    h.startRules.first h.startRules.fallbacks query
  refine ⟨⟨0,h.startRules.first,h.startRules.fallbacks,query,
    pass query h.startRules.first (h.options (v.getD .permissive) 0),skipped⟩,
    later.flatMap (·.markup h.wording),rfl,rfl,rfl,isSkipped,?_,?_⟩
  · simp only [render,allPassages,nonempty,if_false,passages,List.flatMap_cons,Passage.markup,
      List.append_assoc]
  · intro f member
    obtain ⟨p,isLater,inMarkup⟩ := List.mem_flatMap.mp member
    exact plain_of_later (behind p isLater).1 (behind p isLater).2 f inMarkup

end Highlighter

end CorpusQuery
