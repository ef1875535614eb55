import CorpusQuery.Proofs.Coverage
import CorpusQuery.Proofs.Repetition
import CorpusQuery.Proofs.Spans

/-! The markup of a query is well-formed HTML of a few shapes of tags, whatever the query, the vocabulary
and the labels are: no text can open a tag or leave an attribute, and every span is closed. -/
namespace CorpusQuery

open Markup

namespace Html

def entityNames : List Text := ["amp".toList,"lt".toList,"gt".toList,"quot".toList]

def Piece.IsText : Piece → Prop
  | .char c => c ≠ '&' ∧ c ≠ '<' ∧ c ≠ '>' ∧ c ≠ '"'
  | .entity name => name ∈ entityNames
  | .tag _ | .unclosed _ => False

def Escaped (t : Text) : Prop := ∀ p ∈ read t, p.IsText

def IsDecimal (t : Text) : Prop := t ≠ [] ∧ ∀ c ∈ t, c.isDigit = true

def styleNames : List String :=
  ["sh-operator","sh-bracket","sh-keyword","sh-attr","sh-regexp","sh-struct"]

/-- The tags that open spans, with the values of their attributes as they are spelled. -/
inductive OpeningTag where
  | styled (cssClass : String)
  | tooltip (title : Text)
  | clickable (left right : Text)
  | unrecognized (title : Text)

namespace OpeningTag

def body : OpeningTag → Text
  | .styled cssClass => classBody cssClass []
  | .tooltip title => classBody "sh-tooltip" (" title=\"".toList ++ title ++ "\"".toList)
  | .clickable left right => classBody "sh-clickable" (" data-type=\"tag\" data-left-idx=\"".toList ++
      left ++ "\" data-right-idx=\"".toList ++ right ++ "\"".toList)
  | .unrecognized title => classBody "sh-unrecognized" (" title=\"".toList ++ title ++
      "\" style=\"text-decoration: underline dotted red\"".toList)

def Documented : OpeningTag → Prop
  | .styled cssClass => cssClass ∈ styleNames
  | .tooltip title | .unrecognized title => Escaped title
  | .clickable left right => IsDecimal left ∧ IsDecimal right

end OpeningTag

/-- The tags and the text that markup may have. -/
def Piece.Documented : Piece → Prop
  | .tag body => body = "/span".toList ∨ body = "br /".toList ∨
      ∃ t : OpeningTag, t.Documented ∧ body = t.body
  | p => p.IsText

/-- HTML that is a sequence of the documented tags and of text, in which spans are balanced. -/
structure WellFormed (html : Text) : Prop where
  spelled : (read html).flatMap Piece.html = html
  documented : ∀ p ∈ read html, p.Documented
  prefixes : ∀ k, ((read html).take k).countP Piece.closes ≤ ((read html).take k).countP Piece.opens
  balanced : (read html).countP Piece.closes = (read html).countP Piece.opens

theorem isText_ofText (t : Text) : ∀ p ∈ ofText t, p.IsText := by
  intro p member
  obtain ⟨c,-,rfl⟩ := List.mem_map.mp member
  unfold ofChar
  split_ifs with amp lt gt quot
  · exact List.mem_cons_self
  · exact List.mem_cons_of_mem _ List.mem_cons_self
  · exact List.mem_cons_of_mem _ (List.mem_cons_of_mem _ List.mem_cons_self)
  · exact List.mem_cons_of_mem _ (List.mem_cons_of_mem _ (List.mem_cons_of_mem _ List.mem_cons_self))
  · exact ⟨amp,lt,gt,quot⟩

theorem escaped_escape (t : Text) : Escaped (escape t) := by
  have pieces := read_escape t []
  rw [List.append_nil] at pieces
  intro p member
  rw [pieces] at member
  exact isText_ofText t p (by simpa [read,scan] using member)

theorem isDecimal_number (n : Nat) : IsDecimal (number n) :=
  ⟨Nat.toDigits_ne_nil,fun _ => Nat.isDigit_of_mem_toDigits (by decide) (by decide)⟩

theorem escapeChar_of_isDigit {c : Char} (digit : c.isDigit = true) : escapeChar c = [c] := by
  unfold escapeChar
  split
  all_goals first
    | rfl
    | exact absurd digit (by decide)

theorem escape_number (n : Nat) : escape (number n) = number n := by
  have digits : (number n).flatMap escapeChar = (number n).flatMap fun c => [c] :=
    List.flatMap_congr fun c member => escapeChar_of_isDigit ((isDecimal_number n).2 c member)
  exact digits.trans (List.flatMap_singleton' _)

/-! ### Tags of fragments -/

theorem tooltip_body (title : Text) :
    (Wrapper.tooltip title).body = (OpeningTag.tooltip (escape title)).body := by
  have literal : " title=\"".toList = ' ' :: "title".toList ++ "=\"".toList := by decide
  rw [Wrapper.body,OpeningTag.body,literal]
  rfl

theorem clickable_body (left right : Nat) : (Wrapper.clickable "tag".toList left right).body =
    (OpeningTag.clickable (number left) (number right)).body := by
  have quote : "\"".toList = ['"'] := by decide
  have kind : escape "tag".toList = "tag".toList := by decide
  have first : " data-type=\"tag\" data-left-idx=\"".toList = ' ' :: "data-type".toList ++
      "=\"".toList ++ "tag".toList ++ ['"'] ++ (' ' :: "data-left-idx".toList ++ "=\"".toList) := by
    decide
  have second : "\" data-right-idx=\"".toList =
      ['"'] ++ (' ' :: "data-right-idx".toList ++ "=\"".toList) := by decide
  rw [Wrapper.body,OpeningTag.body,first,second]
  unfold tagAttribute
  rw [kind,escape_number,escape_number,quote]
  congr 1
  simp only [List.append_assoc,List.cons_append,List.nil_append]

theorem unrecognized_body (title : Text) : classBody "sh-unrecognized" (unrecognizedAttributes title) =
    (OpeningTag.unrecognized (escape title)).body := by
  have first : " title=\"".toList = ' ' :: "title".toList ++ "=\"".toList := by decide
  have second : "\" style=\"text-decoration: underline dotted red\"".toList =
      ['"'] ++ (' ' :: "style".toList ++ "=\"".toList ++
        escape "text-decoration: underline dotted red".toList ++ ['"']) := by decide
  rw [OpeningTag.body,unrecognizedAttributes,first,second]
  unfold tagAttribute
  congr 1
  simp only [List.append_assoc,List.cons_append,List.nil_append]

end Html

open Html

/-- Fragments of which every mark for editing is one of a tag are read back as documented. -/
theorem Fragment.documented {f : Fragment}
    (kinds : ∀ kind left right, f = .opening (.clickable kind left right) → kind = "tag".toList) :
    ∀ p ∈ f.pieces, p.Documented := by
  have closes : closingPiece.Documented := .inl rfl
  have content (t : Text) : ∀ p ∈ ofText t, p.Documented := by
    intro p member
    have isText := isText_ofText t p member
    cases p with
    | tag => exact isText.elim
    | _ => exact isText
  have tagged (tag : OpeningTag) (documented : tag.Documented) (t : Text) :
      ∀ p ∈ Piece.tag tag.body :: ofText t ++ [closingPiece], p.Documented := by
    intro p member
    simp only [List.cons_append,List.mem_cons,List.mem_append,List.not_mem_nil,or_false] at member
    rcases member with rfl | inText | rfl
    · exact .inr (.inr ⟨tag,documented,rfl⟩)
    · exact content t p inText
    · exact closes
  cases f with
  | styled style text =>
    cases style with
    | none => exact content text
    | some style =>
      have isName : style.cssClass ∈ styleNames := by cases style <;> decide
      exact tagged (.styled style.cssClass) isName text
  | opening w =>
    intro p member
    rw [Fragment.pieces,List.mem_singleton] at member
    subst member
    cases w with
    | tooltip title => exact .inr (.inr ⟨.tooltip (escape title),escaped_escape title,tooltip_body title⟩)
    | clickable kind left right =>
      obtain rfl := kinds kind left right rfl
      exact .inr (.inr ⟨.clickable (number left) (number right),
        ⟨isDecimal_number left,isDecimal_number right⟩,clickable_body left right⟩)
  | closing =>
    intro p member
    rwa [List.mem_singleton.mp member]
  | lineBreak =>
    intro p member
    rw [List.mem_singleton.mp member]
    exact .inr (.inl rfl)
  | unrecognized title text =>
    rw [Fragment.pieces,unrecognized_body]
    exact tagged (.unrecognized (escape title)) (escaped_escape title) text

structure Markup.Sound (m : Markup) : Prop where
  documented : ∀ p ∈ pieces m, p.Documented
  balanced : depth? 0 (pieces m) = some 0

namespace Markup.Sound

theorem append {m m' : Markup} (h : Sound m) (h' : Sound m') : Sound (m ++ m') where
  documented p member := by
    rw [pieces_append,List.mem_append] at member
    exact member.elim (h.documented p) (h'.documented p)
  balanced := by rw [depth?_pieces_append,h.balanced,Option.bind_some,h'.balanced]

theorem flatMap {α : Type} {l : List α} {f : α → Markup} (h : ∀ x ∈ l, Sound (f x)) :
    Sound (l.flatMap f) := by
  induction l with
  | nil => exact ⟨by simp [pieces],rfl⟩
  | cons x rest ih =>
    rw [List.forall_mem_cons] at h
    exact h.1.append (ih h.2)

theorem wellFormed {m : Markup} (h : Sound m) : WellFormed (Markup.html m) := by
  obtain ⟨prefixes,total⟩ := countP_of_depth? h.balanced
  rw [← read_html] at prefixes total
  refine ⟨flatMap_html_read _,by rw [read_html]; exact h.documented,?_,?_⟩
  · intro k
    simpa using prefixes k
  · simpa using total

end Markup.Sound

namespace Highlighter

open Layout

/-- The decorations of a pass are the same or lie apart. -/
theorem separate_pass (t : Text) (start : StartRule) (o : DecorateOptions) :
    Separate (SpanTable.ofEvents t (parse (t ++ start.ending) start).events).chunks
      ((SpanTable.ofEvents t (parse (t ++ start.ending) start).events).notes o).decorations := by
  obtain ⟨x⟩ := reading (t ++ start.ending) start
  exact x.shown.separate x.outline ((x.registers t).marked o)

theorem sound_pass (t : Text) (start : StartRule) (o : DecorateOptions) :
    (pass t start o).rendering.markup.Sound := by
  obtain ⟨x⟩ := reading (t ++ start.ending) start
  have announced := (x.registers t).announced o
  constructor
  · intro p member
    obtain ⟨f,inLayout,isPiece⟩ := List.mem_flatMap.mp member
    refine f.documented (fun kind left right same => ?_) p isPiece
    subst same
    rcases mem_layout inLayout with closes | isBreak | ⟨chunk,-,isChunk⟩ | ⟨span,w,isWrap,opens⟩
    · cases closes
    · cases isBreak
    · cases isChunk
    · obtain rfl := Fragment.opening.inj opens
      have announces := announced _ isWrap
      cases announces
      rfl
  · exact (separate_pass t start o).depth?_layout

theorem sound_skipped (p : Passage) (w : Wording) : (p.skippedMarkup w).Sound := by
  have one (f : Fragment) (documented : ∀ p ∈ f.pieces, p.Documented)
      (balanced : depth? 0 f.pieces = some 0) : Markup.Sound [f] := by
    constructor
    · simpa [pieces] using documented
    · simpa [pieces] using balanced
  rcases skippedMarkup_cases p w with ⟨-,same⟩ | ⟨-,title,same⟩ | ⟨-,same⟩
  · rw [same]
    exact ⟨by simp [pieces],rfl⟩
  · rw [same]
    exact one _ (Fragment.documented (by simp)) (Fragment.depth?_unrecognized ..)
  · rw [same]
    exact one _ (Fragment.documented (by simp)) (Fragment.depth?_styled ..)

theorem sound_passage (h : Highlighter) (v : Vocabulary) (query : Text) :
    ∀ p ∈ h.allPassages v query, (p.markup h.wording).Sound := by
  intro p member
  have isPass : p.pass = pass p.text p.start (h.options v p.depth) := by
    unfold allPassages at member
    split at member
    · simp at member
    · exact (h.passes_of_mem v _ _ _ _ p member).reads
  rw [Passage.markup,isPass]
  exact (sound_pass ..).append (sound_skipped p h.wording)

/-- The markup of a query is text, closings, line breaks and openings of the documented shapes; no
prefix closes more spans than it opens, and in the end all are closed; and where text or the value of
an attribute stands, there is no bracket and no quotation mark, and no ampersand but those that begin
an entity. -/
theorem wellFormed_render (h : Highlighter) (query : Text) (v : Option Vocabulary) :
    WellFormed (Markup.html (h.render query v).markup) :=
  (Markup.Sound.flatMap (h.sound_passage _ query)).wellFormed

end Highlighter

end CorpusQuery
