import CorpusQuery.Markup.Layout
import Mathlib.Data.List.Induction
import Mathlib.Tactic.Common

/-! The text that marked-up text shows: its tags taken out and its entities decoded. -/
namespace CorpusQuery

namespace Markup

/-- Takes out everything from a `<` to the next `>`; `inside` says that such a tag is open. -/
def stripTags (inside : Bool) : Text → Text
  | [] => []
  | c :: rest =>
    if inside then stripTags (c != '>') rest
    else if c = '<' then stripTags true rest
    else c :: stripTags false rest

def decode : Text → Text
  | '&' :: 'a' :: 'm' :: 'p' :: ';' :: rest => '&' :: decode rest
  | '&' :: 'l' :: 't' :: ';' :: rest => '<' :: decode rest
  | '&' :: 'g' :: 't' :: ';' :: rest => '>' :: decode rest
  | '&' :: 'q' :: 'u' :: 'o' :: 't' :: ';' :: rest => '"' :: decode rest
  | c :: rest => c :: decode rest
  | [] => []

def fragmentText : Fragment → Text
  | .styled _ text | .unrecognized _ text => text
  | .opening _ | .closing | .lineBreak => []

def plainText (m : Markup) : Text := m.flatMap fragmentText

@[simp] theorem plainText_append (m m' : Markup) :
    plainText (m ++ m') = plainText m ++ plainText m' := List.flatMap_append

@[simp] theorem escape_append (t u : Text) : escape (t ++ u) = escape t ++ escape u :=
  List.flatMap_append

theorem escapeChar_cases (c : Char) :
    c = '&' ∧ escapeChar c = "&amp;".toList ∨ c = '<' ∧ escapeChar c = "&lt;".toList ∨
    c = '>' ∧ escapeChar c = "&gt;".toList ∨ c = '"' ∧ escapeChar c = "&quot;".toList ∨
    c ≠ '&' ∧ c ≠ '<' ∧ c ≠ '>' ∧ c ≠ '"' ∧ escapeChar c = [c] := by
  unfold escapeChar
  split <;> simp_all

theorem not_bracket_of_mem_escape {t : Text} {c : Char} (member : c ∈ escape t) :
    c ≠ '<' ∧ c ≠ '>' := by
  obtain ⟨d,-,inChar⟩ := List.mem_flatMap.mp member
  rcases escapeChar_cases d with ⟨-,h⟩ | ⟨-,h⟩ | ⟨-,h⟩ | ⟨-,h⟩ | ⟨-,lt,gt,-,h⟩
  all_goals rw [h] at inChar
  case inr.inr.inr.inr =>
    have same : c = d := by simpa using inChar
    exact same ▸ ⟨lt,gt⟩
  all_goals
    constructor <;> rintro rfl <;> revert inChar <;> decide

theorem decode_escape (t : Text) : decode (escape t) = t := by
  induction t with
  | nil => rfl
  | cons c rest ih =>
    change decode (escapeChar c ++ escape rest) = c :: rest
    rcases escapeChar_cases c with ⟨same,h⟩ | ⟨same,h⟩ | ⟨same,h⟩ | ⟨same,h⟩ | ⟨amp,-,-,-,h⟩
    all_goals rw [h]
    case inr.inr.inr.inr => rw [List.singleton_append,decode,ih] <;> simp_all
    all_goals
      subst same
      change _ :: decode (escape rest) = _
      rw [ih]

theorem stripTags_text {t : Text} (plain : ∀ c ∈ t, c ≠ '<') (rest : Text) :
    stripTags false (t ++ rest) = t ++ stripTags false rest := by
  induction t with
  | nil => rfl
  | cons c t ih =>
    have notBracket : c ≠ '<' := plain c (by simp)
    simp [stripTags,notBracket,ih fun c member => plain c (by simp [member])]

def tag (body : Text) : Text := '<' :: body ++ ['>']

theorem stripTags_body {body : Text} (plain : ∀ c ∈ body, c ≠ '>') (rest : Text) :
    stripTags true (body ++ '>' :: rest) = stripTags false rest := by
  induction body with
  | nil => simp [stripTags]
  | cons c body ih =>
    have stays : (c != '>') = true := by simpa using plain c (by simp)
    simp only [List.cons_append,stripTags,if_true,stays]
    exact ih fun c member => plain c (by simp [member])

theorem stripTags_tag {body : Text} (plain : ∀ c ∈ body, c ≠ '>') (rest : Text) :
    stripTags false (tag body ++ rest) = stripTags false rest := by
  simpa [tag,stripTags] using stripTags_body plain rest

theorem ne_of_not_mem {t : Text} {d : Char} (absent : d ∉ t) : ∀ c ∈ t, c ≠ d :=
  fun _ member => ne_of_mem_of_not_mem member absent

def classBody (cssClass : String) (attributes : Text) : Text :=
  "span class=\"".toList ++ cssClass.toList ++ ['"'] ++ attributes

theorem classBody_append (cssClass : String) (attributes more : Text) :
    classBody cssClass attributes ++ more = classBody cssClass (attributes ++ more) := by
  unfold classBody
  exact List.append_assoc ..

theorem classSpan_eq (cssClass : String) (attributes : Text) :
    classSpan cssClass attributes = tag (classBody cssClass attributes) := by
  have start : "<span class=\"".toList = '<' :: "span class=\"".toList := by decide
  unfold classSpan classBody tag
  rw [start]
  generalize "span class=\"".toList = name
  simp

theorem closeSpan_eq : closeSpan = tag "/span".toList := by decide

theorem lineBreak_eq : Markup.lineBreak = tag "br /".toList := by decide

section Brackets

variable {d : Char} (bracket : d = '<' ∨ d = '>')

include bracket

theorem ne_of_mem_literal {t : Text} (less : '<' ∉ t) (greater : '>' ∉ t) : ∀ c ∈ t, c ≠ d :=
  ne_of_not_mem (by rcases bracket with rfl | rfl <;> assumption)

theorem ne_of_mem_classBody {cssClass : String} {attributes : Text}
    (name : ∀ c ∈ cssClass.toList, c ≠ d) (plain : ∀ c ∈ attributes, c ≠ d) :
    ∀ c ∈ classBody cssClass attributes, c ≠ d := by
  intro c member
  unfold classBody at member
  simp only [List.mem_append] at member
  rcases member with ((start | inName) | quote) | inAttributes
  · exact ne_of_mem_literal bracket (by decide) (by decide) c start
  · exact name c inName
  · rw [List.mem_singleton.mp quote]
    rcases bracket with rfl | rfl <;> decide
  · exact plain c inAttributes

theorem ne_of_mem_tagAttribute {name : String} {value : Text} {c : Char}
    (plain : ∀ c ∈ name.toList, c ≠ d) (member : c ∈ tagAttribute name value) : c ≠ d := by
  simp only [tagAttribute,List.mem_append,List.mem_cons,List.not_mem_nil,or_false] at member
  rcases member with (((rfl | inName) | inMark) | inValue) | rfl
  · rcases bracket with rfl | rfl <;> decide
  · exact plain c inName
  · exact ne_of_mem_literal bracket (by decide) (by decide) c inMark
  · rcases bracket with rfl | rfl
    · exact (not_bracket_of_mem_escape inValue).1
    · exact (not_bracket_of_mem_escape inValue).2
  · rcases bracket with rfl | rfl <;> decide

end Brackets

end Markup

open Markup

def Wrapper.body : Wrapper → Text
  | .tooltip title => classBody "sh-tooltip" (tagAttribute "title" title)
  | .clickable kind left right =>
    classBody "sh-clickable" (tagAttribute "data-type" kind ++
      tagAttribute "data-left-idx" (number left) ++ tagAttribute "data-right-idx" (number right))

theorem Wrapper.html_eq (w : Wrapper) : w.html = tag w.body := by
  cases w <;> exact classSpan_eq ..

def unrecognizedAttributes (title : Text) : Text :=
  tagAttribute "title" title ++ tagAttribute "style" "text-decoration: underline dotted red".toList

section Brackets

variable {d : Char} (bracket : d = '<' ∨ d = '>')

include bracket

theorem Wrapper.ne_of_mem_body (w : Wrapper) : ∀ c ∈ w.body, c ≠ d := by
  cases w with
  | tooltip title =>
    exact ne_of_mem_classBody bracket (ne_of_mem_literal bracket (by decide) (by decide))
      fun _ => ne_of_mem_tagAttribute bracket (ne_of_mem_literal bracket (by decide) (by decide))
  | clickable kind left right =>
    refine ne_of_mem_classBody bracket (ne_of_mem_literal bracket (by decide) (by decide)) fun c member => ?_
    simp only [List.mem_append] at member
    rcases member with (inType | inLeft) | inRight
    · exact ne_of_mem_tagAttribute bracket (ne_of_mem_literal bracket (by decide) (by decide)) inType
    · exact ne_of_mem_tagAttribute bracket (ne_of_mem_literal bracket (by decide) (by decide)) inLeft
    · exact ne_of_mem_tagAttribute bracket (ne_of_mem_literal bracket (by decide) (by decide)) inRight

theorem Style.ne_of_mem_body (style : Style) : ∀ c ∈ classBody style.cssClass [], c ≠ d :=
  ne_of_mem_classBody bracket
    (ne_of_mem_literal bracket (by cases style <;> decide) (by cases style <;> decide)) (by simp)

theorem ne_of_mem_unrecognized (title : Text) :
    ∀ c ∈ classBody "sh-unrecognized" (unrecognizedAttributes title), c ≠ d := by
  refine ne_of_mem_classBody bracket (ne_of_mem_literal bracket (by decide) (by decide)) fun c member => ?_
  rcases List.mem_append.mp member with inTitle | inStyle
  · exact ne_of_mem_tagAttribute bracket (ne_of_mem_literal bracket (by decide) (by decide)) inTitle
  · exact ne_of_mem_tagAttribute bracket (ne_of_mem_literal bracket (by decide) (by decide)) inStyle

end Brackets

theorem stripTags_fragment (f : Fragment) (rest : Text) :
    stripTags false (f.html ++ rest) = escape (fragmentText f) ++ stripTags false rest := by
  have closes (rest : Text) : stripTags false (closeSpan ++ rest) = stripTags false rest := by
    rw [closeSpan_eq]
    exact stripTags_tag (ne_of_not_mem (by decide)) rest
  have content (text rest : Text) : stripTags false (escape text ++ rest) =
      escape text ++ stripTags false rest :=
    stripTags_text (fun _ member => (not_bracket_of_mem_escape member).1) rest
  cases f with
  | styled style text =>
    cases style with
    | none => exact content text rest
    | some style =>
      simp only [Fragment.html,List.append_assoc]
      rw [classSpan_eq,stripTags_tag (style.ne_of_mem_body (.inr rfl)),content,closes]
      rfl
  | opening w =>
    rw [Fragment.html,w.html_eq]
    exact stripTags_tag (w.ne_of_mem_body (.inr rfl)) rest
  | closing => exact closes rest
  | lineBreak =>
    rw [Fragment.html,lineBreak_eq]
    exact stripTags_tag (ne_of_not_mem (by decide)) rest
  | unrecognized title text =>
    simp only [Fragment.html,List.append_assoc]
    rw [classSpan_eq,← unrecognizedAttributes,
      stripTags_tag (ne_of_mem_unrecognized (.inr rfl) title),content,closes]
    rfl

theorem stripTags_html (m : Markup) : stripTags false m.html = escape (plainText m) := by
  induction m with
  | nil => rfl
  | cons f rest ih =>
    change stripTags false (f.html ++ Markup.html rest) = _
    rw [stripTags_fragment,ih,← escape_append]
    rfl

/-- Marked-up text shows the text of the query in it, whatever its labels are. -/
theorem decode_stripTags_html (m : Markup) : decode (stripTags false m.html) = plainText m := by
  rw [stripTags_html,decode_escape]

namespace Layout

theorem plainText_gapMarkup {openings closings : List Insertion}
    (empty : ∀ x ∈ openings ++ closings, fragmentText x.fragment = []) (gap : Nat) :
    plainText (gapMarkup openings closings gap) = [] := by
  refine List.flatMap_eq_nil_iff.mpr fun f member => ?_
  obtain ⟨x,inGap,rfl⟩ := List.mem_map.mp member
  refine empty x ?_
  simp only [List.mem_append,List.mem_mergeSort,List.mem_filter] at inGap ⊢
  exact inGap.elim (fun h => .inr h.1) fun h => .inl h.1

def between (chunks : List Chunk) (decorations : List Decoration) (gap : Nat) : Markup :=
  gapMarkup (decorations.filterMap (opening? chunks)) (decorations.filterMap (closing? chunks)) gap

def body (gap : Nat → Markup) (chunks : List Chunk) : Markup :=
  chunks.zipIdx.flatMap fun (chunk,i) => gap i ++ [chunkMarkup chunk]

theorem plainText_between (chunks : List Chunk) (decorations : List Decoration) (gap : Nat) :
    plainText (between chunks decorations gap) = [] := by
  refine plainText_gapMarkup (fun x member => ?_) gap
  rcases List.mem_append.mp member with opens | closes
  · rcases mem_openings.mp opens with ⟨span,w,-,-,rfl⟩ | ⟨offset,-,rfl⟩ <;> rfl
  · obtain ⟨span,w,-,-,rfl⟩ := mem_closings.mp closes
    rfl

theorem body_concat (gap : Nat → Markup) (chunks : List Chunk) (chunk : Chunk) :
    body gap (chunks ++ [chunk]) = body gap chunks ++ gap chunks.length ++ [chunkMarkup chunk] := by
  simp [body,List.zipIdx_append]

theorem body_append (gap : Nat → Markup) (front back : List Chunk) (chunk : Chunk) :
    ∃ rest, body gap (front ++ chunk :: back) =
      body gap front ++ gap front.length ++ chunkMarkup chunk :: rest := by
  refine ⟨(back.zipIdx (front.length + 1)).flatMap fun (chunk,i) => gap i ++ [chunkMarkup chunk],?_⟩
  simp [body,List.zipIdx_append]

theorem plainText_body {gap : Nat → Markup} (empty : ∀ i, plainText (gap i) = [])
    (chunks : List Chunk) : plainText (body gap chunks) = chunks.flatMap Chunk.text := by
  induction chunks using List.reverseRecOn with
  | nil => rfl
  | append_singleton chunks chunk ih =>
    rw [body_concat,plainText_append,plainText_append,ih,empty]
    simp [plainText,chunkMarkup,fragmentText]

end Layout

theorem layout_eq (chunks : List Chunk) (decorations : List Decoration) :
    layout chunks decorations = Layout.body (Layout.between chunks decorations) chunks ++
      Layout.between chunks decorations chunks.length := rfl

theorem plainText_layout (chunks : List Chunk) (decorations : List Decoration) :
    plainText (layout chunks decorations) = chunks.flatMap Chunk.text := by
  rw [layout_eq,plainText_append,Layout.plainText_between,List.append_nil]
  exact Layout.plainText_body (Layout.plainText_between chunks decorations) chunks

end CorpusQuery
