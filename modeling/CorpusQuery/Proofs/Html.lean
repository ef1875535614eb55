import CorpusQuery.Proofs.PlainText

/-! HTML read back from its text as characters, entities and tags. What markup stands for reads back
as the tags of its fragments and the escaped characters of its texts, so no text can open a tag. -/
namespace CorpusQuery

open Markup

namespace Html

/-- A piece of HTML. -/
inductive Piece where
  | char (c : Char)
  | entity (name : Text)
  | tag (body : Text)
  /-- What follows a `<` or an `&` that nothing ends. -/
  | unclosed (rest : Text)
  deriving DecidableEq

def Piece.html : Piece → Text
  | .char c => [c]
  | .entity name => '&' :: name ++ [';']
  | .tag body => Markup.tag body
  | .unclosed rest => rest

/-- What is read at present, with what was read of it. -/
inductive Mode where
  | text
  | entity (name : Text)
  | tag (body : Text)

def Mode.html : Mode → Text
  | .text => []
  | .entity name => '&' :: name
  | .tag body => '<' :: body

def scan : Mode → Text → List Piece
  | .text,[] => []
  | .text,c :: rest =>
    if c = '&' then scan (.entity []) rest
    else if c = '<' then scan (.tag []) rest
    else .char c :: scan .text rest
  | .entity name,[] => [.unclosed (Mode.entity name).html]
  | .entity name,c :: rest =>
    if c = ';' then .entity name :: scan .text rest else scan (.entity (name ++ [c])) rest
  | .tag body,[] => [.unclosed (Mode.tag body).html]
  | .tag body,c :: rest =>
    if c = '>' then .tag body :: scan .text rest else scan (.tag (body ++ [c])) rest

def read (t : Text) : List Piece := scan .text t

theorem flatMap_html_scan (mode : Mode) (t : Text) :
    (scan mode t).flatMap Piece.html = mode.html ++ t := by
  fun_induction scan mode t with
  | case1 => rfl
  | case2 rest ih => simpa [Mode.html] using ih
  | case3 rest _ ih => simpa [Mode.html] using ih
  | case4 c rest _ _ ih => simpa [Mode.html,Piece.html] using ih
  | case5 name => simp [Piece.html]
  | case6 name rest ih => simpa [Mode.html,Piece.html] using ih
  | case7 name c rest _ ih => simpa [Mode.html] using ih
  | case8 body => simp [Piece.html]
  | case9 body rest ih => simpa [Mode.html,Piece.html,Markup.tag] using ih
  | case10 body c rest _ ih => simpa [Mode.html] using ih

theorem flatMap_html_read (t : Text) : (read t).flatMap Piece.html = t := flatMap_html_scan .text t

def ofChar (c : Char) : Piece :=
  if c = '&' then .entity "amp".toList
  else if c = '<' then .entity "lt".toList
  else if c = '>' then .entity "gt".toList
  else if c = '"' then .entity "quot".toList
  else .char c

def ofText (t : Text) : List Piece := t.map ofChar

theorem scan_entity {name : Text} (plain : ∀ c ∈ name, c ≠ ';') (begun rest : Text) :
    scan (.entity begun) (name ++ ';' :: rest) = .entity (begun ++ name) :: scan .text rest := by
  induction name generalizing begun with
  | nil => simp [scan]
  | cons c name ih =>
    have goesOn : c ≠ ';' := plain c (by simp)
    simp [scan,goesOn,ih fun d member => plain d (by simp [member])]

theorem scan_tag {body : Text} (plain : ∀ c ∈ body, c ≠ '>') (begun rest : Text) :
    scan (.tag begun) (body ++ '>' :: rest) = .tag (begun ++ body) :: scan .text rest := by
  induction body generalizing begun with
  | nil => simp [scan]
  | cons c body ih =>
    have goesOn : c ≠ '>' := plain c (by simp)
    simp [scan,goesOn,ih fun d member => plain d (by simp [member])]

theorem read_tag {body : Text} (plain : ∀ c ∈ body, c ≠ '>') (rest : Text) :
    read (Markup.tag body ++ rest) = .tag body :: read rest := by
  simpa [read,Markup.tag,scan] using scan_tag plain [] rest

theorem read_escapeChar (c : Char) (rest : Text) : read (escapeChar c ++ rest) = ofChar c :: read rest := by
  have entity (name : Text) (plain : ';' ∉ name) :
      read ('&' :: name ++ [';'] ++ rest) = .entity name :: read rest := by
    simpa [read,scan] using scan_entity (ne_of_not_mem plain) [] rest
  rcases escapeChar_cases c with ⟨rfl,h⟩ | ⟨rfl,h⟩ | ⟨rfl,h⟩ | ⟨rfl,h⟩ | ⟨amp,lt,gt,quot,h⟩
  all_goals rw [h]
  · exact entity "amp".toList (by decide)
  · exact entity "lt".toList (by decide)
  · exact entity "gt".toList (by decide)
  · exact entity "quot".toList (by decide)
  · simp [read,scan,ofChar,amp,lt,gt,quot]

theorem read_escape (t rest : Text) : read (escape t ++ rest) = ofText t ++ read rest := by
  induction t with
  | nil => rfl
  | cons c t ih =>
    change read (escapeChar c ++ escape t ++ rest) = ofChar c :: ofText t ++ read rest
    rw [List.append_assoc,read_escapeChar,ih]
    rfl

example : read "<br />a&lt;".toList = [.tag "br /".toList,.char 'a',.entity "lt".toList] := by decide

/-! ### Spans -/

def Piece.opens : Piece → Bool
  | .tag body => "span ".toList.isPrefixOf body
  | _ => false

def Piece.closes : Piece → Bool
  | .tag body => body == "/span".toList
  | _ => false

/-- The number of spans that are open after a piece; none when it closes one that was not opened. -/
def Piece.depth? (p : Piece) (depth : Nat) : Option Nat :=
  if p.opens then some (depth + 1)
  else if p.closes then (if depth = 0 then none else some (depth - 1))
  else some depth

theorem Piece.closes_of_opens {p : Piece} (opens : p.opens = true) : p.closes = false := by
  cases p with
  | tag body =>
    by_contra closes
    have body_eq : body = "/span".toList := by simpa [Piece.closes] using closes
    rw [body_eq] at opens
    revert opens
    decide
  | _ => rfl

theorem Piece.depth?_count {p : Piece} {depth next : Nat} (h : p.depth? depth = some next) :
    next + (if p.closes then 1 else 0) = depth + (if p.opens then 1 else 0) := by
  unfold depth? at h
  by_cases opens : p.opens = true
  · have same : depth + 1 = next := by simpa [opens] using h
    simp [opens,closes_of_opens opens,same]
  · by_cases closes : p.closes = true
    · simp only [opens,closes,if_true,Bool.false_eq_true,if_false,Option.ite_none_left_eq_some,
        Option.some.injEq] at h ⊢
      omega
    · have same : depth = next := by simpa [opens,closes] using h
      simp [opens,closes,same]

def depth? (depth : Nat) (pieces : List Piece) : Option Nat :=
  pieces.foldlM (fun depth p => p.depth? depth) depth

@[simp] theorem depth?_nil (depth : Nat) : depth? depth [] = some depth := rfl

@[simp] theorem depth?_cons (depth : Nat) (p : Piece) (rest : List Piece) :
    depth? depth (p :: rest) = (p.depth? depth).bind fun next => depth? next rest := rfl

theorem depth?_append (depth : Nat) (pieces more : List Piece) :
    depth? depth (pieces ++ more) = (depth? depth pieces).bind fun next => depth? next more :=
  List.foldlM_append ..

/-- Where no span is closed that was not opened, every prefix has as many openings as closings, and
all pieces together as many more as spans are open in the end. -/
theorem countP_of_depth? {depth : Nat} {pieces : List Piece} {final : Nat}
    (h : depth? depth pieces = some final) :
    (∀ k, (pieces.take k).countP Piece.closes ≤ depth + (pieces.take k).countP Piece.opens) ∧
    final + pieces.countP Piece.closes = depth + pieces.countP Piece.opens := by
  induction pieces generalizing depth with
  | nil =>
    obtain rfl := Option.some.inj h
    simp
  | cons p rest ih =>
    obtain ⟨next,step,more⟩ := Option.bind_eq_some_iff.mp h
    obtain ⟨prefixes,total⟩ := ih more
    have counts := Piece.depth?_count step
    have one (q : Piece → Bool) (l : List Piece) :
        (p :: l).countP q = l.countP q + if q p then 1 else 0 := List.countP_cons
    refine ⟨fun k => ?_,?_⟩
    · cases k with
      | zero => simp
      | succ k =>
        have := prefixes k
        rw [List.take_succ_cons,one,one]
        omega
    · rw [one,one]
      omega

def enclosed? : Nat → List Piece → Option (List Piece)
  | _,[] => none
  | depth,p :: rest =>
    match p.depth? depth with
    | none => some []
    | some next => (enclosed? next rest).map (p :: ·)

theorem enclosed?_append {depth final : Nat} {pieces : List Piece}
    (h : depth? depth pieces = some final) (rest : List Piece) :
    enclosed? depth (pieces ++ rest) = (enclosed? final rest).map (pieces ++ ·) := by
  induction pieces generalizing depth with
  | nil =>
    obtain rfl := Option.some.inj h
    simp
  | cons p more ih =>
    obtain ⟨next,step,later⟩ := Option.bind_eq_some_iff.mp h
    simp [enclosed?,step,ih later,Function.comp_def]

def Piece.hasClass (cssClass : String) : Piece → Bool
  | .tag body => (classBody cssClass []).isPrefixOf body
  | _ => false

theorem hasClass_self (cssClass : String) (attributes : Text) :
    (Piece.tag (classBody cssClass attributes)).hasClass cssClass = true := by
  rw [Piece.hasClass,List.isPrefixOf_iff_prefix]
  exact ⟨attributes,classBody_append cssClass [] attributes⟩

/-- Of two classes of one span, one is spelled like the beginning of the other. -/
theorem hasClass_classBody {cssClass other : String} {attributes : Text}
    (h : (Piece.tag (classBody other attributes)).hasClass cssClass = true) :
    (classBody cssClass []).isPrefixOf (classBody other []) = true ∨
      (classBody other []).isPrefixOf (classBody cssClass []) = true := by
  have own : classBody other [] <+: classBody other attributes :=
    List.isPrefixOf_iff_prefix.mp (hasClass_self other attributes)
  simp only [List.isPrefixOf_iff_prefix]
  exact List.prefix_or_prefix_of_prefix (List.isPrefixOf_iff_prefix.mp h) own

/-! ### Text -/

def Piece.shown : Piece → Text
  | .char c => [c]
  | .entity name => decode ('&' :: name ++ [';'])
  | .tag _ | .unclosed _ => []

def shown (pieces : List Piece) : Text := pieces.flatMap Piece.shown

@[simp] theorem shown_append (pieces more : List Piece) :
    shown (pieces ++ more) = shown pieces ++ shown more := List.flatMap_append

theorem shown_ofChar (c : Char) : (ofChar c).shown = [c] := by
  unfold ofChar
  split_ifs with amp lt gt quot
  · rw [amp]
    decide
  · rw [lt]
    decide
  · rw [gt]
    decide
  · rw [quot]
    decide
  · rfl

@[simp] theorem shown_ofText (t : Text) : shown (ofText t) = t := by
  induction t with
  | nil => rfl
  | cons c t ih =>
    change (ofChar c).shown ++ shown (ofText t) = c :: t
    rw [shown_ofChar,ih]
    rfl

theorem depth?_ofText (depth : Nat) (t : Text) : depth? depth (ofText t) = some depth := by
  induction t with
  | nil => rfl
  | cons c t ih =>
    have stays : (ofChar c).depth? depth = some depth := by
      unfold ofChar
      split_ifs <;> rfl
    change ((ofChar c).depth? depth).bind _ = some depth
    rw [stays]
    exact ih

end Html

namespace Fragment

open Html

def closingPiece : Piece := .tag "/span".toList

def pieces : Fragment → List Piece
  | .styled (some style) text =>
    .tag (classBody style.cssClass []) :: ofText text ++ [closingPiece]
  | .styled none text => ofText text
  | .opening w => [.tag w.body]
  | .closing => [closingPiece]
  | .lineBreak => [.tag "br /".toList]
  | .unrecognized title text =>
    .tag (classBody "sh-unrecognized" (unrecognizedAttributes title)) :: ofText text ++
      [closingPiece]

theorem read_html (f : Fragment) (rest : Text) : read (f.html ++ rest) = f.pieces ++ read rest := by
  have closes (rest : Text) : read (closeSpan ++ rest) = closingPiece :: read rest := by
    rw [closeSpan_eq]
    exact read_tag (ne_of_not_mem (by decide)) rest
  cases f with
  | styled style text =>
    cases style with
    | none => exact read_escape text rest
    | some style =>
      simp only [Fragment.html,List.append_assoc]
      rw [classSpan_eq,read_tag (style.ne_of_mem_body (.inr rfl)),read_escape,closes]
      simp [pieces]
  | opening w =>
    rw [Fragment.html,w.html_eq]
    exact read_tag (w.ne_of_mem_body (.inr rfl)) rest
  | closing => exact closes rest
  | lineBreak =>
    rw [Fragment.html,lineBreak_eq]
    exact read_tag (ne_of_not_mem (by decide)) rest
  | unrecognized title text =>
    simp only [Fragment.html,List.append_assoc]
    rw [classSpan_eq,← unrecognizedAttributes,read_tag (ne_of_mem_unrecognized (.inr rfl) title),
      read_escape,closes]
    simp [pieces]

theorem shown_pieces (f : Fragment) : shown f.pieces = fragmentText f := by
  have tagged (body t : Text) : shown (.tag body :: ofText t ++ [closingPiece]) = t := by
    change shown (ofText t ++ [closingPiece]) = t
    rw [shown_append,shown_ofText]
    exact List.append_nil t
  cases f with
  | styled style text =>
    cases style with
    | none => exact shown_ofText text
    | some style => exact tagged _ text
  | opening | closing | lineBreak => rfl
  | unrecognized title text => exact tagged _ text

end Fragment

namespace Markup

open Html

def pieces (m : Markup) : List Piece := m.flatMap Fragment.pieces

theorem pieces_cons (f : Fragment) (rest : Markup) :
    pieces (f :: rest) = f.pieces ++ pieces rest := List.flatMap_cons

@[simp] theorem pieces_append (m m' : Markup) : pieces (m ++ m') = pieces m ++ pieces m' :=
  List.flatMap_append

theorem read_html (m : Markup) : read (Markup.html m) = pieces m := by
  induction m with
  | nil => rfl
  | cons f rest ih =>
    change read (f.html ++ Markup.html rest) = f.pieces ++ pieces rest
    rw [f.read_html,ih]

theorem shown_pieces (m : Markup) : shown (pieces m) = plainText m := by
  induction m with
  | nil => rfl
  | cons f rest ih =>
    change shown (f.pieces ++ pieces rest) = fragmentText f ++ plainText rest
    rw [shown_append,f.shown_pieces,ih]

end Markup

end CorpusQuery
