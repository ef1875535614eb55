import CorpusQuery.Proofs.Patterns
import CorpusQuery.Proofs.Values
import Mathlib.Algebra.Group.Nat.Even

/-! Quotation marks that are escaped, by the characters of a text and by its tokens. An escape takes a
backslash and a whole token, but no token of more than one character has a quotation mark or a backslash in
it. So what is read of a value has the marks in it that a reader of the characters takes for escaped: those
with an odd number of backslashes before them. -/
namespace CorpusQuery

namespace Text

/-- Number of backslashes with which a text ends. -/
def backslashes (t : Text) : Nat := (t.reverse.takeWhile (· == '\\')).length

/-- A quotation mark that is not escaped, by its byte offset. -/
def QuoteAt (t : Text) (n : Nat) : Prop :=
  ∃ before after, t = before ++ '"' :: after ∧ n = byteLength before ∧ Even (backslashes before)

def FirstQuoteAt (t : Text) (start n : Nat) : Prop :=
  t.QuoteAt n ∧ start ≤ n ∧ ∀ m, start ≤ m → m < n → ¬t.QuoteAt m

def NoQuoteFrom (t : Text) (start : Nat) : Prop := ∀ n, start ≤ n → ¬t.QuoteAt n

/-- Where a value ends that begins at an offset: before the first quotation mark that is not escaped, or
with the text. -/
inductive ValueEnds (t : Text) (start : Nat) : Nat → Prop where
  | quote : t.FirstQuoteAt start n → ValueEnds t start n
  | never : t.NoQuoteFrom start → ValueEnds t start t.byteLength

/-- A text without quotation marks but those behind a backslash, in which each backslash has a character
behind it that it escapes. -/
inductive Escaped : Text → Prop where
  | nil : Escaped []
  | plain : c ≠ '"' → c ≠ '\\' → Escaped t → Escaped (c :: t)
  | escape : Escaped t → Escaped ('\\' :: c :: t)

@[simp] theorem backslashes_concat_backslash (t : Text) :
    backslashes (t ++ ['\\']) = backslashes t + 1 := by
  simp [backslashes]

theorem backslashes_concat {c : Char} (plain : c ≠ '\\') (t : Text) : backslashes (t ++ [c]) = 0 := by
  simp [backslashes,plain]

namespace Escaped

variable {t more : Text}

theorem append (h : Escaped t) (next : Escaped more) : Escaped (t ++ more) := by
  induction h with
  | nil => exact next
  | plain noQuote noEscape _ ih => exact .plain noQuote noEscape ih
  | escape _ ih => exact .escape ih

theorem of_plain (all : ∀ c ∈ t, c ≠ '"' ∧ c ≠ '\\') : Escaped t := by
  induction t with
  | nil => exact .nil
  | cons c t ih =>
    obtain ⟨⟨noQuote,noEscape⟩,all⟩ := List.forall_mem_cons.mp all
    exact .plain noQuote noEscape (ih all)

/-- Behind an even number of backslashes, an escaped text leaves the parity as it is, and each quotation mark
in it stands behind an odd number. -/
theorem parity (h : Escaped t) (front : Text) (even : Even (backslashes front)) :
    Even (backslashes (front ++ t)) ∧ ∀ before after, t = before ++ '"' :: after →
      ¬Even (backslashes (front ++ before)) := by
  induction h generalizing front with
  | nil => simp [even]
  | @plain c t noQuote noEscape _ ih =>
    obtain ⟨whole,inside⟩ := ih (front ++ [c]) (by simp [backslashes_concat noEscape])
    rw [List.append_assoc] at whole
    refine ⟨whole,fun before after split => ?_⟩
    cases before with
    | nil => exact absurd (List.cons.inj split).1 noQuote
    | cons _ before =>
      obtain ⟨rfl,later⟩ := List.cons.inj split
      simpa using inside before after later
  | @escape t c _ ih =>
    have next : Even (backslashes (front ++ ['\\',c])) := by
      rw [List.append_cons]
      by_cases escapes : c = '\\'
      · rw [escapes,backslashes_concat_backslash,backslashes_concat_backslash]
        simpa [Nat.even_add_one] using even
      · rw [backslashes_concat escapes]
        exact Even.zero
    obtain ⟨whole,inside⟩ := ih (front ++ ['\\',c]) next
    rw [List.append_assoc] at whole
    refine ⟨whole,fun before after split => ?_⟩
    cases before with
    | nil => simp at split
    | cons _ before =>
      obtain ⟨rfl,next⟩ := List.cons.inj split
      cases before with
      | nil => simpa [Nat.even_add_one] using even
      | cons _ before =>
        obtain ⟨rfl,later⟩ := List.cons.inj next
        simpa using inside before after later

theorem behind_of_quoteAt {front : Text} {n : Nat} (h : Escaped t) (even : Even (backslashes front))
    (isQuote : (front ++ (t ++ more)).QuoteAt n) (later : byteLength front ≤ n) :
    ∃ between after, more = between ++ '"' :: after ∧ n = byteLength (front ++ (t ++ between)) := by
  obtain ⟨before,after,split,rfl,evenBefore⟩ := isQuote
  have inside := (h.parity front even).2
  rcases List.append_eq_append_iff.mp split with ⟨within,rfl,marked⟩ | ⟨back,rfl,marked⟩
  · rcases List.append_eq_append_iff.mp marked with ⟨between,rfl,behind⟩ | ⟨rest,isText,behind⟩
    · exact ⟨between,after,behind,rfl⟩
    · cases rest with
      | nil => exact ⟨[],after,behind.symm,by simp [isText]⟩
      | cons c rest =>
        obtain ⟨rfl,-⟩ := List.cons.inj behind
        exact absurd evenBefore (inside within rest isText)
  · -- A part of the front behind the mark would have bytes.
    obtain rfl : back = [] := (byteLength_eq_zero_iff back).mp (by simp at later; omega)
    rw [List.append_nil] at inside
    cases t with
    | nil => exact ⟨[],after,marked.symm,by simp⟩
    | cons c t =>
      obtain ⟨rfl,-⟩ := List.cons.inj marked
      exact absurd (by simpa using evenBefore) (inside [] t rfl)

theorem firstQuoteAt {front : Text} (h : Escaped t) (even : Even (backslashes front)) (after : Text) :
    (front ++ (t ++ '"' :: after)).FirstQuoteAt (byteLength front) (byteLength (front ++ t)) := by
  refine ⟨⟨front ++ t,after,by simp,rfl,(h.parity front even).1⟩,by simp,fun m later before isQuote => ?_⟩
  obtain ⟨between,_,-,rfl⟩ := h.behind_of_quoteAt even isQuote later
  simp only [byteLength_append] at before
  omega

theorem noQuoteFrom {front : Text} (h : Escaped t) (even : Even (backslashes front))
    (last : '"' ∉ more) : (front ++ (t ++ more)).NoQuoteFrom (byteLength front) := by
  intro n later isQuote
  obtain ⟨between,after,rfl,-⟩ := h.behind_of_quoteAt even isQuote later
  simp at last

end Escaped

end Text

/-- A mark in the text of a token is all of it. Only an exclamation mark may have something behind it. -/
theorem Token.eq_of_mem_text {t : Text} {token : Token} {mark : Char} (member : token ∈ tokenize t)
    (alone : standsAlone mark = true) (known : Terminal.ofMark mark ≠ .unknown) (noBang : mark ≠ '!')
    (inText : mark ∈ token.text) : token = ⟨.ofMark mark,[mark]⟩ := by
  obtain ⟨blank,name,start,digit,foreign,eq⟩ := not_of_standsAlone alone
  have outside {p : Char → Bool} {rest : Text} (refused : p mark = false) :
      mark ∉ rest.takeWhile p := fun inRun => by
    have := List.all_eq_true.mp List.all_takeWhile mark inRun
    simp [refused] at this
  fun_induction tokenize t with
  | case1 => simp at member
  | case2 c rest ih =>
    rcases List.mem_cons.mp member with rfl | later
    · rcases List.mem_cons.mp inText with rfl | inTail
      · have noMinus : mark ≠ '-' := by
          rintro rfl
          exact known rfl
        have isMark : opening mark rest = .mark := by
          simp [opening,blank,start,digit,foreign,noBang,noMinus]
        simp [first,tail,isMark]
      · exfalso
        unfold tail at inTail
        have cases_ := opening_cases c rest
        cases how : opening c rest with
        | blank => exact outside blank (by simpa [how] using inTail)
        | name => exact outside name (by simpa [how] using inTail)
        | number => exact outside digit (by simpa [how] using inTail)
        | foreign => exact outside foreign (by simpa [how] using inTail)
        | bang =>
          simp only [how] at cases_ inTail
          obtain ⟨-,more,rfl⟩ := cases_
          exact eq (by simpa using inTail)
        | mark => simp [how] at inTail
    · exact ih later

/-- Neither a quotation mark nor a backslash is in a token that is not one. -/
theorem Token.plain_of_kind {t : Text} {token : Token} (member : token ∈ tokenize t)
    (noQuote : token.kind ≠ .quote) (noEscape : token.kind ≠ .backslash) :
    ∀ c ∈ token.text, c ≠ '"' ∧ c ≠ '\\' := by
  intro c inText
  constructor <;> rintro rfl
  · rw [eq_of_mem_text member (by decide) (by decide) (by decide) inText] at noQuote
    exact noQuote rfl
  · rw [eq_of_mem_text member (by decide) (by decide) (by decide) inText] at noEscape
    exact noEscape rfl

theorem Token.plain_behind {t later : Text} {token : Token} {c : Char} (member : token ∈ tokenize t)
    (text : token.text = c :: later) : ∀ d ∈ later, d ≠ '"' ∧ d ≠ '\\' := by
  intro d inLater
  have inText : d ∈ token.text := text ▸ List.mem_cons_of_mem c inLater
  constructor <;> rintro rfl
  all_goals
    rw [eq_of_mem_text member (by decide) (by decide) (by decide) inText] at text
    simp [← (List.cons.inj text).2] at inLater

/-! ### What is read of a value -/

namespace Cursor

/-- From one cursor to another an escaped text is read, or up to the end one with a backslash behind it. -/
def ReadsEscaped (c d : Cursor) : Prop :=
  ∃ read last, Text.Escaped read ∧ c.text = read ++ last ++ d.text ∧
    d.offset = c.offset + Text.byteLength (read ++ last) ∧ (last = [] ∨ last = ['\\'] ∧ d.text = [])

namespace ReadsEscaped

variable {c d f : Cursor}

@[refl] theorem refl (c : Cursor) : c.ReadsEscaped c := ⟨[],[],.nil,by simp⟩

theorem trans (cd : c.ReadsEscaped d) (df : d.ReadsEscaped f) : c.ReadsEscaped f := by
  obtain ⟨read,last,escaped,text,offset,isLast⟩ := cd
  obtain ⟨more,last',escaped',text',offset',isLast'⟩ := df
  rcases isLast with rfl | ⟨rfl,atEnd⟩
  · refine ⟨read ++ more,last',escaped.append escaped',?_,?_,isLast'⟩
    · simp [text,text']
    · simp only [offset',offset,Text.byteLength_append,Text.byteLength_nil]
      omega
  · -- Nothing is left to read.
    obtain ⟨rfl,rfl,atEnd'⟩ : more = [] ∧ last' = [] ∧ f.text = [] := by simpa [atEnd] using text'
    exact ⟨read,['\\'],escaped,by simpa [atEnd,atEnd'] using text,by simpa [offset'] using offset,
      .inr ⟨rfl,atEnd'⟩⟩

theorem advance (c : Cursor) (n : Nat) (escaped : Text.Escaped ((c.rest.take n).flatMap Token.text)) :
    c.ReadsEscaped (c.advance n) :=
  ⟨_,[],escaped,by simpa using c.text_eq n,by simpa using c.offset_advance n,.inl rfl⟩

theorem firstQuoteAt {t front after : Text} (h : c.ReadsEscaped d) (place : t = front ++ c.text)
    (offset : c.offset = Text.byteLength front) (even : Even (Text.backslashes front))
    (closes : d.text = '"' :: after) : t.FirstQuoteAt c.offset d.offset := by
  obtain ⟨read,last,escaped,text,stop,isLast⟩ := h
  obtain rfl : last = [] := isLast.resolve_right fun h => by simp [closes] at h
  rw [place,text,stop,offset,closes,List.append_nil,← Text.byteLength_append]
  exact escaped.firstQuoteAt even after

theorem noQuoteFrom {t front : Text} (h : c.ReadsEscaped d) (place : t = front ++ c.text)
    (offset : c.offset = Text.byteLength front) (even : Even (Text.backslashes front))
    (atEnd : d.text = []) : t.NoQuoteFrom c.offset := by
  obtain ⟨read,last,escaped,text,-,isLast⟩ := h
  rw [place,text,offset,atEnd,List.append_nil]
  refine escaped.noQuoteFrom even ?_
  rcases isLast with rfl | ⟨rfl,-⟩ <;> simp

end ReadsEscaped

namespace Reaches

variable {t : Text} {c : Cursor}

/-- What an escape takes behind its first character needs no escape. -/
theorem readsEscaped_escape (h : Cursor.Reaches ⟨0,tokenize t⟩ c) (at_ : c.isAt .backslash = true) :
    c.ReadsEscaped (c.advance c.escapeLength) := by
  obtain ⟨mark,rest,split,isMark⟩ := rest_of_isAt at_
  have inTokens (token : Token) (member : token ∈ mark :: rest) : token ∈ tokenize t :=
    h.mem_rest (split ▸ member)
  have text : mark.text = ['\\'] := Token.text_of_mark (inTokens _ (by simp)) (by decide) isMark
  cases rest with
  | nil =>
    refine ⟨[],['\\'],.nil,?_,?_,.inr ⟨rfl,?_⟩⟩
    · simp [Cursor.text,split,text,escapeLength,kindAt?]
    · simp [offset_advance,split,text,escapeLength,kindAt?]
    · simp [Cursor.text,split,escapeLength,kindAt?]
  | cons token rest =>
    have member := inTokens token (by simp)
    obtain ⟨first,later,isText⟩ := List.exists_cons_of_ne_nil (Token.text_ne_nil member)
    refine .advance c _ ?_
    simpa [split,escapeLength,kindAt?,text,isText] using
      Text.Escaped.escape (.of_plain (Token.plain_behind member isText))

theorem readsEscaped_run (h : Cursor.Reaches ⟨0,tokenize t⟩ c) :
    c.ReadsEscaped (c.advance (Recognizer.runLength .quote c.rest)) := by
  refine .advance c _ (.of_plain fun x inText => ?_)
  rw [Recognizer.runLength,← List.prefix_iff_eq_take.mp (List.takeWhile_prefix _)] at inText
  obtain ⟨token,inRun,inToken⟩ := List.mem_flatMap.mp inText
  have other := List.all_eq_true.mp List.all_takeWhile token inRun
  simp only [Bool.and_eq_true,bne_iff_ne] at other
  exact Token.plain_of_kind (h.mem_rest ((List.takeWhile_prefix _).subset inRun)) other.1 other.2 x
    inToken

theorem readsEscaped_trivia (h : Cursor.Reaches ⟨0,tokenize t⟩ c) (at_ : c.isAt .whitespace = true) :
    c.ReadsEscaped (c.advance 1) := by
  obtain ⟨token,rest,split,white⟩ := rest_of_isAt at_
  refine .advance c 1 (.of_plain ?_)
  simpa [split] using Token.plain_of_kind (h.mem_rest (split ▸ List.mem_cons_self))
    (by simp [white]) (by simp [white])

end Reaches

end Cursor

namespace Grammar

def Expr.readsValues : Expr → Bool
  | .done | .reject _ | .trivia | .escape => true
  | .token .. => false
  | .run stop => stop == .quote
  | .call r => r == .regExpRaw
  | .andThen first second | .orElse first second | .next _ first second =>
    first.readsValues && second.readsValues
  | .optional body | .attempt body | .many body => body.readsValues

namespace Trail

variable {e : Expr} {c : Cursor} {ending : Ending} {T : List Entry} {t : Text}

theorem readsEscaped (h : Trail e c ending T) (values : e.readsValues = true)
    (from_ : Cursor.Reaches ⟨0,tokenize t⟩ c) : c.ReadsEscaped ending.reach := by
  have inner {r : NonTerminal} (isValue : (Expr.call r).readsValues = true) :
      (body r).readsValues = true := by
    obtain rfl : r = .regExpRaw := by simpa [Expr.readsValues] using isValue
    rfl
  have both {a b : Expr} (values : (Expr.andThen a b).readsValues = true) :
      a.readsValues = true ∧ b.readsValues = true := by simpa [Expr.readsValues] using values
  induction h with
  | done | reject | noTrivia | noEscape | noRun | optionalNone | manyNone => exact .refl _
  | token | noToken => cases values
  | trivia at_ => exact from_.readsEscaped_trivia at_
  | escape at_ => exact from_.readsEscaped_escape at_
  | @run stop c nonzero =>
    obtain rfl : stop = .quote := by simpa [Expr.readsValues] using values
    exact from_.readsEscaped_run
  | call _ ih | callBroken _ ih | callRests _ _ ih => exact ih (inner values) from_
  | andThen first _ ihFirst ihSecond =>
    exact (ihFirst (both values).1 from_).trans (ihSecond (both values).2 (from_.trans first.reach))
  | manyMore first _ ihFirst ihSecond =>
    exact (ihFirst values from_).trans (ihSecond values (from_.trans first.reach))
  | andThenBroken _ ih | andThenRests _ _ _ _ ih | andThenGivesUp _ _ _ ih | orElse _ _ ih
  | nextYes _ _ ih => exact ih (both values).1 from_
  | orElseSecond _ _ _ ih | nextNo _ _ ih => exact ih (both values).2 from_
  | optional _ _ ih | optionalRests _ _ ih | attempt _ ih | manyRests _ _ ih | manyStops _ ih =>
    exact ih values from_

end Trail

end Grammar

end CorpusQuery
