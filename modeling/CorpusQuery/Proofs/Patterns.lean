import CorpusQuery.Proofs.Lexing

/-! What the tokens of a text are, said by patterns and apart from how they are found. Each token is the
longest beginning of what is left that has a pattern, or a single character with which no pattern begins. -/
namespace CorpusQuery

namespace Lexicon

/-- Characters from one of the ranges, which include both of their ends. -/
def OneOf (ranges : List (Char × Char)) (c : Char) : Prop := ∃ range ∈ ranges, range.1 ≤ c ∧ c ≤ range.2

instance (ranges : List (Char × Char)) (c : Char) : Decidable (OneOf ranges c) :=
  inferInstanceAs (Decidable (∃ range ∈ ranges, range.1 ≤ c ∧ c ≤ range.2))

def blanks : List (Char × Char) := [(' ',' '),('\t','\t'),('\r','\r'),('\n','\n')]

def digits : List (Char × Char) := [('0','9')]

def letters : List (Char × Char) := [('A','Z'),('a','z'),('_','_')]

def ascii : List (Char × Char) := [('\x00','\x7f')]

def marks : List (Terminal × Char) :=
  [(.lBracket,'['),(.rBracket,']'),(.lParen,'('),(.rParen,')'),(.lBrace,'{'),(.rBrace,'}'),
   (.lt,'<'),(.gt,'>'),(.slash,'/'),(.quote,'"'),(.backslash,'\\'),(.eq,'='),(.not,'!'),
   (.amp,'&'),(.pipe,'|'),(.star,'*'),(.plus,'+'),(.question,'?'),(.comma,','),(.semicolon,';')]

def keywords : List (Terminal × Text) :=
  [(.kwWithin,"within".toList),(.kwContaining,"containing".toList),(.kwMeet,"meet".toList),
   (.kwUnion,"union".toList)]

/-- The pattern of each kind of token. A keyword has the pattern of names as well. -/
inductive Pattern : Terminal → Text → Prop where
  | whitespace : t ≠ [] → (∀ c ∈ t, OneOf blanks c) → Pattern .whitespace t
  | mark : (kind,c) ∈ marks → Pattern kind [c]
  | notEq : Pattern .notEq ['!','=']
  | keyword : (kind,t) ∈ keywords → Pattern kind t
  /-- Digits, with a minus sign or without. -/
  | number : sign = [] ∨ sign = ['-'] → t ≠ [] → (∀ c ∈ t, OneOf digits c) → Pattern .number (sign ++ t)
  | name : OneOf letters c → (∀ d ∈ t, OneOf (letters ++ digits) d) → Pattern .ident (c :: t)
  | foreign : t ≠ [] → (∀ c ∈ t, ¬OneOf ascii c) → Pattern .text t

/-- The first token of a text: the longest beginning that has a pattern, of the kind of this pattern, or
the first character where nothing has. A name that is spelled like a keyword has the kind of it. -/
inductive Leads (t : Text) : Token → Prop where
  | longest : text <+: t → Pattern kind text →
      (∀ other longer, longer <+: t → Pattern other longer → longer.length ≤ text.length) →
      (kind = .ident → ∀ other, (other,text) ∉ keywords) → Leads t ⟨kind,text⟩
  | unknown : [c] <+: t → (∀ kind text, text <+: t → ¬Pattern kind text) → Leads t ⟨.unknown,[c]⟩

structure Cut (t : Text) (tokens : List Token) : Prop where
  proper : ∀ token ∈ tokens, token.text ≠ []
  whole : tokens.flatMap Token.text = t
  /-- Each token starts behind the bytes of those before it. -/
  starts : ∀ before token after, tokens = before ++ token :: after →
    (Token.located 0 tokens)[before.length]? = some (Text.byteLength (before.flatMap Token.text),token)
  leads : ∀ before token after, tokens = before ++ token :: after →
    Leads ((token :: after).flatMap Token.text) token

section Classes

variable {c : Char}

theorem between_iff (d c : Char) : d ≤ c ∧ c ≤ d ↔ c = d :=
  ⟨fun h => Char.le_antisymm h.2 h.1,fun h => h ▸ ⟨Char.le_refl _,Char.le_refl _⟩⟩

theorem oneOf_append_iff (few more : List (Char × Char)) :
    OneOf (few ++ more) c ↔ OneOf few c ∨ OneOf more c := by
  simp only [OneOf,List.mem_append,or_and_right,exists_or]

/-- Of ranges that lie apart no two share a character. -/
theorem not_oneOf_of_apart {few others : List (Char × Char)}
    (apart : ∀ x ∈ few, ∀ y ∈ others, x.2 < y.1 ∨ y.2 < x.1) (holds : OneOf few c) :
    ¬OneOf others c := by
  rintro ⟨y,inOthers,first,last⟩
  obtain ⟨x,inSome,start,stop⟩ := holds
  rcases apart x inSome y inOthers with below | above
  · exact Char.not_le.mpr below (Char.le_trans first stop)
  · exact Char.not_le.mpr above (Char.le_trans start last)

theorem oneOf_of_within {few others : List (Char × Char)}
    (within : ∀ x ∈ few, ∃ y ∈ others, y.1 ≤ x.1 ∧ x.2 ≤ y.2) (holds : OneOf few c) :
    OneOf others c := by
  obtain ⟨x,inSome,start,stop⟩ := holds
  obtain ⟨y,inOthers,first,last⟩ := within x inSome
  exact ⟨y,inOthers,Char.le_trans first start,Char.le_trans stop last⟩

theorem oneOf_blanks_iff : OneOf blanks c ↔ isBlank c = true := by
  simp [OneOf,blanks,between_iff,isBlank,or_assoc]

theorem oneOf_digits_iff : OneOf digits c ↔ c.isDigit = true := by
  simp [OneOf,digits,Char.isDigit,Char.le_def]

theorem oneOf_letters_iff : OneOf letters c ↔ isNameStart c = true := by
  have upper : c.isUpper = true ↔ 'A' ≤ c ∧ c ≤ 'Z' := decide_eq_true_iff
  have lower : c.isLower = true ↔ 'a' ≤ c ∧ c ≤ 'z' :=
    (Bool.and_eq_true_iff ..).trans (and_congr decide_eq_true_iff decide_eq_true_iff)
  have alpha : c.isAlpha = true ↔ c.isUpper = true ∨ c.isLower = true := Bool.or_eq_true_iff ..
  rw [isNameStart,Bool.or_eq_true,alpha,upper,lower]
  simp [OneOf,letters,between_iff,or_assoc]

theorem oneOf_name_iff : OneOf (letters ++ digits) c ↔ isNameChar c = true := by
  rw [oneOf_append_iff,oneOf_letters_iff,oneOf_digits_iff,isNameChar,Bool.or_eq_true]

theorem not_oneOf_ascii_iff : ¬OneOf ascii c ↔ isForeign c = true := by
  simp [OneOf,ascii,isForeign,Char.le_def]

end Classes

end Lexicon

open Lexicon

namespace Token

section Openings

variable {c : Char}

theorem opening_of_blank (blank : OneOf blanks c) (rest : Text) : opening c rest = .blank :=
  (opening_eq_blank_iff c rest).mpr (oneOf_blanks_iff.mp blank)

theorem opening_of_letter (letter : OneOf letters c) (rest : Text) : opening c rest = .name := by
  have dark : ¬OneOf blanks c := not_oneOf_of_apart (by decide) letter
  rw [oneOf_blanks_iff] at dark
  rw [oneOf_letters_iff] at letter
  simp [opening,dark,letter]

theorem opening_of_digit (digit : OneOf digits c) (rest : Text) : opening c rest = .number := by
  have dark : ¬OneOf blanks c := not_oneOf_of_apart (by decide) digit
  have noName : ¬OneOf letters c := not_oneOf_of_apart (by decide) digit
  rw [oneOf_blanks_iff] at dark
  rw [oneOf_letters_iff] at noName
  rw [oneOf_digits_iff] at digit
  simp [opening,dark,noName,digit]

theorem opening_of_minus (digit : OneOf digits c) (rest : Text) :
    opening '-' (c :: rest) = .number := by
  have : isBlank '-' = false ∧ isNameStart '-' = false := by decide
  rw [oneOf_digits_iff] at digit
  simp [opening,this,digit]

theorem opening_of_foreign (foreign : ¬OneOf ascii c) (rest : Text) : opening c rest = .foreign := by
  have dark : ¬OneOf blanks c := mt (oneOf_of_within (by decide)) foreign
  have noName : ¬OneOf letters c := mt (oneOf_of_within (by decide)) foreign
  have noDigit : ¬OneOf digits c := mt (oneOf_of_within (by decide)) foreign
  have noMinus : c ≠ '-' := by
    rintro rfl
    exact foreign (by decide)
  rw [oneOf_blanks_iff] at dark
  rw [oneOf_letters_iff] at noName
  rw [oneOf_digits_iff] at noDigit
  rw [not_oneOf_ascii_iff] at foreign
  simp [opening,dark,noName,noDigit,noMinus,foreign]

theorem opening_of_bang (rest : Text) : opening '!' ('=' :: rest) = .bang := by
  have : isBlank '!' = false ∧ isNameStart '!' = false ∧ Char.isDigit '!' = false ∧
    isForeign '!' = false := by decide
  simp [opening,this]

end Openings

/-- A beginning in which all characters are of a class ends where the class does, or before. -/
theorem length_le_takeWhile {p : Char → Bool} {front rest : Text} (begins : front <+: rest)
    (all : ∀ c ∈ front, p c = true) : front.length ≤ (rest.takeWhile p).length := by
  obtain ⟨after,rfl⟩ := begins
  rw [List.takeWhile_append_of_pos all,List.length_append]
  exact Nat.le_add_right ..

theorem ofMark_of_mem {kind : Terminal} {c : Char} (mark : (kind,c) ∈ marks) :
    Terminal.ofMark c = kind ∧ kind ≠ .unknown := by
  have all : ∀ x ∈ marks, Terminal.ofMark x.2 = x.1 ∧ x.1 ≠ .unknown := by decide
  exact all _ mark

theorem name_of_keyword {kind : Terminal} {c : Char} {more : Text}
    (keyword : (kind,c :: more) ∈ keywords) :
    OneOf letters c ∧ ∀ d ∈ more, OneOf (letters ++ digits) d := by
  have all : ∀ x ∈ keywords, x.2.all isNameStart = true := by decide
  have letter : ∀ d ∈ c :: more, OneOf letters d := fun d member =>
    oneOf_letters_iff.mpr (List.all_eq_true.mp (all _ keyword) d member)
  rw [List.forall_mem_cons] at letter
  exact ⟨letter.1,fun d member => (oneOf_append_iff ..).mpr (.inl (letter.2 d member))⟩

/-- A text that begins with a pattern has a token that is as long at least. -/
theorem length_le_tail {kind : Terminal} {c : Char} {more rest : Text}
    (pattern : Pattern kind (c :: more)) (begins : more <+: rest) :
    more.length ≤ (tail c rest).length ∧
      (opening c rest = .mark → Terminal.ofMark c ≠ .unknown) := by
  have name (letter : OneOf letters c) (all : ∀ d ∈ more, OneOf (letters ++ digits) d) :
      more.length ≤ (tail c rest).length ∧
        (opening c rest = .mark → Terminal.ofMark c ≠ .unknown) := by
    simp only [tail,opening_of_letter letter,reduceCtorEq,false_imp_iff,and_true]
    exact length_le_takeWhile begins fun d member => oneOf_name_iff.mp (all d member)
  generalize same : c :: more = t at pattern
  cases pattern with
  | whitespace _ all =>
    subst same
    rw [List.forall_mem_cons] at all
    simp only [tail,opening_of_blank all.1,reduceCtorEq,false_imp_iff,and_true]
    exact length_le_takeWhile begins fun d member => oneOf_blanks_iff.mp (all.2 d member)
  | mark isMark =>
    obtain ⟨rfl,rfl⟩ := List.cons.inj same
    obtain ⟨kind,known⟩ := ofMark_of_mem isMark
    exact ⟨Nat.zero_le _,fun _ => kind ▸ known⟩
  | notEq =>
    obtain ⟨rfl,rfl⟩ := List.cons.inj same
    obtain ⟨after,rfl⟩ := begins
    simp [tail,opening_of_bang]
  | keyword isKeyword =>
    subst same
    obtain ⟨letter,all⟩ := name_of_keyword isKeyword
    exact name letter all
  | name letter all =>
    obtain ⟨rfl,rfl⟩ := List.cons.inj same
    exact name letter all
  | foreign _ all =>
    subst same
    rw [List.forall_mem_cons] at all
    simp only [tail,opening_of_foreign all.1,reduceCtorEq,false_imp_iff,and_true]
    exact length_le_takeWhile begins fun d member => not_oneOf_ascii_iff.mp (all.2 d member)
  | number sign nonempty all =>
    rcases sign with rfl | rfl
    · subst same
      rw [List.forall_mem_cons] at all
      simp only [tail,opening_of_digit all.1,reduceCtorEq,false_imp_iff,and_true]
      exact length_le_takeWhile begins fun d member => oneOf_digits_iff.mp (all.2 d member)
    · obtain ⟨rfl,rfl⟩ := List.cons.inj same
      obtain ⟨d,later,rfl⟩ := List.exists_cons_of_ne_nil nonempty
      obtain ⟨after,rfl⟩ := begins
      have digit := all d List.mem_cons_self
      simp only [tail,List.cons_append,opening_of_minus digit,reduceCtorEq,false_imp_iff,and_true]
      exact length_le_takeWhile (List.prefix_append ..)
        fun d member => oneOf_digits_iff.mp (all d member)

/-- What the first characters are, from the way in which they begin a token. -/
theorem opening_cases (c : Char) (rest : Text) :
    match opening c rest with
    | .blank => OneOf blanks c
    | .name => OneOf letters c
    | .number => OneOf digits c ∨ c = '-' ∧ ∃ d more, rest = d :: more ∧ OneOf digits d
    | .foreign => ¬OneOf ascii c
    | .bang => c = '!' ∧ ∃ more, rest = '=' :: more
    | .mark => True := by
  simp only [oneOf_blanks_iff,oneOf_letters_iff,oneOf_digits_iff,not_oneOf_ascii_iff]
  unfold opening
  split_ifs with blank name number foreign bang
  · exact blank
  · exact name
  · simp only [Bool.or_eq_true,Bool.and_eq_true,beq_iff_eq] at number
    refine number.imp_right fun ⟨isMinus,next⟩ => ⟨isMinus,?_⟩
    cases rest with
    | nil => simp at next
    | cons d more => exact ⟨d,more,rfl,by simpa using next⟩
  · exact foreign
  · simp only [Bool.and_eq_true,beq_iff_eq] at bang
    refine ⟨bang.1,?_⟩
    cases rest with
    | nil => simp at bang
    | cons d more => exact ⟨more,by simpa using bang.2⟩
  · trivial

theorem mem_keywords_of_ofName {name : Text} (special : Terminal.ofName name ≠ .ident) :
    (Terminal.ofName name,name) ∈ keywords := by
  unfold Terminal.ofName at special ⊢
  split_ifs at special ⊢ with within containing meet union
  · simp [keywords,within]
  · simp [keywords,containing]
  · simp [keywords,meet]
  · simp [keywords,union]
  · exact absurd rfl special

theorem ofName_of_keyword {kind : Terminal} {name : Text} (keyword : (kind,name) ∈ keywords) :
    Terminal.ofName name = kind ∧ kind ≠ .ident := by
  have all : ∀ x ∈ keywords, Terminal.ofName x.2 = x.1 ∧ x.1 ≠ .ident := by decide
  exact all _ keyword

theorem mem_marks_of_ofMark {c : Char} (known : Terminal.ofMark c ≠ .unknown) :
    (Terminal.ofMark c,c) ∈ marks := by
  revert known
  unfold Terminal.ofMark
  split <;> simp [marks]

theorem pattern_first (c : Char) (rest : Text) :
    Pattern (first c rest).kind (first c rest).text ∨
      opening c rest = .mark ∧ Terminal.ofMark c = .unknown := by
  have all {p : Char → Bool} : ∀ d ∈ rest.takeWhile p, p d = true := fun d member =>
    List.all_eq_true.mp List.all_takeWhile d member
  have cases_ := opening_cases c rest
  cases how : opening c rest with
  | blank =>
    simp only [how] at cases_
    simp only [first,tail,how]
    refine .inl (.whitespace (by simp) (List.forall_mem_cons.mpr ⟨cases_,fun d member => ?_⟩))
    exact oneOf_blanks_iff.mpr (all d member)
  | name =>
    simp only [how] at cases_
    simp only [first,tail,how]
    by_cases special : Terminal.ofName (c :: rest.takeWhile isNameChar) = .ident
    · rw [special]
      exact .inl (.name cases_ fun d member => oneOf_name_iff.mpr (all d member))
    · exact .inl (.keyword (mem_keywords_of_ofName special))
  | number =>
    simp only [how] at cases_
    simp only [first,tail,how]
    rcases cases_ with digit | ⟨rfl,d,more,rfl,digit⟩
    · refine .inl (.number (.inl rfl) (by simp) (List.forall_mem_cons.mpr ⟨digit,fun d member => ?_⟩))
      exact oneOf_digits_iff.mpr (all d member)
    · refine .inl (.number (.inr rfl) ?_ fun d member => oneOf_digits_iff.mpr (all d member))
      simp [oneOf_digits_iff.mp digit]
  | foreign =>
    simp only [how] at cases_
    simp only [first,tail,how]
    refine .inl (.foreign (by simp) (List.forall_mem_cons.mpr ⟨cases_,fun d member => ?_⟩))
    exact not_oneOf_ascii_iff.mpr (all d member)
  | bang =>
    simp only [how] at cases_
    obtain ⟨rfl,more,rfl⟩ := cases_
    simp only [first,tail,how]
    exact .inl .notEq
  | mark =>
    by_cases known : Terminal.ofMark c = .unknown
    · exact .inr ⟨rfl,known⟩
    · simp only [first,tail,how]
      exact .inl (.mark (mem_marks_of_ofMark known))

/-- The kind of a pattern follows from the text, a name apart that is spelled like a keyword. -/
theorem kind_eq_first {kind : Terminal} {c : Char} {more : Text} (pattern : Pattern kind (c :: more))
    (noKeyword : kind = .ident → ∀ other, (other,c :: more) ∉ keywords) :
    kind = (first c more).kind := by
  have name (letter : OneOf letters c) (all : ∀ d ∈ more, OneOf (letters ++ digits) d) :
      (first c more).kind = .ofName (c :: more) := by
    have whole : more.takeWhile isNameChar = more := by
      have : (more ++ []).takeWhile isNameChar = more ++ [] :=
        List.takeWhile_append_of_pos fun d member => oneOf_name_iff.mp (all d member)
      simpa using this
    simp only [first,tail,opening_of_letter letter,whole]
  generalize same : c :: more = t at pattern noKeyword
  cases pattern with
  | whitespace _ all =>
    subst same
    simp only [first,opening_of_blank (all c List.mem_cons_self)]
  | mark isMark =>
    obtain ⟨rfl,rfl⟩ := List.cons.inj same
    have all : ∀ x ∈ marks, x.1 = (first x.2 []).kind := by decide
    exact all _ isMark
  | notEq =>
    obtain ⟨rfl,rfl⟩ := List.cons.inj same
    simp only [first,opening_of_bang]
  | keyword isKeyword =>
    subst same
    obtain ⟨letter,all⟩ := name_of_keyword isKeyword
    rw [name letter all,(ofName_of_keyword isKeyword).1]
  | name letter all =>
    obtain ⟨rfl,rfl⟩ := List.cons.inj same
    rw [name letter all]
    by_contra special
    exact noKeyword rfl _ (mem_keywords_of_ofName (Ne.symm special))
  | foreign _ all =>
    subst same
    simp only [first,opening_of_foreign (all c List.mem_cons_self)]
  | number sign nonempty all =>
    rcases sign with rfl | rfl
    · subst same
      simp only [first,opening_of_digit (all c List.mem_cons_self)]
    · obtain ⟨rfl,rfl⟩ := List.cons.inj same
      obtain ⟨d,later,rfl⟩ := List.exists_cons_of_ne_nil nonempty
      simp only [first,opening_of_minus (all d List.mem_cons_self)]

theorem tail_begins (c : Char) (rest : Text) : tail c rest <+: rest :=
  ⟨_,tail_append_drop c rest⟩

theorem not_mem_keywords_first {c : Char} {rest : Text} (ident : (first c rest).kind = .ident)
    (other : Terminal) : (other,(first c rest).text) ∉ keywords := by
  intro keyword
  obtain ⟨letter,-⟩ := name_of_keyword keyword
  obtain ⟨same,special⟩ := ofName_of_keyword keyword
  refine special (same.symm.trans ?_)
  simpa [first,opening_of_letter letter] using ident

theorem text_ne_nil_of_pattern {kind : Terminal} {t : Text} (pattern : Pattern kind t) : t ≠ [] := by
  cases pattern with
  | whitespace nonempty | foreign nonempty => exact nonempty
  | mark | notEq | name => exact List.cons_ne_nil _ _
  | keyword isKeyword =>
    have all : ∀ x ∈ keywords, x.2 ≠ [] := by decide
    exact all _ isKeyword
  | number _ nonempty => simp [nonempty]

theorem within_first {kind : Terminal} {c : Char} {rest longer : Text}
    (begins : longer <+: c :: rest) (pattern : Pattern kind longer) :
    longer.length ≤ (first c rest).text.length ∧
      ¬(opening c rest = .mark ∧ Terminal.ofMark c = .unknown) := by
  obtain ⟨d,more,rfl⟩ := List.exists_cons_of_ne_nil (text_ne_nil_of_pattern pattern)
  obtain ⟨rfl,inRest⟩ := List.cons_prefix_cons.mp begins
  obtain ⟨short,known⟩ := length_le_tail pattern inRest
  exact ⟨Nat.succ_le_succ short,fun ⟨mark,unknown⟩ => known mark unknown⟩

/-- The patterns leave one choice for the first token of a text, and that one is read. -/
theorem leads_iff (c : Char) (rest : Text) (token : Token) :
    Leads (c :: rest) token ↔ token = first c rest := by
  have begins : (first c rest).text <+: c :: rest :=
    List.cons_prefix_cons.mpr ⟨rfl,tail_begins c rest⟩
  have unknown (alone : opening c rest = .mark ∧ Terminal.ofMark c = .unknown) :
      first c rest = ⟨.unknown,[c]⟩ := by simp [first,tail,alone]
  constructor
  · intro h
    cases h with
    | @longest text kind isPrefix pattern greatest noKeyword =>
      obtain ⟨short,known⟩ := within_first isPrefix pattern
      have patternFirst := (pattern_first c rest).resolve_right known
      have long := greatest _ _ begins patternFirst
      have same : text = (first c rest).text :=
        (List.prefix_of_prefix_length_le isPrefix begins short).eq_of_length (short.antisymm long)
      subst same
      rw [kind_eq_first pattern noKeyword,← kind_eq_first patternFirst not_mem_keywords_first]
    | @unknown d isPrefix unmatched =>
      obtain ⟨rfl,-⟩ := List.cons_prefix_cons.mp isPrefix
      exact (unknown ((pattern_first d rest).resolve_left (unmatched _ _ begins))).symm
  · rintro rfl
    rcases pattern_first c rest with pattern | alone
    · exact .longest begins pattern (fun _ _ isPrefix other => (within_first isPrefix other).1)
        not_mem_keywords_first
    · rw [unknown alone]
      exact .unknown (List.cons_prefix_cons.mpr ⟨rfl,List.nil_prefix⟩)
        fun _ _ isPrefix pattern => (within_first isPrefix pattern).2 alone

/-- Tokens from one of them on are the tokens of their own text. -/
theorem tokenize_of_append {t : Text} {before after : List Token} (split : tokenize t = before ++ after) :
    tokenize (after.flatMap Token.text) = after := by
  induction before generalizing t with
  | nil =>
    rw [List.nil_append] at split
    rw [← split,flatMap_text_tokenize]
  | cons token before ih =>
    cases t with
    | nil => simp [tokenize] at split
    | cons c rest =>
      rw [tokenize,List.cons_append] at split
      exact ih (List.cons.inj split).2

theorem getElem?_located (offset : Nat) (before after : List Token) (token : Token) :
    (located offset (before ++ token :: after))[before.length]? =
      some (offset + Text.byteLength (before.flatMap Token.text),token) := by
  induction before generalizing offset with
  | nil => rfl
  | cons first before ih =>
    rw [List.cons_append,located,List.length_cons,List.getElem?_cons_succ,ih]
    simp [byteLength,Nat.add_assoc]

/-- The tokens of a text are those into which the patterns cut it. -/
theorem eq_tokenize_iff (t : Text) (tokens : List Token) : tokens = tokenize t ↔ Cut t tokens := by
  constructor
  · rintro rfl
    refine ⟨fun _ => text_ne_nil,flatMap_text_tokenize t,?_,?_⟩
    · intro before token after split
      rw [split,getElem?_located,Nat.zero_add]
    · intro before token after split
      have first := tokenize_of_append split
      cases text : (token :: after).flatMap Token.text with
      | nil =>
        have member : token ∈ tokenize t := by simp [split]
        simp [text_ne_nil member] at text
      | cons c rest =>
        rw [text,tokenize] at first
        exact (leads_iff c rest token).mpr (List.cons.inj first).1.symm
  · rintro ⟨proper,rfl,-,leads⟩
    induction tokens with
    | nil => simp [tokenize]
    | cons token rest ih =>
      rw [List.forall_mem_cons] at proper
      have later := ih proper.2 fun before token after split =>
        leads (_ :: before) token after (congrArg _ split)
      obtain ⟨c,more,text⟩ := List.exists_cons_of_ne_nil proper.1
      have isFirst := leads [] token rest rfl
      rw [List.flatMap_cons,text,List.cons_append] at isFirst ⊢
      have same := (leads_iff ..).mp isFirst
      have isTail : more = tail c (more ++ rest.flatMap Token.text) := by
        have := congrArg Token.text same
        rw [text] at this
        exact (List.cons.inj this).2
      rw [tokenize,← same,← isTail,List.drop_left,← later]

end Token

end CorpusQuery
