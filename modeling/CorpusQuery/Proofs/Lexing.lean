import CorpusQuery.Proofs.Lookahead
import CorpusQuery.Token

/-! The tokens of a text: none is empty, no two of white space meet, and a bracket or semicolon after a
text leaves its tokens as they are. -/
namespace CorpusQuery

namespace Token

theorem first_text_ne_nil (c : Char) (rest : Text) : (first c rest).text ≠ [] := by simp [first]

theorem byteLength_pos {token : Token} (nonempty : token.text ≠ []) : 0 < token.byteLength := by
  have := (Text.byteLength_eq_zero_iff token.text).not.mpr nonempty
  unfold byteLength
  omega

theorem text_ne_nil {t : Text} {token : Token} (member : token ∈ tokenize t) : token.text ≠ [] := by
  fun_induction tokenize t with
  | case1 => simp at member
  | case2 c rest ih =>
    rcases List.mem_cons.mp member with rfl | later
    · exact first_text_ne_nil c rest
    · exact ih later

theorem opening_eq_blank_iff (c : Char) (rest : Text) :
    opening c rest = .blank ↔ isBlank c = true := by
  by_cases blank : isBlank c = true
  · simp [opening,blank]
  · simp only [opening,blank]
    grind

/-- Only blank characters make a token of white space. -/
theorem first_whitespace_iff (c : Char) (rest : Text) :
    (first c rest).kind = .whitespace ↔ isBlank c = true := by
  have ofName (name : Text) : Terminal.ofName name ≠ .whitespace := by
    unfold Terminal.ofName
    split_ifs <;> simp
  have ofMark : Terminal.ofMark c ≠ .whitespace := by
    unfold Terminal.ofMark
    split <;> simp
  rw [← opening_eq_blank_iff c rest]
  cases how : opening c rest <;> simp [first,how,ofName,ofMark]

theorem spaced_tokenize (t : Text) :
    (tokenize t).IsChain fun a b => ¬(a.kind = .whitespace ∧ b.kind = .whitespace) := by
  fun_induction tokenize t with
  | case1 => exact .nil
  | case2 c rest ih =>
    refine List.isChain_cons.mpr ⟨fun next isNext => ?_,ih⟩
    rintro ⟨white,again⟩
    -- The token takes all blank characters, so the next one starts with another.
    have blank := (first_whitespace_iff c rest).mp white
    have taken : tail c rest = rest.takeWhile isBlank := by simp [tail,opening,blank]
    have dropped : rest.drop (rest.takeWhile isBlank).length = rest.dropWhile isBlank := by
      have parts : rest.takeWhile isBlank ++ rest.dropWhile isBlank = rest :=
        List.takeWhile_append_dropWhile
      have left : (rest.takeWhile isBlank ++ rest.dropWhile isBlank).drop
          (rest.takeWhile isBlank).length = rest.dropWhile isBlank := List.drop_left
      rwa [parts] at left
    rw [taken,dropped] at isNext
    cases split : rest.dropWhile isBlank with
    | nil => simp [split,tokenize] at isNext
    | cons d more =>
      rw [split,tokenize,List.head?_cons,Option.mem_some_iff] at isNext
      subst isNext
      have dark := List.head?_dropWhile_not isBlank rest
      rw [split] at dark
      simp [(first_whitespace_iff d more).mp again] at dark

theorem isNameChar_of_ident {t : Text} {token : Token} (member : token ∈ tokenize t)
    (ident : token.kind = .ident) : ∀ c ∈ token.text, isNameChar c = true := by
  fun_induction tokenize t with
  | case1 => simp at member
  | case2 c rest ih =>
    rcases List.mem_cons.mp member with rfl | later
    · have ofMark : Terminal.ofMark c ≠ .ident := by
        unfold Terminal.ofMark
        split <;> simp
      have isName : opening c rest = .name := by
        cases how : opening c rest <;> simp [first,how,ofMark] at ident ⊢
      have starts : isNameStart c = true := by
        by_contra notStart
        simp only [opening,notStart] at isName
        grind
      intro d inText
      simp only [first,tail,isName,List.mem_cons] at inText
      rcases inText with rfl | inTail
      · simp [isNameChar,starts]
      · exact List.all_eq_true.mp List.all_takeWhile d inTail
    · exact ih later

theorem kind_of_semicolons {t : Text} {token : Token} (member : token ∈ tokenize t)
    (only : ∀ c ∈ token.text, c = ';') : token.kind = .semicolon := by
  fun_induction tokenize t with
  | case1 => simp at member
  | case2 c rest ih =>
    rcases List.mem_cons.mp member with rfl | later
    · obtain rfl : c = ';' := only c (by simp [first])
      have isMark : opening ';' rest = .mark := by
        have : isBlank ';' = false ∧ isNameStart ';' = false ∧ Char.isDigit ';' = false ∧
            isForeign ';' = false := by decide
        simp [opening,this]
      simp only [first,isMark]
      rfl
    · exact ih later

def standsAlone (c : Char) : Bool := !isBlank c && !isNameChar c && !isForeign c && c != '='

theorem not_of_standsAlone {c : Char} (alone : standsAlone c = true) : isBlank c = false ∧
    isNameChar c = false ∧ isNameStart c = false ∧ c.isDigit = false ∧ isForeign c = false ∧
      c ≠ '=' := by
  simp only [standsAlone,Bool.and_eq_true,Bool.not_eq_true',bne_iff_ne] at alone
  obtain ⟨⟨⟨blank,name⟩,foreign⟩,eq⟩ := alone
  obtain ⟨start,digit⟩ := Bool.or_eq_false_iff.mp name
  exact ⟨blank,name,start,digit,foreign,eq⟩

theorem first_of_standsAlone {c : Char} (alone : standsAlone c = true) :
    first c [] = ⟨.ofMark c,[c]⟩ := by
  obtain ⟨blank,-,start,digit,foreign,-⟩ := not_of_standsAlone alone
  have mark : opening c [] = .mark := by simp [opening,blank,start,digit,foreign]
  simp [first,tail,mark]

/-- Nothing before such a character is read differently. -/
theorem tail_concat {c : Char} (alone : standsAlone c = true) (d : Char) (rest : Text) :
    opening d (rest ++ [c]) = opening d rest ∧ tail d (rest ++ [c]) = tail d rest := by
  obtain ⟨blank,name,-,digit,foreign,eq⟩ := not_of_standsAlone alone
  have same : opening d (rest ++ [c]) = opening d rest := by
    cases rest with
    | nil => simp [opening,digit,eq]
    | cons => rfl
  have run {p : Char → Bool} (stops : p c = false) :
      (rest ++ [c]).takeWhile p = rest.takeWhile p := by
    rw [List.takeWhile_append]
    split
    next all =>
      rw [List.takeWhile_cons_of_neg (by simp [stops]),List.append_nil]
      exact ((List.takeWhile_prefix p).eq_of_length all).symm
    next => rfl
  refine ⟨same,?_⟩
  rw [tail,tail,same]
  cases how : opening d rest with
  | blank => exact run blank
  | name => exact run name
  | number => exact run digit
  | foreign => exact run foreign
  | mark => rfl
  | bang =>
    -- The equals sign is there already.
    cases rest with
    | nil =>
      simp only [opening,List.head?_nil] at how
      grind
    | cons => rfl

theorem tokenize_concat {c : Char} (alone : standsAlone c = true) (t : Text) :
    tokenize (t ++ [c]) = tokenize t ++ [⟨.ofMark c,[c]⟩] := by
  fun_induction tokenize t with
  | case1 => simp [tokenize,first_of_standsAlone alone]
  | case2 d rest ih =>
    obtain ⟨same,sameTail⟩ := tail_concat alone d rest
    have isPrefix : (tail d rest).length ≤ rest.length := by
      have := congrArg List.length (tail_append_drop d rest)
      rw [List.length_append] at this
      omega
    rw [List.cons_append,tokenize,sameTail,List.drop_append_of_le_length isPrefix,ih]
    simp [first,same,sameTail]

end Token

end CorpusQuery
