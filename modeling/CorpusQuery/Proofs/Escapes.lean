import CorpusQuery.Proofs.EscapedText

/-! What an escape covers: a backslash and all of the token behind it. That may be a word or a run of blanks,
so an escape is a backslash and the character that it escapes only where the token has no more. -/
namespace CorpusQuery

namespace Text

/-- A range covers a backslash and one character behind it, or a backslash that comes last. -/
inductive EscapesOne (t : Text) : Span → Prop where
  | character : t = before ++ '\\' :: c :: after →
      EscapesOne t ⟨byteLength before,byteLength (before ++ ['\\',c])⟩
  | last : t = before ++ ['\\'] → EscapesOne t ⟨byteLength before,byteLength t⟩

/-- A range covers a backslash and the token behind it, of which the text is `escaped`, or a backslash that
comes last. -/
inductive EscapesToken (t : Text) : Span → Text → Prop where
  | token : tokenize t = before ++ ⟨.backslash,['\\']⟩ :: token :: after →
      EscapesToken t ⟨Token.span before,Token.span (before ++ [⟨.backslash,['\\']⟩,token])⟩ token.text
  | last : tokenize t = before ++ [⟨.backslash,['\\']⟩] →
      EscapesToken t ⟨Token.span before,Token.span (before ++ [⟨.backslash,['\\']⟩])⟩ []

theorem append_inj_of_byteLength {a b c d : Text} (same : a ++ b = c ++ d)
    (size : byteLength a = byteLength c) : a = c ∧ b = d := by
  have takes := takeBytes?_append a b
  rw [same,size,takeBytes?_append] at takes
  obtain rfl := Option.some.inj takes
  exact ⟨rfl,List.append_cancel_left same⟩

/-- An escape of a token is one of a character if the token has no more. -/
theorem EscapesToken.escapesOne_iff {t escaped : Text} {span : Span} (h : t.EscapesToken span escaped) :
    t.EscapesOne span ↔ escaped.length ≤ 1 := by
  cases h with
  | last split =>
    rename_i before
    refine iff_of_true ?_ (Nat.zero_le 1)
    have whole := Token.flatMap_text_tokenize t
    rw [split] at whole
    rw [Cursor.span_eq,Cursor.span_eq,whole]
    exact .last (by simpa using whole.symm)
  | token split =>
    rename_i before token after
    have proper : token.text ≠ [] := Token.text_ne_nil (t := t) (by simp [split])
    have whole : t = before.flatMap Token.text ++
        '\\' :: (token.text ++ after.flatMap Token.text) := by
      simpa [split] using (Token.flatMap_text_tokenize t).symm
    generalize front : before.flatMap Token.text = text at whole
    have start : Token.span before = byteLength text := by rw [Cursor.span_eq,front]
    have stop : Token.span (before ++ [⟨.backslash,['\\']⟩,token]) =
        byteLength (text ++ '\\' :: token.text) := by simp [Cursor.span_eq,front]
    rw [start,stop]
    constructor
    · generalize place : (⟨byteLength text,byteLength (text ++ '\\' :: token.text)⟩ : Span) = span
      intro one
      cases one with
      | character split' =>
        obtain ⟨begins,ends⟩ := Span.mk.inj place
        obtain ⟨rfl,behind⟩ := append_inj_of_byteLength (whole.symm.trans split') begins
        obtain ⟨single,-⟩ := append_inj_of_byteLength (a := token.text) (c := [_])
          (List.cons.inj behind).2 (by simpa using ends)
        exact (congrArg List.length single).le
      | last split' =>
        obtain ⟨begins,-⟩ := Span.mk.inj place
        obtain ⟨rfl,behind⟩ := append_inj_of_byteLength (whole.symm.trans split') begins
        simp [proper] at behind
    · intro short
      obtain ⟨c,isText⟩ := List.length_eq_one_iff.mp
        (Nat.le_antisymm short (List.length_pos_iff.mpr proper))
      rw [isText] at whole ⊢
      exact .character whole

end Text

theorem Cursor.Reaches.escapesToken {t : Text} {c : Cursor} (h : Cursor.Reaches ⟨0,tokenize t⟩ c)
    (at_ : c.isAt .backslash = true) :
    ∃ escaped, t.EscapesToken ⟨c.offset,(c.advance c.escapeLength).offset⟩ escaped := by
  obtain ⟨⟨kind,text⟩,rest,split,isMark⟩ := rest_of_isAt at_
  obtain rfl : kind = .backslash := isMark
  obtain rfl : text = ['\\'] :=
    Token.text_of_mark (h.mem_rest (split ▸ List.mem_cons_self)) (by decide) rfl
  obtain ⟨before,tokens,start⟩ : ∃ before, tokenize t = before ++ c.rest ∧
      c.offset = Token.span before := by
    obtain ⟨n,rfl⟩ := h
    exact ⟨_,(List.take_append_drop n _).symm,Nat.zero_add _⟩
  rw [split] at tokens
  have stop : (c.advance c.escapeLength).offset =
      Token.span before + Token.span (c.rest.take c.escapeLength) := start ▸ rfl
  rw [stop,start]
  cases rest with
  | nil =>
    refine ⟨[],?_⟩
    simpa [split,escapeLength,kindAt?,span_eq] using Text.EscapesToken.last tokens
  | cons token rest =>
    refine ⟨token.text,?_⟩
    simpa [split,escapeLength,kindAt?,span_eq] using Text.EscapesToken.token tokens

namespace Grammar

/-- Reads no token of the query as an escape. -/
def Expr.tagsNoEscape : Expr → Bool
  | .token _ tag => tag != .regExpEscape
  | .done | .reject _ | .trivia | .escape | .run _ | .call _ => true
  | .andThen first second | .orElse first second | .next _ first second =>
    first.tagsNoEscape && second.tagsNoEscape
  | .optional body | .attempt body | .many body => body.tagsNoEscape

theorem tagsNoEscape_body (r : NonTerminal) : (body r).tagsNoEscape = true := by cases r <;> decide

theorem Trail.mem_escape {e : Expr} {c : Cursor} {ending : Ending} {T : List Entry} {span : Span}
    (h : Trail e c ending T) (plain : e.tagsNoEscape = true)
    (member : (.terminal .regExpEscape,span) ∈ T) : ∃ d, c.Reaches d ∧ d.isAt .backslash = true ∧
      span = ⟨d.offset,(d.advance d.escapeLength).offset⟩ := by
  have both {a b : Expr} (plain : (Expr.andThen a b).tagsNoEscape = true) :
      a.tagsNoEscape = true ∧ b.tagsNoEscape = true := by simpa [Expr.tagsNoEscape] using plain
  have later {c m : Cursor} (onward : c.Reaches m) (h : ∃ d, m.Reaches d ∧ d.isAt .backslash = true ∧
      span = ⟨d.offset,(d.advance d.escapeLength).offset⟩) : ∃ d, c.Reaches d ∧
        d.isAt .backslash = true ∧ span = ⟨d.offset,(d.advance d.escapeLength).offset⟩ :=
    h.imp fun d h => ⟨onward.trans h.1,h.2⟩
  induction h with
  | done | reject | noToken | noTrivia | noEscape | noRun | optionalNone | manyNone =>
    simp at member
  | token =>
    obtain ⟨isEscape,-⟩ := Prod.mk.inj (List.mem_singleton.mp member)
    obtain rfl := Symbol.terminal.inj isEscape
    simp [Expr.tagsNoEscape] at plain
  | trivia | run => simp [Cursor.leaf] at member
  | @escape c at_ =>
    refine ⟨c,.refl c,at_,?_⟩
    exact (Prod.mk.inj (List.mem_singleton.mp member)).2
  | call _ ih | callRests _ _ ih =>
    exact ih (tagsNoEscape_body _) (by simpa [Cursor.branch] using member)
  | callBroken _ ih => exact ih (tagsNoEscape_body _) member
  | andThen first _ ihFirst ihSecond =>
    rcases List.mem_append.mp member with inFirst | inSecond
    · exact ihFirst (both plain).1 inFirst
    · exact later first.reach (ihSecond (both plain).2 inSecond)
  | manyMore first _ ihFirst ihSecond =>
    rcases List.mem_append.mp member with inFirst | inSecond
    · exact ihFirst plain inFirst
    · exact later first.reach (ihSecond plain inSecond)
  | andThenBroken _ ih | andThenRests _ _ _ _ ih | andThenGivesUp _ _ _ ih | orElse _ _ ih
  | nextYes _ _ ih => exact ih (both plain).1 member
  | orElseSecond _ _ _ ih | nextNo _ _ ih => exact ih (both plain).2 member
  | optional _ _ ih | optionalRests _ _ ih | attempt _ ih | manyRests _ _ ih | manyStops _ ih =>
    exact ih plain member

end Grammar

/-- The escapes in a trace: each takes all of the token behind the backslash, and is an escape of one
character only if that token has no more. -/
structure EscapesTaken (source : Text) (start : StartRule) : Prop where
  whole : ∀ span, (.terminal .regExpEscape,span) ∈ Event.matched [] (parse source start).events →
    ∃ escaped, source.EscapesToken span escaped
  one_iff : ∀ span, (.terminal .regExpEscape,span) ∈ Event.matched [] (parse source start).events →
    (source.EscapesOne span ↔ ∃ escaped, source.EscapesToken span escaped ∧ escaped.length ≤ 1)

/-- Escapes take tokens, whatever the text and the start rule are. -/
theorem parse_escapes (source : Text) (start : StartRule) : EscapesTaken source start := by
  have whole : ∀ span, (.terminal .regExpEscape,span) ∈ Event.matched [] (parse source start).events →
      ∃ escaped, source.EscapesToken span escaped := by
    obtain ⟨x⟩ := reading source start
    intro span member
    rw [x.matched_eq,x.agrees.mem_iff] at member
    obtain ⟨c,from_,at_,rfl⟩ := x.trail.mem_escape rfl member
    exact from_.escapesToken at_
  refine ⟨whole,fun span member => ⟨fun one => ?_,?_⟩⟩
  · obtain ⟨escaped,taken⟩ := whole span member
    exact ⟨escaped,taken,taken.escapesOne_iff.mp one⟩
  · rintro ⟨escaped,taken,short⟩
    exact taken.escapesOne_iff.mpr short

/-- An escape of a word has more than one character behind the backslash. -/
theorem not_escapesOne_word : (.terminal .regExpEscape,⟨0,3⟩) ∈
      Event.matched [] (parse "\\ab".toList .regExpRaw).events ∧
    ¬Text.EscapesOne "\\ab".toList ⟨0,3⟩ := by
  constructor
  · unfold parse StartRule.recognizer
    rw [Grammar.recognize_eq]
    decide +kernel
  · intro one
    have taken : Text.EscapesToken "\\ab".toList ⟨0,3⟩ "ab".toList :=
      @Text.EscapesToken.token _ [] ⟨.ident,"ab".toList⟩ [] (by decide +kernel)
    exact absurd (taken.escapesOne_iff.mp one) (by decide)

end CorpusQuery
