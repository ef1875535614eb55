import CorpusQuery.Proofs.Patterns
import CorpusQuery.Proofs.Tiling

/-! Texts that are cut and put together. A token is read from its own characters and at most one behind
them, which it does not take. So a text may be cut where a token ends: its parts have the tokens that they
have in it, and a semicolon put behind a text leaves the tokens of the text as they are. -/
namespace CorpusQuery

namespace Token

/-- The tokens of a text, each with the offset at which it starts. -/
def placed (t : Text) : List (Nat × Token) := located 0 (tokenize t)

def shifted (offset : Nat) (tokens : List (Nat × Token)) : List (Nat × Token) :=
  tokens.map fun x => (x.1 + offset,x.2)

def EndsAt (t : Text) (offset : Nat) : Prop := ∃ x ∈ placed t, x.1 + x.2.byteLength = offset

section Places

variable {front back : Text}

theorem located_add (base offset : Nat) (tokens : List Token) :
    located (base + offset) tokens = shifted offset (located base tokens) := by
  induction tokens generalizing base with
  | nil => rfl
  | cons token rest ih =>
    have later := ih (base + token.byteLength)
    rw [Nat.add_right_comm] at later
    simp only [located,later,shifted,List.map_cons]

theorem located_append (base : Nat) (before after : List Token) :
    located base (before ++ after) = located base before ++ located (base + span before) after := by
  induction before generalizing base with
  | nil => rfl
  | cons token rest ih => simp only [List.cons_append,located,ih,span_cons,Nat.add_assoc]

theorem mem_located_iff (base : Nat) (tokens : List Token) (x : Nat × Token) :
    x ∈ located base tokens ↔
      ∃ before after, tokens = before ++ x.2 :: after ∧ x.1 = base + span before := by
  constructor
  · intro member
    induction tokens generalizing base with
    | nil => simp [located] at member
    | cons token rest ih =>
      rcases List.mem_cons.mp member with rfl | later
      · exact ⟨[],rest,rfl,rfl⟩
      · obtain ⟨before,after,rfl,place⟩ := ih _ later
        exact ⟨token :: before,after,rfl,by rw [place,span_cons,Nat.add_assoc]⟩
  · rintro ⟨before,after,rfl,place⟩
    rw [located_append,located,← place]
    exact List.mem_append_right _ List.mem_cons_self

theorem span_tokenize (t : Text) : span (tokenize t) = t.byteLength := by
  rw [Cursor.span_eq,flatMap_text_tokenize]

theorem endsAt_iff (t : Text) (offset : Nat) : EndsAt t offset ↔
    ∃ before after, before ≠ [] ∧ tokenize t = before ++ after ∧ span before = offset := by
  constructor
  · rintro ⟨⟨start,token⟩,member,stop⟩
    obtain ⟨before,after,split,place⟩ := (mem_located_iff ..).mp member
    simp only [Nat.zero_add] at split place
    refine ⟨before ++ [token],after,by simp,by simp [split],?_⟩
    rw [span_append,span_cons,span_nil,Nat.add_zero,← place]
    exact stop
  · rintro ⟨before,after,nonempty,split,rfl⟩
    obtain ⟨earlier,last,rfl⟩ := List.eq_nil_or_concat before |>.resolve_left nonempty
    refine ⟨(span earlier,last),(mem_located_iff ..).mpr ⟨earlier,after,?_,by simp⟩,?_⟩
    · simpa using split
    · rw [List.concat_eq_append,span_append,span_cons,span_nil,Nat.add_zero]

/-- Where texts put together have the tokens of both, these are placed behind one another. -/
theorem placed_append (same : tokenize (front ++ back) = tokenize front ++ tokenize back) :
    placed (front ++ back) = placed front ++ shifted front.byteLength (placed back) := by
  rw [placed,same,located_append,span_tokenize,located_add]
  rfl

end Places

section Cutting

variable {c : Char} {front rest : Text}

/-- A character that is a token by itself is one at the end of a text as well. -/
theorem opening_nil_of_alone (alone : tail c rest = []) : opening c [] = opening c rest := by
  cases rest with
  | nil => rfl
  | cons d more =>
    -- Only a minus sign and an exclamation mark depend on what follows, and then they take it.
    have noMinus : (c == '-' && d.isDigit) = false := by
      by_contra minus
      obtain ⟨rfl,digit⟩ : c = '-' ∧ d.isDigit = true := by simpa using minus
      simp [tail,opening_of_minus (Lexicon.oneOf_digits_iff.mpr digit),digit] at alone
    have noBang : (c == '!' && d == '=') = false := by
      by_contra bang
      obtain ⟨rfl,rfl⟩ : c = '!' ∧ d = '=' := by simpa using bang
      simp [tail,opening_of_bang] at alone
    simp [opening,noMinus,noBang]

/-- A token is read the same as soon as all of its characters are there. -/
theorem tail_of_prefix (begins : front <+: rest) (whole : tail c rest <+: front) :
    opening c front = opening c rest ∧ tail c front = tail c rest := by
  have same : opening c front = opening c rest := by
    cases front with
    | nil => exact opening_nil_of_alone (List.prefix_nil.mp whole)
    | cons d more =>
      obtain ⟨after,rfl⟩ := begins
      rfl
  refine ⟨same,?_⟩
  -- A run of characters in the shorter text is at least as long as the one that is all in it.
  have run {p : Char → Bool} (inFront : rest.takeWhile p <+: front) :
      front.takeWhile p = rest.takeWhile p := by
    have all (t : Text) : ∀ d ∈ t.takeWhile p, p d = true := fun d member =>
      List.all_eq_true.mp List.all_takeWhile d member
    have inRest := (List.takeWhile_prefix p).trans begins
    have short := length_le_takeWhile inRest (all front)
    have long := length_le_takeWhile inFront (all rest)
    exact (List.prefix_of_prefix_length_le inRest (List.takeWhile_prefix p) short).eq_of_length
      (Nat.le_antisymm short long)
  rw [tail] at whole ⊢
  rw [same,tail]
  cases how : opening c rest with
  | blank | name | number | foreign =>
    simp only [how] at whole
    exact run whole
  | mark => rfl
  | bang =>
    -- The equals sign is there.
    obtain ⟨-,more,rfl⟩ : c = '!' ∧ ∃ more, rest = '=' :: more := by
      simpa [how] using opening_cases c rest
    obtain ⟨after,rfl⟩ : ['='] <+: front := by simpa [how] using whole
    rfl

theorem tokenize_of_front {t : Text} {before after : List Token} (split : tokenize t = before ++ after) :
    tokenize (before.flatMap Token.text) = before := by
  induction before generalizing t with
  | nil => simp [tokenize]
  | cons token before ih =>
    cases t with
    | nil => simp [tokenize] at split
    | cons c rest =>
      rw [tokenize,List.cons_append] at split
      obtain ⟨rfl,later⟩ := List.cons.inj split
      have begins : tail c rest ++ before.flatMap Token.text <+: rest := by
        have text := congrArg (List.flatMap Token.text) later
        rw [flatMap_text_tokenize,List.flatMap_append] at text
        refine ⟨after.flatMap Token.text,?_⟩
        rw [List.append_assoc,← text,tail_append_drop]
      obtain ⟨same,sameTail⟩ := tail_of_prefix begins (List.prefix_append ..)
      rw [List.flatMap_cons,first,List.cons_append,tokenize,first,same,sameTail,List.drop_left,ih later]

theorem exists_cut {t : Text} {offset : Nat} (ends : EndsAt t offset) : ∃ front back : Text,
    t = front ++ back ∧ offset = front.byteLength ∧
      tokenize (front ++ back) = tokenize front ++ tokenize back := by
  obtain ⟨before,after,-,split,rfl⟩ := (endsAt_iff t offset).mp ends
  have texts : t = before.flatMap Token.text ++ after.flatMap Token.text := by
    rw [← List.flatMap_append,← split,flatMap_text_tokenize]
  refine ⟨_,_,texts,Cursor.span_eq before,?_⟩
  rw [← texts,tokenize_of_front split,tokenize_of_append split,split]

theorem endsAt_byteLength {t : Text} (nonempty : t ≠ []) : EndsAt t t.byteLength := by
  refine (endsAt_iff ..).mpr ⟨tokenize t,[],fun empty => nonempty ?_,by simp,span_tokenize t⟩
  rw [← flatMap_text_tokenize t,empty]
  rfl

end Cutting

section Ending

theorem tokenize_terminator : tokenize StartRule.terminator = [⟨.semicolon,StartRule.terminator⟩] := by
  have empty : tokenize [] = [] := by rw [tokenize]
  have single := tokenize_concat (c := ';') (by decide) []
  rwa [empty] at single

theorem tokenize_append_terminator (t : Text) :
    tokenize (t ++ StartRule.terminator) = tokenize t ++ tokenize StartRule.terminator := by
  rw [tokenize_terminator]
  exact tokenize_concat (by decide) t

/-- What ends a rule is read after the tokens of the text, and leaves them as they are. -/
theorem tokenize_append_ending (start : StartRule) (t : Text) :
    tokenize (t ++ start.ending) = tokenize t ++ tokenize start.ending := by
  unfold StartRule.ending
  split
  · exact tokenize_append_terminator t
  · simp [tokenize]

end Ending

/-- What the tokens of a text have to do with those of its parts, and of the texts that it is part of. -/
structure Composed (t : Text) : Prop where
  /-- Where a token ends the text can be cut, and its tokens are those of the two parts. -/
  cut : ∀ offset, EndsAt t offset → ∃ front back, t.takeBytes? offset = some front ∧
    t.dropBytes? offset = some back ∧ placed t = placed front ++ shifted offset (placed back)
  /-- Two parts have the tokens of the text only if one of them ends where they meet. -/
  nowhereElse : ∀ front back, t = front ++ back → front ≠ [] →
    placed t = placed front ++ shifted front.byteLength (placed back) → EndsAt t front.byteLength
  /-- The end of a statement behind the text is one token more, and changes none. -/
  terminated : placed (t ++ StartRule.terminator) =
    placed t ++ [(t.byteLength,⟨.semicolon,StartRule.terminator⟩)]
  /-- What a pass parses for the text has the tokens of the text, and behind them those of the ending. -/
  passed : ∀ start : StartRule, placed (t ++ start.ending) =
    placed t ++ shifted t.byteLength (placed start.ending)

/-- The tokens of a text are those of its parts, and stay with the end of a statement behind it. -/
theorem composed (t : Text) : Composed t where
  cut := by
    intro offset ends
    obtain ⟨front,back,rfl,rfl,same⟩ := exists_cut ends
    exact ⟨front,back,Text.takeBytes?_append ..,Text.dropBytes?_append ..,placed_append same⟩
  nowhereElse := by
    rintro front back - nonempty same
    obtain ⟨x,member,stop⟩ := endsAt_byteLength nonempty
    exact ⟨x,same ▸ List.mem_append_left _ member,stop⟩
  terminated := by
    rw [placed_append (tokenize_append_terminator t),placed,placed,tokenize_terminator]
    simp [shifted,located]
  passed := fun start => placed_append (tokenize_append_ending start t)

end Token

end CorpusQuery
