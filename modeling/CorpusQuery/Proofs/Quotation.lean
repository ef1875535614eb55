import CorpusQuery.Toml.Spelling
import Mathlib.Data.List.TakeWhile
import Mathlib.Tactic.Common

/-! Quoted texts read back. In whichever of the four ways a text is written, with whichever characters, a
reader gets the same text, and stops right behind the closing quotes. -/
namespace CorpusQuery.Toml

/-! ### Characters -/

theorem ofHex?_hexDigit : ∀ n < 128,
    Quoted.ofHex? ['0','0',Spelling.hexDigit (n / 16),Spelling.hexDigit (n % 16)] =
      some (Char.ofNat n) := by decide

theorem toNat_lt_of_not_plain {c : Char} (control : isPlain c = false) : c.toNat < 128 := by
  simp only [isPlain,Bool.or_eq_false_iff,Bool.and_eq_false_iff,decide_eq_false_iff_not,
    bne_eq_false_iff_eq] at control
  rcases control.2 with low | delete
  · have : c.toNat < 0x20 := UInt32.lt_iff_toNat_lt.mp (UInt32.not_le.mp low)
    omega
  · have : c.toNat = 0x7f := congrArg UInt32.toNat delete
    omega

/-- A character stands for itself, or for it stands a backslash with a letter or a code point, none of
which is taken for the end of a line. -/
theorem escape_cases (c : Char) :
    Spelling.escape c = [c] ∧ isPlain c = true ∧ c ≠ '\\' ∨
    ∃ e : Text, Spelling.escape c = '\\' :: e ∧ ∀ rest,
      Quoted.escape? (e ++ rest) = some (c,e.length) ∧ Quoted.endsLine (e ++ rest) = false := by
  unfold Spelling.escape
  split
  case h_7 _ _ _ _ _ _ notBackslash =>
    split
    next plain => exact .inl ⟨rfl,plain,notBackslash⟩
    next control =>
      right
      have hex := ofHex?_hexDigit c.toNat (toNat_lt_of_not_plain (by simpa using control))
      rw [Char.ofNat_toNat] at hex
      refine ⟨_,rfl,fun rest => ⟨?_,rfl⟩⟩
      have letter : Quoted.letter? 'u' = none ∧ Quoted.digits? 'u' = some 4 := by decide
      simp [Quoted.escape?,letter,hex]
  all_goals exact .inr ⟨_,rfl,fun rest => ⟨rfl,rfl⟩⟩

/-! ### One line -/

theorem basic_plain {c : Char} (plain : isPlain c = true) (notQuote : c ≠ '"') (notBackslash : c ≠ '\\')
    (rest : Text) : Quoted.basic (c :: rest) = (Quoted.basic rest).map fun (t,left) => (c :: t,left) := by
  rw [Quoted.basic,if_neg notQuote,if_neg notBackslash,if_pos plain]

theorem basic_escape {c : Char} {e rest : Text} (escape : Quoted.escape? (e ++ rest) = some (c,e.length)) :
    Quoted.basic ('\\' :: (e ++ rest)) = (Quoted.basic rest).map fun (t,left) => (c :: t,left) := by
  rw [Quoted.basic,if_neg (by decide),if_pos rfl,escape]
  simp only [List.drop_left]

theorem basic_append (t rest : Text) :
    Quoted.basic (Spelling.basic t ++ '"' :: rest) = some (t,rest) := by
  induction t with
  | nil => rw [show Spelling.basic [] = [] from rfl,List.nil_append,Quoted.basic,if_pos rfl]
  | cons c t ih =>
    rw [Spelling.basic,List.flatMap_cons,List.append_assoc,← Spelling.basic]
    split
    next quote =>
      subst quote
      have escape : Quoted.escape? (['"'] ++ (Spelling.basic t ++ '"' :: rest)) = some ('"',1) := rfl
      rw [List.cons_append,basic_escape escape,ih]
      rfl
    next notQuote =>
      rcases escape_cases c with ⟨same,plain,notBackslash⟩ | ⟨e,same,escapes⟩
      · rw [same,List.singleton_append,basic_plain plain notQuote notBackslash,ih]
        rfl
      · rw [same,List.cons_append,basic_escape (escapes _).1,ih]
        rfl

theorem literal_append {t : Text} (plain : ∀ c ∈ t, isPlain c = true) (bare : '\x27' ∉ t) (rest : Text) :
    Quoted.literal (t ++ '\x27' :: rest) = some (t,rest) := by
  induction t with
  | nil => rfl
  | cons c t ih =>
    obtain ⟨plainHead,plain⟩ := List.forall_mem_cons.mp plain
    rw [List.mem_cons,not_or] at bare
    rw [List.cons_append,Quoted.literal,if_neg (Ne.symm bare.1),if_pos plainHead,ih plain bare.2]
    rfl

/-! ### Several lines -/

variable {quote : Char}

/-- Three quotes in a row close a text, and up to two quotes before them belong to it. -/
theorem closing?_replicate {n : Nat} (few : n ≤ 2) {rest : Text} (ends : rest.head? ≠ some quote) :
    Quoted.closing? quote (List.replicate n quote ++ (List.replicate 3 quote ++ rest)) =
      some (List.replicate n quote,rest) := by
  have stops : rest.takeWhile (· == quote) = [] := by
    cases rest with
    | nil => rfl
    | cons c rest => exact List.takeWhile_cons_of_neg (by simpa using ends)
  have count : (List.replicate n quote ++ (List.replicate 3 quote ++ rest)).takeWhile (· == quote) =
      List.replicate (n + 3) quote := by
    rw [← List.append_assoc,List.replicate_append_replicate,List.takeWhile_append_of_pos (by simp),
      stops,List.append_nil]
  have kept : min (n + 3 - 3) 2 = n := by omega
  have split : List.replicate n quote ++ (List.replicate 3 quote ++ rest) =
      List.replicate (n + 3) quote ++ rest := by
    rw [← List.append_assoc,List.replicate_append_replicate]
  rw [Quoted.closing?,count,List.length_replicate,if_neg (by omega)]
  simp only [kept]
  rw [List.take_left' (by simp),split,List.drop_left' (by simp)]

theorem closing?_eq_none {t : Text} (few : (t.takeWhile (· == quote)).length ≤ 2) :
    Quoted.closing? quote t = none := by
  rw [Quoted.closing?,if_pos (by omega)]

/-- A text is up to two quotes, or another character comes before there are three. -/
theorem quotes_or_few {t : Text} (noTriple : Spelling.hasTriple quote t = false) :
    (∃ n ≤ 2, t = List.replicate n quote) ∨
      ∀ rest, ((t ++ rest).takeWhile (· == quote)).length ≤ 2 := by
  match t with
  | [] => exact .inl ⟨0,by omega,rfl⟩
  | a :: t =>
    by_cases first : a = quote
    · subst first
      match t with
      | [] => exact .inl ⟨1,by omega,rfl⟩
      | b :: t =>
        by_cases second : b = a
        · subst second
          match t with
          | [] => exact .inl ⟨2,by omega,rfl⟩
          | c :: t =>
            have third : c ≠ b := by
              rintro rfl
              simp [Spelling.hasTriple] at noTriple
            exact .inr fun rest => by simp [third]
        · exact .inr fun rest => by simp [second]
    · exact .inr fun rest => by simp [first]

theorem hasTriple_tail {c : Char} {t : Text} (noTriple : Spelling.hasTriple quote (c :: t) = false) :
    Spelling.hasTriple quote t = false := by
  match t with
  | [] | [_] => rfl
  | a :: b :: t => exact (Bool.or_eq_false_iff.mp noTriple).2

theorem isInLines_of_plain {c : Char} (plain : c = '\n' ∨ isPlain c = true) (rest : Text) :
    Quoted.isInLines c rest = true := by
  rcases plain with rfl | plain
  · rfl
  · simp [Quoted.isInLines,plain]

theorem literalLines_of_closing {t : Text} {done : Text × Text}
    (closes : Quoted.closing? '\x27' t = some done) : Quoted.literalLines t = some done := by
  rw [Quoted.literalLines.eq_def,closes]

theorem literalLines_cons {c : Char} {t : Text} (goesOn : Quoted.closing? '\x27' (c :: t) = none)
    (plain : c = '\n' ∨ isPlain c = true) :
    Quoted.literalLines (c :: t) = (Quoted.literalLines t).map fun (t,left) => (c :: t,left) := by
  rw [Quoted.literalLines,goesOn]
  exact if_pos (isInLines_of_plain plain t)

/-- A text on several lines between apostrophes, when there are nowhere three of them in it. -/
theorem literalLines_append {t : Text} (plain : ∀ c ∈ t, c = '\n' ∨ isPlain c = true)
    (noTriple : Spelling.hasTriple '\x27' t = false) {rest : Text}
    (ends : rest.head? ≠ some '\x27') :
    Quoted.literalLines (t ++ (List.replicate 3 '\x27' ++ rest)) = some (t,rest) := by
  induction t with
  | nil => exact literalLines_of_closing (closing?_replicate (Nat.zero_le 2) ends)
  | cons c t ih =>
    rcases quotes_or_few noTriple with ⟨n,few,same⟩ | few
    · rw [same]
      exact literalLines_of_closing (closing?_replicate few ends)
    · obtain ⟨plainHead,plain⟩ := List.forall_mem_cons.mp plain
      have goesOn := closing?_eq_none (few (List.replicate 3 '\x27' ++ rest))
      rw [List.cons_append] at goesOn ⊢
      rw [literalLines_cons goesOn plainHead,ih plain (hasTriple_tail noTriple)]
      rfl

/-- What stands for a text between quotation marks is up to two of them, with those before it, or another
character comes before there are three. -/
theorem basicLines_or_few {run : Nat} (few : run ≤ 2) (t : Text) :
    (∃ n, n + run ≤ 2 ∧ t = List.replicate n '"' ∧ Spelling.basicLines run t = t) ∨
      ∀ rest, ((Spelling.basicLines run t ++ rest).takeWhile (· == '"')).length ≤ 2 - run := by
  induction t generalizing run with
  | nil => exact .inl ⟨0,by omega,rfl,rfl⟩
  | cons c t ih =>
    unfold Spelling.basicLines
    by_cases isQuote : c = '"'
    · subst isQuote
      rw [if_pos rfl]
      by_cases third : run = 2
      · rw [if_pos third]
        exact .inr fun rest => Nat.zero_le _
      · rw [if_neg third]
        rcases ih (show run + 1 ≤ 2 by omega) with ⟨n,few,same,plain⟩ | fewer
        · exact .inl ⟨n + 1,by omega,by rw [same]; rfl,by rw [plain]⟩
        · refine .inr fun rest => ?_
          have fewer := fewer rest
          rw [List.cons_append,List.takeWhile_cons_of_pos rfl,List.length_cons]
          omega
    · rw [if_neg isQuote]
      refine .inr fun rest => ?_
      split
      · exact Nat.zero_le _
      · rcases escape_cases c with ⟨same,-,-⟩ | ⟨e,same,-⟩
        · simp [same,isQuote]
        · simp [same]

theorem basicLines_of_closing {t : Text} {done : Text × Text}
    (closes : Quoted.closing? '"' t = some done) : Quoted.basicLines t = some done := by
  rw [Quoted.basicLines.eq_def,closes]

theorem basicLines_plain {c : Char} {t : Text} (goesOn : Quoted.closing? '"' (c :: t) = none)
    (plain : c = '\n' ∨ isPlain c = true) (notBackslash : c ≠ '\\') :
    Quoted.basicLines (c :: t) = (Quoted.basicLines t).map fun (t,left) => (c :: t,left) := by
  rw [Quoted.basicLines,goesOn]
  simp [notBackslash,isInLines_of_plain plain t]

theorem basicLines_escape {c : Char} {e t : Text}
    (goesOn : Quoted.closing? '"' ('\\' :: (e ++ t)) = none)
    (escape : Quoted.escape? (e ++ t) = some (c,e.length)) (sameLine : Quoted.endsLine (e ++ t) = false) :
    Quoted.basicLines ('\\' :: (e ++ t)) =
      (Quoted.basicLines t).map fun (t,left) => (c :: t,left) := by
  rw [Quoted.basicLines,goesOn]
  simp [sameLine,escape]

/-- A text on several lines between quotation marks, `run` of which have been read as parts of it right
before. -/
theorem basicLines_append {run : Nat} (few : run ≤ 2) (t : Text) {rest : Text}
    (ends : rest.head? ≠ some '"') :
    Quoted.basicLines (Spelling.basicLines run t ++ (List.replicate 3 '"' ++ rest)) =
      some (t,rest) := by
  induction t generalizing run with
  | nil => exact basicLines_of_closing (closing?_replicate (Nat.zero_le 2) ends)
  | cons c t ih =>
    rcases basicLines_or_few few (c :: t) with ⟨n,fewer,same,plain⟩ | fewer
    · rw [plain,same]
      exact basicLines_of_closing (closing?_replicate (by omega) ends)
    · have goesOn := closing?_eq_none ((fewer (List.replicate 3 '"' ++ rest)).trans (Nat.sub_le 2 run))
      unfold Spelling.basicLines at goesOn ⊢
      split_ifs at goesOn ⊢ with isQuote third newline
      · subst isQuote
        rw [List.cons_append,List.cons_append] at goesOn ⊢
        rw [← List.singleton_append (l := Spelling.basicLines 0 t ++ _)] at goesOn ⊢
        rw [basicLines_escape goesOn rfl rfl,ih (by omega)]
        rfl
      · subst isQuote
        rw [List.cons_append] at goesOn ⊢
        rw [basicLines_plain goesOn (.inr rfl) (by decide),ih (by omega)]
        rfl
      · subst newline
        rw [List.cons_append] at goesOn ⊢
        rw [basicLines_plain goesOn (.inl rfl) (by decide),ih (by omega)]
        rfl
      · rcases escape_cases c with ⟨same,plain,notBackslash⟩ | ⟨e,same,escapes⟩
        · rw [same,List.append_assoc,List.singleton_append] at goesOn ⊢
          rw [basicLines_plain goesOn (.inr plain) notBackslash,ih (by omega)]
          rfl
        · rw [same,List.append_assoc,List.cons_append] at goesOn ⊢
          have ⟨escape,sameLine⟩ := escapes (Spelling.basicLines 0 t ++ (List.replicate 3 '"' ++ rest))
          rw [basicLines_escape goesOn escape sameLine,ih (by omega)]
          rfl

/-! ### All four ways -/

/-- No quotes follow, which would be taken for more of those that close a text. -/
def Unquoted (rest : Text) : Prop := ∀ c ∈ rest.head?, c ≠ '"' ∧ c ≠ '\x27'

/-- The quotes leave nothing in a text to be escaped, or escapes may stand between them. -/
def Suits : Quotes → Text → Prop
  | .basic,_ | .basicLines,_ => True
  | .literal,t => (∀ c ∈ t, isPlain c = true) ∧ '\x27' ∉ t
  | .literalLines,t =>
    (∀ c ∈ t, c = '\n' ∨ isPlain c = true) ∧ Spelling.hasTriple '\x27' t = false

theorem suits_onOneLine? {t : Text} {q : Quotes} (h : Spelling.onOneLine? t = some q) :
    Suits q t ∧ (q = .basic ∨ q = .literal) := by
  unfold Spelling.onOneLine? at h
  split_ifs at h with control _ bare
  · cases h
    exact ⟨trivial,.inl rfl⟩
  · cases h
    refine ⟨⟨fun c member => ?_,bare⟩,.inr rfl⟩
    simp only [List.any_eq_true,not_exists,not_and] at control
    simpa using control c member

theorem suits_onLines? {t : Text} {q : Quotes} (h : Spelling.onLines? t = some q) : Suits q t := by
  unfold Spelling.onLines? at h
  split_ifs at h with control _ noTriple
  · cases h
    trivial
  · cases h
    refine ⟨fun c member => ?_,by simpa using noTriple⟩
    simp only [List.any_eq_true,not_exists,not_and] at control
    have plain := control c member
    simp only [Bool.and_eq_true,bne_iff_ne,Bool.not_eq_true',not_and] at plain
    by_cases newline : c = '\n'
    · exact .inl newline
    · exact .inr (by simpa using plain newline)

theorem suits_quotes (t : Text) : Suits (Spelling.quotes t) t := by
  unfold Spelling.quotes
  split
  next q _ same => exact (suits_onOneLine? same).1
  next q _ same => exact suits_onLines? same
  next => split <;> trivial

theorem trimStart_of_plain {t : Text} (plain : ∀ c ∈ t.head?, isPlain c = true) :
    Quoted.trimStart t = t := by
  unfold Quoted.trimStart Quoted.newline?
  split
  · exact absurd (plain _ rfl) (by decide)
  · exact absurd (plain _ rfl) (by decide)
  · rfl

/-- A line break right behind the opening quotes is there just for a text with line breaks. -/
theorem trimStart_opening {t w : Text} (plain : '\n' ∉ t → ∀ c ∈ w.head?, isPlain c = true)
    (isQuote : isPlain quote = true) (rest : Text) :
    Quoted.trimStart (Spelling.opening t ++ (w ++ (List.replicate 3 quote ++ rest))) =
      w ++ (List.replicate 3 quote ++ rest) := by
  unfold Spelling.opening
  split
  next => rfl
  next absent =>
    refine trimStart_of_plain fun c isHead => ?_
    cases w with
    | nil =>
      obtain rfl := Option.some.inj isHead
      exact isQuote
    | cons d w => exact plain absent c isHead

theorem read_basic {t : Text} (notTwo : ∀ more, t ≠ '"' :: '"' :: more) :
    Quoted.read ('"' :: t) = Quoted.basic t := by
  unfold Quoted.read
  split
  case h_1 more same => exact absurd (List.cons.inj same).2 (notTwo more)
  case h_2 same => cases (List.cons.inj same).1
  case h_3 same => rw [(List.cons.inj same).2]
  case h_4 same => cases (List.cons.inj same).1
  case h_5 other _ => exact absurd rfl (other t)

theorem read_literal {t : Text} (notTwo : ∀ more, t ≠ '\x27' :: '\x27' :: more) :
    Quoted.read ('\x27' :: t) = Quoted.literal t := by
  unfold Quoted.read
  split
  case h_1 same => cases (List.cons.inj same).1
  case h_2 more same => exact absurd (List.cons.inj same).2 (notTwo more)
  case h_3 same => cases (List.cons.inj same).1
  case h_4 same => rw [(List.cons.inj same).2]
  case h_5 _ other => exact absurd rfl (other t)

theorem head?_basic (t : Text) : ∀ c ∈ (Spelling.basic t).head?, c ≠ '"' := by
  cases t with
  | nil => simp [Spelling.basic]
  | cons c t =>
    rw [Spelling.basic,List.flatMap_cons]
    split
    · rintro c ⟨⟩
      decide
    next notQuote =>
      rcases escape_cases c with ⟨same,-,-⟩ | ⟨e,same,-⟩
      · rw [same]
        rintro d ⟨⟩
        exact notQuote
      · rw [same]
        rintro d ⟨⟩
        decide

theorem head?_basicLines (run : Nat) (t : Text) (noBreak : '\n' ∉ t) :
    ∀ c ∈ (Spelling.basicLines run t).head?, isPlain c = true := by
  cases t with
  | nil => simp [Spelling.basicLines]
  | cons c t =>
    unfold Spelling.basicLines
    split
    · split <;> (rintro d ⟨⟩; decide)
    · split
      next newline => exact absurd (newline ▸ List.mem_cons_self) noBreak
      next =>
        rcases escape_cases c with ⟨same,plain,-⟩ | ⟨e,same,-⟩
        · rw [same]
          rintro d ⟨⟩
          exact plain
        · rw [same]
          rintro d ⟨⟩
          decide

theorem ne_two_quotes {w rest : Text} (inside : ∀ c ∈ w.head?, c ≠ quote)
    (ends : rest.head? ≠ some quote) (more : Text) : w ++ quote :: rest ≠ quote :: quote :: more := by
  intro same
  cases w with
  | nil =>
    obtain rfl := (List.cons.inj same).2
    exact ends rfl
  | cons c w => exact inside c rfl (List.cons.inj same).1

theorem read_quoted {q : Quotes} {t : Text} (suits : Suits q t) {rest : Text} (ends : Unquoted rest) :
    Quoted.read (Spelling.quoted q t ++ rest) = some (t,rest) := by
  have noMark : rest.head? ≠ some '"' := fun same => (ends _ same).1 rfl
  have noApostrophe : rest.head? ≠ some '\x27' := fun same => (ends _ same).2 rfl
  cases q with
  | basic =>
    rw [Spelling.quoted,List.append_assoc,List.append_assoc]
    change Quoted.read ('"' :: (Spelling.basic t ++ '"' :: rest)) = _
    rw [read_basic (ne_two_quotes (head?_basic t) noMark),basic_append]
  | literal =>
    obtain ⟨plain,bare⟩ := suits
    have inside : ∀ c ∈ t.head?, c ≠ '\x27' := fun c isHead same =>
      bare (same ▸ List.mem_of_mem_head? isHead)
    rw [Spelling.quoted,List.append_assoc,List.append_assoc]
    change Quoted.read ('\x27' :: (t ++ '\x27' :: rest)) = _
    rw [read_literal (ne_two_quotes inside noApostrophe),literal_append plain bare]
  | basicLines =>
    have written : Spelling.quoted .basicLines t ++ rest = List.replicate 3 '"' ++
        (Spelling.opening t ++ (Spelling.basicLines 0 t ++ (List.replicate 3 '"' ++ rest))) := by
      simp [Spelling.quoted]
    rw [written]
    change Quoted.basicLines (Quoted.trimStart (Spelling.opening t ++ (Spelling.basicLines 0 t ++
      (List.replicate 3 '"' ++ rest)))) = _
    rw [trimStart_opening (head?_basicLines 0 t) rfl,basicLines_append (Nat.zero_le 2) t noMark]
  | literalLines =>
    obtain ⟨plain,noTriple⟩ := suits
    have begins (noBreak : '\n' ∉ t) : ∀ c ∈ t.head?, isPlain c = true := fun c isHead =>
      (plain c (List.mem_of_mem_head? isHead)).resolve_left fun same =>
        noBreak (same ▸ List.mem_of_mem_head? isHead)
    have written : Spelling.quoted .literalLines t ++ rest = List.replicate 3 '\x27' ++
        (Spelling.opening t ++ (t ++ (List.replicate 3 '\x27' ++ rest))) := by
      simp [Spelling.quoted]
    rw [written]
    change Quoted.literalLines (Quoted.trimStart (Spelling.opening t ++ (t ++
      (List.replicate 3 '\x27' ++ rest)))) = _
    rw [trimStart_opening begins rfl,literalLines_append plain noTriple noApostrophe]

theorem read_text (t : Text) {rest : Text} (ends : Unquoted rest) :
    Quoted.read (Spelling.text t ++ rest) = some (t,rest) :=
  read_quoted (suits_quotes t) ends

end CorpusQuery.Toml
