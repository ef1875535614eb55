import CorpusQuery.Proofs.Acceptance

/-! An accepted list of pairs is read the same way when it is put in brackets. A trail is determined by
where it starts; one that stops before a closing bracket or a semicolon has looked at nothing there,
so it is a trail of the shorter text as well; and what derives the shorter text derives the part of the
longer one. -/
namespace CorpusQuery

namespace Grammar

/-- There is one trail of an expression from a cursor on. -/
theorem Trail.unique {e : Expr} {c : Cursor} {ending ending' : Ending} {T T' : List Entry}
    (h : Trail e c ending T) (h' : Trail e c ending' T') : ending' = ending ∧ T' = T := by
  induction h generalizing ending' T' with
  | done | reject =>
    cases h'
    exact ⟨rfl,rfl⟩
  | token at_ | noToken at_ | trivia at_ | noTrivia at_ | escape at_ | noEscape at_ | run at_
  | noRun at_ => cases h' <;> simp_all
  | call _ ih | callBroken _ ih | callRests _ _ ih =>
    cases h' with
    | call inner | callBroken inner | callRests inner =>
      obtain ⟨same,rfl⟩ := ih inner
      simp_all
  | andThen _ _ ihFirst ihSecond =>
    cases h' with
    | andThen first second =>
      obtain ⟨same,rfl⟩ := ihFirst first
      cases same
      obtain ⟨rfl,rfl⟩ := ihSecond second
      exact ⟨rfl,rfl⟩
    | andThenBroken first | andThenRests first | andThenGivesUp first => cases (ihFirst first).1
  | andThenBroken _ ih =>
    cases h' with
    | andThenBroken first =>
      obtain ⟨same,rfl⟩ := ih first
      exact ⟨same,rfl⟩
    | andThen first | andThenRests first | andThenGivesUp first => cases (ih first).1
  | andThenRests _ _ _ _ ihFirst ihSecond =>
    cases h' with
    | andThenRests first second =>
      obtain ⟨same,rfl⟩ := ihFirst first
      cases same
      cases (ihSecond second).1
      exact ⟨rfl,rfl⟩
    | andThenGivesUp first second =>
      cases (ihFirst first).1
      cases (ihSecond second).1
    | andThen first | andThenBroken first => cases (ihFirst first).1
  | andThenGivesUp _ _ _ ihFirst ihSecond =>
    cases h' with
    | andThenGivesUp first =>
      obtain ⟨same,rfl⟩ := ihFirst first
      cases same
      exact ⟨rfl,rfl⟩
    | andThenRests first second =>
      cases (ihFirst first).1
      cases (ihSecond second).1
    | andThen first | andThenBroken first => cases (ihFirst first).1
  | orElse _ stops ih =>
    cases h' with
    | orElse first => exact ih first
    | orElseSecond first => simp [← (ih first).1] at stops
  | orElseSecond _ _ ihFirst ihSecond =>
    cases h' with
    | orElse first stops => simp [(ihFirst first).1] at stops
    | orElseSecond _ second => exact ihSecond second
  | optional _ stops ih =>
    cases h' with
    | optional first => exact ih first
    | optionalNone first | optionalRests first => simp [← (ih first).1] at stops
  | optionalNone _ blank ih =>
    cases h' with
    | optional first stops => simp [(ih first).1] at stops
    | optionalNone => exact ⟨rfl,rfl⟩
    | optionalRests first dark => exact absurd ((ih first).2 ▸ blank) dark
  | optionalRests _ dark ih =>
    cases h' with
    | optional first stops => simp [(ih first).1] at stops
    | optionalNone first blank => exact absurd ((ih first).2 ▸ blank) dark
    | optionalRests first =>
      obtain ⟨same,rfl⟩ := ih first
      cases same
      exact ⟨rfl,rfl⟩
  | attempt _ ih =>
    cases h' with
    | attempt inner => exact ih inner
  | manyNone _ blank ih =>
    cases h' with
    | manyNone => exact ⟨rfl,rfl⟩
    | manyRests first dark => exact absurd ((ih first).2 ▸ blank) dark
    | manyMore first | manyStops first => cases (ih first).1
  | manyMore _ _ ihFirst ihSecond =>
    cases h' with
    | manyMore first rest =>
      obtain ⟨same,rfl⟩ := ihFirst first
      cases same
      obtain ⟨rfl,rfl⟩ := ihSecond rest
      exact ⟨rfl,rfl⟩
    | manyNone first | manyRests first | manyStops first => cases (ihFirst first).1
  | manyRests _ dark ih =>
    cases h' with
    | manyNone first blank => exact absurd ((ih first).2 ▸ blank) dark
    | manyRests first =>
      obtain ⟨same,rfl⟩ := ih first
      cases same
      exact ⟨rfl,rfl⟩
    | manyMore first | manyStops first => cases (ih first).1
  | manyStops _ ih =>
    cases h' with
    | manyStops first =>
      obtain ⟨same,rfl⟩ := ih first
      exact ⟨same,rfl⟩
    | manyNone first | manyMore first | manyRests first => cases (ih first).1
  | nextYes ahead _ ih =>
    cases h' with
    | nextYes _ inner => exact ih inner
    | nextNo ahead' => simp [ahead] at ahead'
  | nextNo ahead _ ih =>
    cases h' with
    | nextYes ahead' => simp [ahead] at ahead'
    | nextNo _ inner => exact ih inner

end Grammar

def Span.shift (s : Span) (n : Nat) : Span := ⟨s.start + n,s.stop + n⟩

namespace Span

variable {a b : Span} {n : Nat}

@[simp] theorem shift_inj : a.shift n = b.shift n ↔ a = b := by
  rcases a
  rcases b
  simp [shift]

@[simp] theorem contains_shift : (a.shift n).contains (b.shift n) = a.contains b := by
  simp [contains,shift]

@[simp] theorem strictlyContains_shift :
    (a.shift n).strictlyContains (b.shift n) = a.strictlyContains b := by
  rw [Bool.eq_iff_iff,strictlyContains,strictlyContains]
  simp

end Span

def Entry.shift (x : Entry) (n : Nat) : Entry := (x.1,x.2.shift n)

@[simp] theorem Entry.isBlank_shift (x : Entry) (n : Nat) : (x.shift n).isBlank = x.isBlank := rfl

@[simp] theorem blank_map_shift {T : List Entry} {n : Nat} :
    Blank (T.map (Entry.shift · n)) ↔ Blank T := by
  unfold Blank
  rw [List.forall_mem_map]
  rfl

def Terminal.enders : List Terminal := [.rBracket,.semicolon]

/-- Tokens that begin with a closing bracket or a semicolon. -/
def Ends (more : List Token) : Prop := ∀ token ∈ more.head?, token.kind ∈ Terminal.enders

namespace Cursor

def embed (c : Cursor) (n : Nat) (more : List Token) : Cursor := ⟨c.offset + n,c.rest ++ more⟩

variable {c : Cursor} {n m : Nat} {more : List Token}

theorem advance_embed (fits : m ≤ c.rest.length) :
    (c.embed n more).advance m = (c.advance m).embed n more := by
  simp only [advance,embed,List.take_append_of_le_length fits,List.drop_append_of_le_length fits,
    Cursor.mk.injEq,and_true]
  omega

theorem leaf_embed (fits : m ≤ c.rest.length) (tag : Terminal) :
    (c.embed n more).leaf tag m = (c.leaf tag m).shift n := by
  simp only [leaf,advance_embed fits]
  rfl

theorem embed_injective {c d : Cursor} (same : c.embed n more = d.embed n more) : c = d := by
  obtain ⟨offset,rest⟩ := c
  obtain ⟨offset',rest'⟩ := d
  simpa [embed] using same

theorem Reaches.of_embed {d : Cursor} (h : (c.embed n more).Reaches (d.embed n more)) :
    c.Reaches d := by
  obtain ⟨m,same⟩ := h
  have lengths := congrArg (·.rest.length) same
  simp only [embed,rest_advance,List.length_drop,List.length_append] at lengths
  by_cases fits : m ≤ c.rest.length
  · rw [advance_embed fits] at same
    exact ⟨m,embed_injective same⟩
  · -- The cursors are at the end of a text with nothing after it.
    obtain rfl : more = [] := List.length_eq_zero_iff.mp (by omega)
    have same' : d.embed n [] = (c.advance m).embed n [] := by
      refine same.trans ?_
      simp only [advance,embed,List.append_nil,Cursor.mk.injEq,and_true]
      omega
    exact ⟨m,embed_injective same'⟩

theorem escapeLength_embed (inside : (c.embed n more).escapeLength ≤ c.rest.length) :
    (c.embed n more).escapeLength = c.escapeLength := by
  have length (c : Cursor) : c.escapeLength = if 1 < c.rest.length then 2 else 1 := by
    simp [escapeLength,kindAt?]
  rw [length] at inside
  rw [length,length]
  simp only [embed,List.length_append] at inside ⊢
  split at inside <;> split <;> split <;> omega

theorem runLength_embed {stop : Terminal}
    (inside : Recognizer.runLength stop (c.embed n more).rest ≤ c.rest.length) :
    Recognizer.runLength stop (c.embed n more).rest = Recognizer.runLength stop c.rest := by
  have front : (c.embed n more).rest.take c.rest.length = c.rest := List.take_left
  have length := Grammar.runLength_take stop (c.embed n more).rest c.rest.length
  rw [front] at length
  omega

/-- The next token is the same, or where there was none the first of what comes after. -/
theorem kind?_embed (c : Cursor) (n : Nat) (ends : Ends more) :
    (c.embed n more).kind? = c.kind? ∨
      c.kind? = none ∧ ∃ kind ∈ Terminal.enders, (c.embed n more).kind? = some kind := by
  obtain ⟨offset,rest⟩ := c
  cases rest with
  | cons => exact .inl rfl
  | nil =>
    cases more with
    | nil => exact .inl rfl
    | cons token more => exact .inr ⟨rfl,token.kind,ends token rfl,rfl⟩

theorem isAt_embed (ends : Ends more) {kind : Terminal} (other : kind ∉ Terminal.enders) :
    (c.embed n more).isAt kind = c.isAt kind := by
  rcases c.kind?_embed n ends with same | ⟨atEnd,ender,isEnder,first⟩
  · rw [isAt,same,isAt]
  · have differs : ender ≠ kind := ne_of_mem_of_not_mem isEnder other
    simp [isAt,first,atEnd,differs]

theorem any_kind?_embed (ends : Ends more) {kinds : List Terminal}
    (others : ∀ kind ∈ kinds, kind ∉ Terminal.enders) :
    (c.embed n more).kind?.any kinds.contains = c.kind?.any kinds.contains := by
  rcases c.kind?_embed n ends with same | ⟨atEnd,ender,isEnder,first⟩
  · rw [same]
  · have differs : ender ∉ kinds := fun member => others ender member isEnder
    simp [first,atEnd,differs]

end Cursor

namespace Grammar

def Ending.embed (ending : Ending) (n : Nat) (more : List Token) : Ending :=
  match ending with
  | .complete stop => .complete (stop.embed n more)
  | .broken resting reach => .broken (resting.map (·.embed n more)) (reach.embed n more)

namespace Ending

variable {ending : Ending} {n : Nat} {more : List Token} {d f : Cursor}

@[simp] theorem stop?_embed (ending : Ending) (n : Nat) (more : List Token) :
    (ending.embed n more).stop? = ending.stop?.map (·.embed n more) := by
  cases ending <;> rfl

theorem complete_eq_embed : .complete d = ending.embed n more ↔
    ∃ d', ending = .complete d' ∧ d = d'.embed n more := by
  cases ending <;> simp [embed]

theorem failed_eq_embed : .broken none f = ending.embed n more ↔
    ∃ f', ending = .broken none f' ∧ f = f'.embed n more := by
  rcases ending with _ | ⟨_ | _,_⟩ <;> simp [embed]

theorem resting_eq_embed : .broken (some d) f = ending.embed n more ↔
    ∃ d' f', ending = .broken (some d') f' ∧ d = d'.embed n more ∧ f = f'.embed n more := by
  rcases ending with _ | ⟨_ | _,_⟩ <;> simp [embed]

end Ending

def Expr.unaware : Expr → Bool
  | .token kind _ => !Terminal.enders.contains kind
  | .call r => [NonTerminal.attValList,.attValAnd,.attVal,.attName,.regExp,.regExpRaw].contains r
  | .andThen first second | .orElse first second => first.unaware && second.unaware
  | .optional body | .attempt body | .many body => body.unaware
  | .next kinds yes no => kinds.all (!Terminal.enders.contains ·) && yes.unaware && no.unaware
  | _ => true

theorem unaware_body {r : NonTerminal} (h : (Expr.call r).unaware = true) :
    (body r).unaware = true := by
  revert h
  cases r <;> decide

/-- A trail of the longer text that is one of the tokens in front of `more`, further on. -/
def Inside (e : Expr) (c : Cursor) (n : Nat) (more : List Token) (ending : Ending)
    (T : List Entry) : Prop :=
  ∃ ending' T', Trail e c ending' T' ∧ ending = ending'.embed n more ∧
    T = T'.map (Entry.shift · n)

namespace Inside

variable {e : Expr} {c d f : Cursor} {n m : Nat} {more : List Token} {T : List Entry}

theorem complete (h : Inside e c n more (.complete d) T) : ∃ d' T', Trail e c (.complete d') T' ∧
    d = d'.embed n more ∧ T = T'.map (Entry.shift · n) := by
  obtain ⟨_,T',trail,isEnding,path⟩ := h
  obtain ⟨d',rfl,same⟩ := Ending.complete_eq_embed.mp isEnding
  exact ⟨d',T',trail,same,path⟩

theorem failed (h : Inside e c n more (.broken none f) T) :
    ∃ f' T', Trail e c (.broken none f') T' ∧ f = f'.embed n more ∧
      T = T'.map (Entry.shift · n) := by
  obtain ⟨_,T',trail,isEnding,path⟩ := h
  obtain ⟨f',rfl,same⟩ := Ending.failed_eq_embed.mp isEnding
  exact ⟨f',T',trail,same,path⟩

theorem resting (h : Inside e c n more (.broken (some d) f) T) :
    ∃ d' f' T', Trail e c (.broken (some d') f') T' ∧ d = d'.embed n more ∧ f = f'.embed n more ∧
      T = T'.map (Entry.shift · n) := by
  obtain ⟨_,T',trail,isEnding,path⟩ := h
  obtain ⟨d',f',rfl,rests,same⟩ := Ending.resting_eq_embed.mp isEnding
  exact ⟨d',f',T',trail,rests,same,path⟩

theorem leaf {tag : Terminal} (trail : Trail e c (.complete (c.advance m)) [c.leaf tag m])
    (fits : m ≤ c.rest.length) : Inside e c n more (.complete ((c.embed n more).advance m))
      [(c.embed n more).leaf tag m] := by
  rw [Cursor.advance_embed fits,Cursor.leaf_embed fits]
  exact ⟨_,_,trail,rfl,rfl⟩

/-- Tokens that are read fit in front of `more` when all of it is left. -/
theorem fits (left : more.length ≤ ((c.embed n more).advance m).rest.length)
    (fits : m ≤ (c.embed n more).rest.length) : m ≤ c.rest.length := by
  simp only [Cursor.rest_advance,Cursor.embed,List.length_drop,List.length_append] at left fits
  omega

theorem escape (at_ : c.isAt .backslash = true)
    (inside : (c.embed n more).escapeLength ≤ c.rest.length) :
    Inside .escape c n more (.complete ((c.embed n more).advance (c.embed n more).escapeLength))
      [(c.embed n more).leaf .regExpEscape (c.embed n more).escapeLength] := by
  have length := Cursor.escapeLength_embed inside
  rw [length] at inside ⊢
  exact leaf (.escape at_) inside

theorem run {stop : Terminal} (nonzero : Recognizer.runLength stop (c.embed n more).rest ≠ 0)
    (inside : Recognizer.runLength stop (c.embed n more).rest ≤ c.rest.length) :
    Inside (.run stop) c n more
      (.complete ((c.embed n more).advance (Recognizer.runLength stop (c.embed n more).rest)))
      [(c.embed n more).leaf .regExpChars (Recognizer.runLength stop (c.embed n more).rest)] := by
  have length := Cursor.runLength_embed inside
  rw [length] at inside nonzero ⊢
  exact leaf (.run nonzero) inside

end Inside

/-- A trail that does not read on behind some tokens is a trail of those alone. -/
theorem Trail.cut {e : Expr} {c : Cursor} {n : Nat} {more : List Token} {ending : Ending}
    {T : List Entry} (h : Trail e (c.embed n more) ending T) (unaware : e.unaware = true)
    (ends : Ends more) (within : more.length ≤ ending.reach.rest.length ∨ Blank T) :
    Inside e c n more ending T := by
  have white : Terminal.whitespace ∉ Terminal.enders := by decide
  have backslash : Terminal.backslash ∉ Terminal.enders := by decide
  generalize same : c.embed n more = c' at h
  induction h generalizing c with
  | done =>
    subst same
    exact ⟨_,_,.done,rfl,rfl⟩
  | reject =>
    subst same
    exact ⟨_,_,.reject,rfl,rfl⟩
  | token at_ =>
    subst same
    rw [Cursor.isAt_embed ends (by simpa [Expr.unaware] using unaware)] at at_
    exact .leaf (.token at_) (Cursor.one_le_of_isAt at_)
  | noToken notAt =>
    subst same
    rw [Cursor.isAt_embed ends (by simpa [Expr.unaware] using unaware)] at notAt
    exact ⟨_,_,.noToken notAt,rfl,rfl⟩
  | trivia at_ =>
    subst same
    rw [Cursor.isAt_embed ends white] at at_
    exact .leaf (.trivia at_) (Cursor.one_le_of_isAt at_)
  | noTrivia notAt =>
    subst same
    rw [Cursor.isAt_embed ends white] at notAt
    exact ⟨_,_,.noTrivia notAt,rfl,rfl⟩
  | escape at_ =>
    subst same
    have left := within.resolve_right (by simp [Blank])
    have fits := Inside.fits left (escape_fits at_)
    rw [Cursor.isAt_embed ends backslash] at at_
    exact .escape at_ fits
  | noEscape notAt =>
    subst same
    rw [Cursor.isAt_embed ends backslash] at notAt
    exact ⟨_,_,.noEscape notAt,rfl,rfl⟩
  | run nonzero =>
    subst same
    have left := within.resolve_right (by simp [Blank])
    exact .run nonzero (Inside.fits left (runLength_le ..))
  | noRun zero =>
    subst same
    have length := Cursor.runLength_embed (zero.le.trans (Nat.zero_le _))
    exact ⟨_,_,.noRun (length ▸ zero),rfl,rfl⟩
  | call _ ih =>
    have left := within.resolve_right (Cursor.not_blank_branch _ _ _ _)
    obtain ⟨d,_,trail,rfl,rfl⟩ := (ih (unaware_body unaware) (.inl left) same).complete
    subst same
    exact ⟨_,_,.call trail,rfl,by rw [List.map_append]; rfl⟩
  | callBroken _ ih =>
    obtain ⟨f,_,trail,rfl,rfl⟩ := (ih (unaware_body unaware) within same).failed
    exact ⟨_,_,.callBroken trail,rfl,rfl⟩
  | callRests _ rests ih =>
    have left := within.resolve_right (Cursor.not_blank_branch _ _ _ _)
    obtain ⟨d,f,_,trail,rfl,rfl,rfl⟩ := (ih (unaware_body unaware) (.inl left) same).resting
    subst same
    exact ⟨_,_,.callRests trail rests,rfl,by rw [List.map_append]; rfl⟩
  | andThen _ second ihFirst ihSecond =>
    obtain ⟨aware,aware'⟩ := Bool.and_eq_true_iff.mp unaware
    have before := within.imp second.reach.length_le.trans' fun blank => (blank_append.mp blank).1
    obtain ⟨m,_,first,rfl,rfl⟩ := (ihFirst aware before same).complete
    obtain ⟨_,_,next,rfl,rfl⟩ :=
      ihSecond aware' (within.imp_right fun blank => (blank_append.mp blank).2) rfl
    exact ⟨_,_,.andThen first next,rfl,List.map_append.symm⟩
  | andThenBroken _ ih =>
    obtain ⟨f,_,first,rfl,rfl⟩ := (ih (Bool.and_eq_true_iff.mp unaware).1 within same).failed
    exact ⟨_,_,.andThenBroken first,rfl,rfl⟩
  | andThenRests _ _ blank onward ihFirst ihSecond =>
    obtain ⟨aware,aware'⟩ := Bool.and_eq_true_iff.mp unaware
    obtain ⟨d,f,_,first,rfl,rfl,rfl⟩ := (ihFirst aware within same).resting
    obtain ⟨d',_,second,rfl,rfl⟩ := (ihSecond aware' (.inr blank) rfl).complete
    exact ⟨_,_,.andThenRests first second (blank_map_shift.mp blank) onward.of_embed,rfl,rfl⟩
  | andThenGivesUp _ _ blank ihFirst ihSecond =>
    obtain ⟨aware,aware'⟩ := Bool.and_eq_true_iff.mp unaware
    obtain ⟨d,f,_,first,rfl,rfl,rfl⟩ := (ihFirst aware within same).resting
    obtain ⟨g,_,second,rfl,rfl⟩ := (ihSecond aware' (.inr blank) rfl).failed
    exact ⟨_,_,.andThenGivesUp first second (blank_map_shift.mp blank),rfl,rfl⟩
  | orElse _ stops ih =>
    obtain ⟨_,_,first,rfl,rfl⟩ := ih (Bool.and_eq_true_iff.mp unaware).1 within same
    exact ⟨_,_,.orElse first (by simpa using stops),rfl,rfl⟩
  | orElseSecond _ _ ihFirst ihSecond =>
    obtain ⟨aware,aware'⟩ := Bool.and_eq_true_iff.mp unaware
    obtain ⟨f,_,first,here,nothing⟩ := (ihFirst aware (.inr blank_nil) same).failed
    obtain ⟨_,_,second,rfl,rfl⟩ := ihSecond aware' within same
    obtain rfl := List.map_eq_nil_iff.mp nothing.symm
    obtain rfl := Cursor.embed_injective (same.trans here)
    exact ⟨_,_,.orElseSecond first second,rfl,rfl⟩
  | optional _ stops ih =>
    obtain ⟨_,_,first,rfl,rfl⟩ := ih unaware within same
    exact ⟨_,_,.optional first (by simpa using stops),rfl,rfl⟩
  | optionalNone _ blank ih =>
    obtain ⟨f,_,first,rfl,rfl⟩ := (ih unaware (.inr blank) same).failed
    subst same
    exact ⟨_,_,.optionalNone first (blank_map_shift.mp blank),rfl,rfl⟩
  | optionalRests _ dark ih =>
    obtain ⟨f,_,first,rfl,rfl⟩ := (ih unaware within same).failed
    subst same
    exact ⟨_,_,.optionalRests first (mt blank_map_shift.mpr dark),rfl,rfl⟩
  | attempt _ ih =>
    obtain ⟨_,_,first,rfl,rfl⟩ := ih unaware within same
    exact ⟨_,_,.attempt first,rfl,rfl⟩
  | manyNone _ blank ih =>
    obtain ⟨f,_,first,rfl,rfl⟩ := (ih unaware (.inr blank) same).failed
    subst same
    exact ⟨_,_,.manyNone first (blank_map_shift.mp blank),rfl,rfl⟩
  | manyMore _ second ihFirst ihSecond =>
    have before := within.imp second.reach.length_le.trans' fun blank => (blank_append.mp blank).1
    obtain ⟨m,_,first,rfl,rfl⟩ := (ihFirst unaware before same).complete
    obtain ⟨_,_,rest,rfl,rfl⟩ :=
      ihSecond unaware (within.imp_right fun blank => (blank_append.mp blank).2) rfl
    exact ⟨_,_,.manyMore first rest,rfl,List.map_append.symm⟩
  | manyRests _ dark ih =>
    obtain ⟨f,_,first,rfl,rfl⟩ := (ih unaware within same).failed
    subst same
    exact ⟨_,_,.manyRests first (mt blank_map_shift.mpr dark),rfl,rfl⟩
  | manyStops _ ih =>
    obtain ⟨d,f,_,first,rfl,rfl,rfl⟩ := (ih unaware within same).resting
    exact ⟨_,_,.manyStops first,rfl,rfl⟩
  | nextYes ahead _ ih =>
    subst same
    simp only [Expr.unaware,Bool.and_eq_true,List.all_eq_true] at unaware
    rw [Cursor.any_kind?_embed ends (by simpa using unaware.1.1)] at ahead
    obtain ⟨_,_,inner,rfl,rfl⟩ := ih unaware.1.2 within rfl
    exact ⟨_,_,.nextYes ahead inner,rfl,rfl⟩
  | nextNo ahead _ ih =>
    subst same
    simp only [Expr.unaware,Bool.and_eq_true,List.all_eq_true] at unaware
    rw [Cursor.any_kind?_embed ends (by simpa using unaware.1.1)] at ahead
    obtain ⟨_,_,inner,rfl,rfl⟩ := ih unaware.2 within rfl
    exact ⟨_,_,.nextNo ahead inner,rfl,rfl⟩

end Grammar

namespace Form

def reads : Form → Bool
  | .kind _ => true
  | .seq a b => a.reads || b.reads
  | _ => false

/-- Ends in the same way whatever comes after. -/
def sealed : Form → Bool
  | .last _ => false
  | .rule r => [NonTerminal.attValList,.attValAnd,.attVal,.attName,.regExp].contains r
  | .seq a b => (a.sealed || b.reads) && b.sealed
  | .alt a b => a.sealed && b.sealed
  | .opt a | .star a => a.sealed
  | _ => true

theorem sealed_bodyForm {r : NonTerminal} (h : (Form.rule r).sealed = true) :
    (bodyForm r).sealed = true := by
  revert h
  cases r <;> decide

end Form

namespace Derives

variable {f : Form} {w v : List Terminal}

theorem ne_nil_of_reads (h : Derives bodyForm f w v) (reads : f.reads = true) : w ≠ [] := by
  induction h with
  | kind => simp
  | seq first _ ihFirst ihSecond =>
    rcases Bool.or_eq_true_iff.mp reads with reads | reads
    · exact ihFirst reads
    · rintro rfl
      exact ihSecond reads (List.suffix_nil.mp first.suffix)
  | _ => simp [Form.reads] at reads

/-- What comes after does not matter to a derivation that leaves something, or that is sealed. -/
theorem append (h : Derives bodyForm f w v) (x : List Terminal) (ok : v ≠ [] ∨ f.sealed = true) :
    Derives bodyForm f (w ++ x) (v ++ x) := by
  induction h with
  | empty => exact .empty
  | kind => exact .kind
  | other notIn => exact .other notIn
  | last => simp [Form.sealed] at ok
  | rule _ ih => exact .rule (ih (ok.imp_right Form.sealed_bodyForm))
  | @seq a w u b v first second ihFirst ihSecond =>
    have left : v ≠ [] → u ≠ [] := by
      rintro nonempty rfl
      exact nonempty (List.suffix_nil.mp second.suffix)
    rcases ok with nonempty | isSealed
    · exact .seq (ihFirst (.inl (left nonempty))) (ihSecond (.inl nonempty))
    · obtain ⟨before,after⟩ := Bool.and_eq_true_iff.mp isSealed
      refine .seq (ihFirst ?_) (ihSecond (.inr after))
      exact (Bool.or_eq_true_iff.mp before).symm.imp_left second.ne_nil_of_reads
  | altFirst _ ih => exact .altFirst (ih (ok.imp_right fun h => (Bool.and_eq_true_iff.mp h).1))
  | altSecond _ ih => exact .altSecond (ih (ok.imp_right fun h => (Bool.and_eq_true_iff.mp h).2))
  | optNone => exact .optNone
  | optSome _ ih => exact .optSome (ih ok)
  | starNil => exact .starNil
  | @starCons a w u v first second ihFirst ihSecond =>
    have left : v ≠ [] → u ≠ [] := by
      rintro nonempty rfl
      exact nonempty (List.suffix_nil.mp second.suffix)
    exact .starCons (ihFirst (ok.imp_left left)) (ihSecond ok)

end Derives

open Grammar

/-- A list of pairs that is accepted for itself is read the same way before other tokens. -/
theorem Reading.trail_embed {t : Text} (x : Reading t .attValList)
    (accepted : (parse t .attValList).error = none) {n : Nat} {more : List Token} (ends : Ends more)
    (spaced : (Cursor.embed ⟨0,tokenize t⟩ n more).Spaced) :
    ∃ d, d.rest = [] ∧ x.ending = .complete d ∧
      Trail StartRule.attValList.expr (.embed ⟨0,tokenize t⟩ n more) (.complete (d.embed n more))
        (x.path.map (Entry.shift · n)) := by
  obtain ⟨d,complete,empty⟩ := x.error_eq_none_iff.mp accepted
  have atEnd : d.rest = [] := by simpa [Cursor.kinds] using empty
  have trail := complete ▸ x.trail
  have kinds : (Cursor.embed ⟨0,tokenize t⟩ n more).kinds =
      Cursor.kinds ⟨0,tokenize t⟩ ++ more.map Token.kind := List.map_append
  have derives := trail.derives.append (more.map Token.kind) (.inr (by decide))
  rw [← kinds,empty,List.nil_append] at derives
  obtain ⟨y⟩ := (StartRule.attValList.runs_expr (.embed ⟨0,tokenize t⟩ n more)).explained
    (StartRule.predictive_expr _) spaced
  have stops : StartRule.attValList.expr.StopsAt (more.map Token.kind) := by
    intro k ahead
    cases more with
    | nil => simp [ahead?] at ahead
    | cons token more =>
      have isEnd := ends token rfl
      simp only [Terminal.enders,List.mem_cons,List.not_mem_nil,or_false] at isEnd
      rcases isEnd with same | same <;> simp only [List.map_cons,same,ahead?] at ahead <;>
        obtain rfl := Option.some.inj ahead <;> decide
  obtain ⟨d',complete',near⟩ := y.trail.completes (by decide) (StartRule.predictive_expr _) spaced
    ⟨derives,stops⟩ spaced.spread (.inl rfl)
  have left : more.length ≤ d'.rest.length := by
    rcases near with same | same
    · simpa [Cursor.kinds] using (congrArg List.length same).le
    · obtain ⟨token,rest,rfl,white,-⟩ := List.map_eq_cons_iff.mp same
      have isEnd := ends token rfl
      simp [white,Terminal.enders] at isEnd
  obtain ⟨ending,T,cut,isEnding,isPath⟩ := y.trail.cut (by decide) ends (by
    rw [complete']
    exact .inl left)
  obtain ⟨rfl,rfl⟩ := trail.unique cut
  refine ⟨d,atEnd,complete,?_⟩
  have extended := y.trail
  rw [isEnding,isPath] at extended
  exact extended

end CorpusQuery
