import CorpusQuery.Proofs.Derivation
import CorpusQuery.Proofs.Trail

/-! With what a derivation may start, and how a trail is a derivation. Tokens that are not white space
decide; white space may stand before them. -/
namespace CorpusQuery

namespace Cursor

def kinds (c : Cursor) : List Terminal := c.rest.map Token.kind

@[simp] theorem kinds_advance (c : Cursor) (n : Nat) : (c.advance n).kinds = c.kinds.drop n := by
  simp [kinds]

theorem kinds_of_isAt {c : Cursor} {k : Terminal} (at_ : c.isAt k = true) :
    c.kinds = k :: (c.advance 1).kinds := by
  obtain ⟨token,rest,split,kind⟩ := rest_of_isAt at_
  simp [kinds,split,kind]

theorem isAt_iff_head? {c : Cursor} {k : Terminal} : c.isAt k = true ↔ c.kinds.head? = some k := by
  rw [isAt_iff,kind?,kindAt?,kinds,List.head?_map,List.head?_eq_getElem?]

theorem kind?_eq_head? (c : Cursor) : c.kind? = c.kinds.head? := by
  rw [kind?,kindAt?,kinds,List.head?_map,List.head?_eq_getElem?]

theorem Spaced.spread {c : Cursor} (spaced : c.Spaced) : Spread c.kinds :=
  (List.isChain_map Token.kind).mpr spaced

end Cursor

def ahead? (w : List Terminal) : Option Terminal :=
  if w.head? = some .whitespace then w.tail.head? else w.head?

theorem ahead?_kinds (c : Cursor) : ahead? c.kinds = c.ahead? := by
  unfold ahead? Cursor.ahead?
  by_cases white : c.isAt .whitespace = true
  · have head := Cursor.isAt_iff_head?.mp white
    simp only [white,head,if_true]
    simp [Cursor.kindAt?,Cursor.kinds]
  · have head := Cursor.isAt_iff_head?.not.mp white
    simp only [white,head,if_false]
    exact (Cursor.kind?_eq_head? c).symm

theorem ahead?_whitespace {w : List Terminal} (spread : Spread (.whitespace :: w)) :
    ahead? (.whitespace :: w) = ahead? w := by
  simp [ahead?,spread.head_ne]

namespace Form

def blankable : Form → Bool
  | .empty | .opt _ | .star _ => true
  | .never | .other _ | .last _ | .rule _ => false
  | .kind k => k == .whitespace
  | .seq first second => first.blankable && second.blankable
  | .alt first second => first.blankable || second.blankable

/-- The terminals with which a derivation may start, optional white space apart. -/
def starts : Form → Terminal → Bool
  | .empty,_ | .never,_ => false
  | .kind k',k => k' == k && k != .whitespace
  | .last k',k => k' == k
  | .other kinds,k => !kinds.contains k
  | .rule r,k => r.starts k
  | .seq first second,k => first.starts k || first.blankable && second.starts k
  | .alt first second,k => first.starts k || second.starts k
  | .opt form,k | .star form,k => form.starts k

def tight : Form → Bool
  | .empty | .never => true
  | .kind k | .last k => k != .whitespace
  | .other kinds => kinds.contains .whitespace
  | .rule r => r != .query && r != .regExpRaw
  | .seq first second => first.tight && (!first.blankable || second.tight)
  | .alt first second => first.tight && second.tight
  | .opt form | .star form => form.tight

end Form

namespace Grammar

theorem blankable_form (e : Expr) : e.form.blankable = e.blankable := by
  induction e with
  | andThen _ _ ihFirst ihSecond | orElse _ _ ihFirst ihSecond | next _ _ _ ihFirst ihSecond =>
    simp [Expr.form,Form.blankable,Expr.blankable,ihFirst,ihSecond]
  | attempt _ ih => exact ih
  | done | reject | token | trivia | escape | run | call | optional | many => rfl

theorem starts_form (e : Expr) (k : Terminal) : e.form.starts k = e.starts k := by
  induction e with
  | andThen a _ ihFirst ihSecond =>
    simp [Expr.form,Form.starts,Expr.starts,ihFirst,ihSecond,blankable_form]
  | orElse _ _ ihFirst ihSecond | next _ _ _ ihFirst ihSecond =>
    simp [Expr.form,Form.starts,Expr.starts,ihFirst,ihSecond]
  | attempt _ ih | optional _ ih | many _ ih => exact ih
  | done | reject | token | call => rfl
  | trivia | escape => cases k <;> rfl
  | run stop =>
    simp only [Expr.form,Form.plus,Form.starts,Form.blankable,Expr.starts,List.contains_cons,
      List.contains_nil,Bool.false_and,Bool.or_false,Bool.not_or]
    rfl

theorem tight_bodyForm {r : NonTerminal} (h : (Form.rule r).tight = true) :
    (bodyForm r).tight = true := by
  revert h
  cases r <;> decide

/-- `x` is `w`, or what comes after the white space with which `w` starts. -/
def Near (w x : List Terminal) : Prop := w = x ∨ w = .whitespace :: x

theorem Near.ahead? {w x : List Terminal} (near : Near w x) (spread : Spread w) :
    ahead? w = CorpusQuery.ahead? x := by
  rcases near with rfl | rfl
  · rfl
  · exact ahead?_whitespace spread

theorem Near.trans {w x v : List Terminal} (near : Near w x) (near' : Near x v) (spread : Spread w) :
    Near w v := by
  rcases near with rfl | rfl
  · exact near'
  · rcases near' with rfl | rfl
    · exact .inr rfl
    · simpa using spread.head_ne

def Starts (test : Terminal → Bool) (w v : List Terminal) : Prop :=
  v.length < w.length ∧ ∃ k, test k = true ∧ (w.head? = some k ∨ ahead? w = some k)

namespace Starts

variable {test : Terminal → Bool} {w u v : List Terminal}

theorem mono {test' : Terminal → Bool} (h : Starts test w v)
    (more : ∀ k, test k = true → test' k = true) : Starts test' w v :=
  h.imp_right fun ⟨k,among,how⟩ => ⟨k,more k among,how⟩

theorem append (h : Starts test w u) (behind : v <:+ u) : Starts test w v :=
  h.imp_left behind.length_le.trans_lt

theorem after (h : Starts test u v) (near : Near w u) (spread : Spread w) : Starts test w v := by
  rcases near with rfl | rfl
  · exact h
  · obtain ⟨less,k,among,head | ahead⟩ := h
    · exact ⟨Nat.lt_succ_of_lt less,k,among,.inr (by simpa [ahead?] using head)⟩
    · exact ⟨Nat.lt_succ_of_lt less,k,among,.inr (by rwa [ahead?_whitespace spread])⟩

end Starts

end Grammar

open Grammar

namespace Derives

variable {f : Form} {w v : List Terminal}

theorem first (h : Derives bodyForm f w v) (spread : Spread w) :
    f.blankable = true ∧ Near w v ∨ Starts f.starts w v := by
  induction h with
  | empty | optNone | starNil => exact .inl ⟨rfl,.inl rfl⟩
  | @kind k w =>
    by_cases white : k = .whitespace
    · exact .inl ⟨by simp [Form.blankable,white],.inr (by rw [white])⟩
    · exact .inr ⟨by simp,k,by simp [Form.starts,white],.inl rfl⟩
  | @other kinds k w notIn => exact .inr ⟨by simp,k,by simpa [Form.starts] using notIn,.inl rfl⟩
  | @last k => exact .inr ⟨by simp,k,by simp [Form.starts],.inl rfl⟩
  | @rule r w v inner ih =>
    rcases ih spread with ⟨blank,-⟩ | starts
    · rw [bodyForm,blankable_form,body_not_blankable] at blank
      cases blank
    · refine .inr (starts.mono fun k among => ?_)
      rw [bodyForm,starts_form] at among
      exact starts_of_body among
  | seq first second ihFirst ihSecond =>
    rcases ihFirst spread with ⟨blank,near⟩ | starts
    · rcases ihSecond (first.spread spread) with ⟨blank',near'⟩ | starts
      · exact .inl ⟨by simp [Form.blankable,blank,blank'],near.trans near' spread⟩
      · exact .inr ((starts.after near spread).mono fun k among => by
          simp [Form.starts,blank,among])
    · exact .inr ((starts.append second.suffix).mono fun k among => by simp [Form.starts,among])
  | altFirst _ ih =>
    rcases ih spread with ⟨blank,near⟩ | starts
    · exact .inl ⟨by simp [Form.blankable,blank],near⟩
    · exact .inr (starts.mono fun k among => by simp [Form.starts,among])
  | altSecond _ ih =>
    rcases ih spread with ⟨blank,near⟩ | starts
    · exact .inl ⟨by simp [Form.blankable,blank],near⟩
    · exact .inr (starts.mono fun k among => by simp [Form.starts,among])
  | optSome _ ih => exact (ih spread).imp_left fun h => ⟨rfl,h.2⟩
  | starCons first rest ihFirst ihSecond =>
    rcases ihFirst spread with ⟨-,near⟩ | starts
    · rcases ihSecond (first.spread spread) with ⟨-,near'⟩ | starts
      · exact .inl ⟨rfl,near.trans near' spread⟩
      · exact .inr (starts.after near spread)
    · exact .inr (starts.append rest.suffix)

/-- What is derived by a form that is tight does not start with white space. -/
theorem head_ne_of_tight (h : Derives bodyForm f w v) (tight : f.tight = true) (spread : Spread w) :
    v = w ∨ w.head? ≠ some .whitespace := by
  induction h with
  | empty | optNone | starNil => exact .inl rfl
  | kind => exact .inr (by simpa [Form.tight] using tight)
  | @other kinds k w notIn =>
    refine .inr fun head => notIn ?_
    have same : k = .whitespace := by simpa using head
    simpa [Form.tight,same] using tight
  | last => exact .inr (by simpa [Form.tight] using tight)
  | rule _ ih => exact ih (tight_bodyForm tight) spread
  | @seq a w u b v first second ihFirst ihSecond =>
    simp only [Form.tight,Bool.and_eq_true,Bool.or_eq_true,Bool.not_eq_true'] at tight
    rcases ihFirst tight.1 spread with rfl | head
    · rcases tight.2 with notBlank | tightSecond
      · rcases first.first spread with ⟨blank,-⟩ | ⟨less,-⟩
        · simp [notBlank] at blank
        · omega
      · exact ihSecond tightSecond spread
    · exact .inr head
  | altFirst _ ih =>
    simp only [Form.tight,Bool.and_eq_true] at tight
    exact ih tight.1 spread
  | altSecond _ ih =>
    simp only [Form.tight,Bool.and_eq_true] at tight
    exact ih tight.2 spread
  | optSome _ ih => exact ih tight spread
  | starCons _ _ ihFirst ihSecond =>
    rcases ihFirst tight spread with rfl | head
    · exact ihSecond tight spread
    · exact .inr head

end Derives

namespace Grammar

theorem derives_run (stop : Terminal) (tokens : List Token) :
    Derives bodyForm (.star (.other [stop,.backslash])) (tokens.map Token.kind)
      ((tokens.drop (Recognizer.runLength stop tokens)).map Token.kind) := by
  induction tokens with
  | nil => exact .starNil
  | cons token rest ih =>
    by_cases accepted : (token.kind != stop && token.kind != .backslash) = true
    · have other : token.kind ∉ [stop,.backslash] := by simpa using accepted
      have length : Recognizer.runLength stop (token :: rest) =
          Recognizer.runLength stop rest + 1 := by simp [Recognizer.runLength,accepted]
      rw [length]
      exact .starCons (.other other) ih
    · have length : Recognizer.runLength stop (token :: rest) = 0 := by
        simp [Recognizer.runLength,accepted]
      rw [length]
      exact .starNil

/-- A run is a token of another kind than those that end it, and more of them. -/
theorem derives_someRun {stop : Terminal} {c : Cursor} (nonzero : Recognizer.runLength stop c.rest ≠ 0) :
    Derives bodyForm (Expr.run stop).form c.kinds
      (c.advance (Recognizer.runLength stop c.rest)).kinds := by
  obtain ⟨token,rest,split,accepted⟩ := Cursor.first_of_runLength nonzero
  have other : token.kind ∉ [stop,.backslash] := by simpa using accepted
  have length : Recognizer.runLength stop (token :: rest) =
      Recognizer.runLength stop rest + 1 := by simp [Recognizer.runLength,accepted]
  simp only [Cursor.kinds,Cursor.rest_advance,split,length]
  exact .seq (.other other) (derives_run stop rest)

/-- A backslash stands alone at the end, and elsewhere before any token. -/
theorem derives_escape {c : Cursor} (at_ : c.isAt .backslash = true) :
    Derives bodyForm Expr.escape.form c.kinds (c.advance c.escapeLength).kinds := by
  obtain ⟨token,rest,split,kind⟩ := Cursor.rest_of_isAt at_
  have first : c.kinds = .backslash :: rest.map Token.kind := by simp [Cursor.kinds,split,kind]
  rw [Cursor.kinds_advance,first]
  cases rest with
  | nil =>
    have alone : c.escapeLength = 1 := by simp [Cursor.escapeLength,Cursor.kindAt?,split]
    rw [alone]
    exact .altSecond .last
  | cons next rest =>
    have pair : c.escapeLength = 2 := by simp [Cursor.escapeLength,Cursor.kindAt?,split]
    rw [pair]
    exact .altFirst (.seq .kind (.seq (.other (by simp)) .empty))

/-- A trail that completes is a derivation. -/
theorem Trail.derives {e : Expr} {c d : Cursor} {T : List Entry} (h : Trail e c (.complete d) T) :
    Derives bodyForm e.form c.kinds d.kinds := by
  generalize same : Ending.complete d = ending at h
  induction h generalizing d with
  | done =>
    cases same
    exact .empty
  | noTrivia | optionalNone =>
    cases same
    exact .optNone
  | manyNone =>
    cases same
    exact .starNil
  | token at_ =>
    cases same
    rw [Cursor.kinds_of_isAt at_]
    exact .kind
  | trivia at_ =>
    cases same
    rw [Cursor.kinds_of_isAt at_]
    exact .optSome .kind
  | escape at_ =>
    cases same
    exact derives_escape at_
  | run nonzero =>
    cases same
    exact derives_someRun nonzero
  | call _ ih => exact .rule (ih same)
  | andThen _ _ ihFirst ihSecond => exact .seq (ihFirst rfl) (ihSecond same)
  | orElse _ _ ih => exact .altFirst (ih same)
  | orElseSecond _ _ _ ih => exact .altSecond (ih same)
  | optional _ _ ih => exact .optSome (ih same)
  | attempt _ ih => exact ih same
  | manyMore _ _ ihFirst ihSecond => exact .starCons (ihFirst rfl) (ihSecond same)
  | nextYes _ _ ih => exact .altFirst (ih same)
  | nextNo _ _ ih => exact .altSecond (ih same)
  | reject | noToken | noEscape | noRun | callBroken | callRests | andThenBroken | andThenRests
  | andThenGivesUp | optionalRests | manyRests | manyStops => cases same

end Grammar

end CorpusQuery
