import CorpusQuery.Proofs.Lookahead
import CorpusQuery.Span

/-! What a run reads, in order and without what it reads again. A trail is the reading of a parser
that never goes back: it ends where the expression is complete, or breaks off at the token that
nothing accepts. A part that matched and then broke off while trying to read on is said to rest. -/
namespace CorpusQuery

/-- A symbol that was matched, with the bytes that it covers. -/
abbrev Entry := Symbol × Span

namespace Entry

def isBlank (x : Entry) : Bool := x.1 == .terminal .whitespace

end Entry

def Blank (entries : List Entry) : Prop := ∀ x ∈ entries, x.isBlank = true

@[simp] theorem blank_nil : Blank [] := by simp [Blank]

@[simp] theorem blank_append {T U : List Entry} : Blank (T ++ U) ↔ Blank T ∧ Blank U := by
  simp only [Blank,List.mem_append]
  exact ⟨fun h => ⟨fun x m => h x (.inl m),fun x m => h x (.inr m)⟩,
    fun h x m => m.elim (h.1 x) (h.2 x)⟩

namespace Cursor

def leaf (c : Cursor) (tag : Terminal) (n : Nat) : Entry :=
  (.terminal tag,⟨c.offset,(c.advance n).offset⟩)

def branch (c : Cursor) (r : NonTerminal) (d : Cursor) : Entry :=
  (.nonTerminal r,⟨c.offset,d.offset⟩)

def escapeLength (c : Cursor) : Nat := if (c.kindAt? 1).isSome then 2 else 1

/-- `d` is `c` after some tokens. -/
def Reaches (c d : Cursor) : Prop := ∃ n, d = c.advance n

theorem advance_advance (c : Cursor) (m n : Nat) : (c.advance m).advance n = c.advance (m + n) := by
  have split : c.rest.take (m + n) = c.rest.take m ++ (c.rest.drop m).take n := List.take_add ..
  simp [advance,split,List.drop_drop,Nat.add_assoc]

@[refl] theorem Reaches.refl (c : Cursor) : c.Reaches c := ⟨0,by simp⟩

theorem reaches_advance (c : Cursor) (n : Nat) : c.Reaches (c.advance n) := ⟨n,rfl⟩

theorem Reaches.trans {c d f : Cursor} (cd : c.Reaches d) (df : d.Reaches f) : c.Reaches f := by
  obtain ⟨m,rfl⟩ := cd
  obtain ⟨n,rfl⟩ := df
  exact ⟨m + n,advance_advance c m n⟩

theorem Reaches.spaced {c d : Cursor} (h : c.Reaches d) (spaced : c.Spaced) : d.Spaced := by
  obtain ⟨n,rfl⟩ := h
  exact spaced.advance n

theorem Reaches.offset_le {c d : Cursor} (h : c.Reaches d) : c.offset ≤ d.offset := by
  obtain ⟨n,rfl⟩ := h
  exact Nat.le_add_right ..

theorem Reaches.within {c d : Cursor} (h : c.Reaches d) : ∃ n ≤ c.rest.length, d = c.advance n := by
  obtain ⟨n,rfl⟩ := h
  refine ⟨min n c.rest.length,Nat.min_le_right ..,?_⟩
  rcases Nat.le_total n c.rest.length with inside | past
  · rw [Nat.min_eq_left inside]
  · rw [Nat.min_eq_right past]
    simp [advance,List.take_of_length_le past,List.drop_of_length_le past]

theorem Reaches.length_le {c d : Cursor} (h : c.Reaches d) : d.rest.length ≤ c.rest.length := by
  obtain ⟨n,rfl⟩ := h
  simp

@[simp] theorem isBlank_leaf (c : Cursor) (tag : Terminal) (n : Nat) :
    (c.leaf tag n).isBlank = (tag == .whitespace) := by
  cases tag <;> rfl

/-- A run of tokens begins with one that neither stops it nor is a backslash. -/
theorem first_of_runLength {c : Cursor} {stop : Terminal}
    (pos : Recognizer.runLength stop c.rest ≠ 0) :
    ∃ token rest, c.rest = token :: rest ∧
      (token.kind != stop && token.kind != .backslash) = true := by
  cases split : c.rest with
  | nil => simp [Recognizer.runLength,split] at pos
  | cons token rest =>
    refine ⟨token,rest,rfl,?_⟩
    by_contra h
    simp [Recognizer.runLength,split,h] at pos

theorem not_blank_branch (T : List Entry) (c : Cursor) (r : NonTerminal) (d : Cursor) :
    ¬Blank (T ++ [c.branch r d]) := by
  intro blank
  have := blank (c.branch r d) (by simp)
  simp [branch,Entry.isBlank] at this

@[simp] theorem isBlank_branch (c : Cursor) (r : NonTerminal) (d : Cursor) :
    (c.branch r d).isBlank = false := rfl

end Cursor

namespace Grammar

theorem predictive_of_many {a : Expr} (sound : (Expr.many a).predictive = true) :
    a.predictive = true := by
  simp only [Expr.predictive,Bool.and_eq_true] at sound
  exact sound.1.1.1.1.1

/-- How a trail ends. -/
inductive Ending where
  /-- The expression is read up to `stop`. -/
  | complete (stop : Cursor)
  /-- Nothing can be read at `reach`. The run goes on from where it rests, or fails. -/
  | broken (resting : Option Cursor) (reach : Cursor)

namespace Ending

def reach : Ending → Cursor
  | .complete stop => stop
  | .broken _ reach => reach

/-- Where a run that matches goes on. -/
def stop? : Ending → Option Cursor
  | .complete stop => some stop
  | .broken resting _ => resting

@[simp] theorem reach_complete (c : Cursor) : (complete c).reach = c := rfl

@[simp] theorem reach_broken (resting : Option Cursor) (c : Cursor) :
    (broken resting c).reach = c := rfl

@[simp] theorem stop?_complete (c : Cursor) : (complete c).stop? = some c := rfl

@[simp] theorem stop?_broken (resting : Option Cursor) (c : Cursor) :
    (broken resting c).stop? = resting := rfl

end Ending

inductive Trail : Expr → Cursor → Ending → List Entry → Prop where
  | done : Trail .done c (.complete c) []
  | reject : Trail (.reject kinds) c (.broken none c) []
  | token : c.isAt kind = true →
      Trail (.token kind tag) c (.complete (c.advance 1)) [c.leaf tag 1]
  | noToken : c.isAt kind = false → Trail (.token kind tag) c (.broken none c) []
  | trivia : c.isAt .whitespace = true →
      Trail .trivia c (.complete (c.advance 1)) [c.leaf .whitespace 1]
  | noTrivia : c.isAt .whitespace = false → Trail .trivia c (.complete c) []
  | escape : c.isAt .backslash = true →
      Trail .escape c (.complete (c.advance c.escapeLength)) [c.leaf .regExpEscape c.escapeLength]
  | noEscape : c.isAt .backslash = false → Trail .escape c (.broken none c) []
  | run : Recognizer.runLength stop c.rest ≠ 0 →
      Trail (.run stop) c (.complete (c.advance (Recognizer.runLength stop c.rest)))
        [c.leaf .regExpChars (Recognizer.runLength stop c.rest)]
  | noRun : Recognizer.runLength stop c.rest = 0 → Trail (.run stop) c (.broken none c) []
  | call : Trail (body r) c (.complete d) T → Trail (.call r) c (.complete d) (T ++ [c.branch r d])
  | callBroken : Trail (body r) c (.broken none f) T → Trail (.call r) c (.broken none f) T
  | callRests : Trail (body r) c (.broken (some d) f) T → (∃ k, r.rests k = true) →
      Trail (.call r) c (.broken (some d) f) (T ++ [c.branch r d])
  | andThen : Trail a c (.complete m) T → Trail b m ending U →
      Trail (.andThen a b) c ending (T ++ U)
  | andThenBroken : Trail a c (.broken none f) T → Trail (.andThen a b) c (.broken none f) T
  | andThenRests : Trail a c (.broken (some d) f) T → Trail b d (.complete d') U → Blank U →
      d'.Reaches f → Trail (.andThen a b) c (.broken (some d') f) T
  | andThenGivesUp : Trail a c (.broken (some d) f) T → Trail b d (.broken none g) U → Blank U →
      Trail (.andThen a b) c (.broken none f) T
  | orElse : Trail a c ending T → ending.stop?.isSome = true → Trail (.orElse a b) c ending T
  | orElseSecond : Trail a c (.broken none c) [] → Trail b c ending T →
      Trail (.orElse a b) c ending T
  | optional : Trail a c ending T → ending.stop?.isSome = true → Trail (.optional a) c ending T
  | optionalNone : Trail a c (.broken none f) T → Blank T → Trail (.optional a) c (.complete c) []
  | optionalRests : Trail a c (.broken none f) T → ¬Blank T →
      Trail (.optional a) c (.broken (some c) f) T
  | attempt : Trail a c ending T → Trail (.attempt a) c ending T
  | manyNone : Trail a c (.broken none f) T → Blank T → Trail (.many a) c (.complete c) []
  | manyMore : Trail a c (.complete m) T → Trail (.many a) m ending U →
      Trail (.many a) c ending (T ++ U)
  | manyRests : Trail a c (.broken none f) T → ¬Blank T →
      Trail (.many a) c (.broken (some c) f) T
  | manyStops : Trail a c (.broken (some d) f) T → Trail (.many a) c (.broken (some d) f) T
  | nextYes : c.kind?.any kinds.contains = true → Trail yes c ending T →
      Trail (.next kinds yes no) c ending T
  | nextNo : c.kind?.any kinds.contains = false → Trail no c ending T →
      Trail (.next kinds yes no) c ending T

namespace Trail

variable {e : Expr} {c d f : Cursor} {ending : Ending} {T : List Entry}

theorem reaches (h : Trail e c ending T) :
    c.Reaches ending.reach ∧ ∀ d, ending.stop? = some d → c.Reaches d ∧ d.Reaches ending.reach := by
  have complete {c d : Cursor} (cd : c.Reaches d) : c.Reaches (Ending.complete d).reach ∧
      ∀ d', (Ending.complete d).stop? = some d' →
        c.Reaches d' ∧ d'.Reaches (Ending.complete d).reach := by
    refine ⟨cd,fun d' same => ?_⟩
    cases same
    exact ⟨cd,.refl _⟩
  have failed {c f : Cursor} (cf : c.Reaches f) : c.Reaches (Ending.broken none f).reach ∧
      ∀ d', (Ending.broken none f).stop? = some d' →
        c.Reaches d' ∧ d'.Reaches (Ending.broken none f).reach :=
    ⟨cf,fun d' stays => by cases stays⟩
  have resting {c d f : Cursor} (cd : c.Reaches d) (df : d.Reaches f) :
      c.Reaches (Ending.broken (some d) f).reach ∧
      ∀ d', (Ending.broken (some d) f).stop? = some d' →
        c.Reaches d' ∧ d'.Reaches (Ending.broken (some d) f).reach := by
    refine ⟨cd.trans df,fun d' same => ?_⟩
    cases same
    exact ⟨cd,df⟩
  induction h with
  | done | noTrivia | optionalNone | manyNone => exact complete (.refl _)
  | reject | noToken | noEscape | noRun => exact failed (.refl _)
  | token | trivia | escape | run => exact complete (Cursor.reaches_advance ..)
  | call _ ih | callBroken _ ih | callRests _ _ ih | orElse _ _ ih | orElseSecond _ _ _ ih
  | optional _ _ ih | attempt _ ih | manyStops _ ih | nextYes _ _ ih | nextNo _ _ ih
  | andThenBroken _ ih => exact ih
  | andThen _ _ ihFirst ihSecond | manyMore _ _ ihFirst ihSecond =>
    refine ⟨ihFirst.1.trans ihSecond.1,fun d stops => ?_⟩
    exact ⟨ihFirst.1.trans (ihSecond.2 d stops).1,(ihSecond.2 d stops).2⟩
  | andThenRests _ _ _ onward ihFirst ihSecond =>
    exact resting ((ihFirst.2 _ rfl).1.trans ihSecond.1) onward
  | andThenGivesUp _ _ _ ihFirst _ => exact failed ihFirst.1
  | optionalRests _ _ ih | manyRests _ _ ih => exact resting (.refl _) ih.1

theorem reach (h : Trail e c ending T) : c.Reaches ending.reach := h.reaches.1

/-- Only an expression that may match on white space completes having read nothing else. -/
theorem blankable_of_blank (h : Trail e c (.complete d) T) (sound : e.predictive = true)
    (blank : Blank T) : e.blankable = true := by
  generalize same : Ending.complete d = ending at h
  induction h generalizing d with
  | done | trivia | noTrivia | optional | optionalNone | manyNone | manyMore => rfl
  | @token kind tag c =>
    have white : tag = .whitespace := by simpa [Blank] using blank
    simpa [Expr.predictive,Expr.blankable,white] using sound
  | escape | run => simp [Blank] at blank
  | call => exact absurd blank (Cursor.not_blank_branch _ _ _ _)
  | andThen _ _ ihFirst ihSecond =>
    rw [blank_append] at blank
    simp only [Expr.predictive,Bool.and_eq_true] at sound
    simp [Expr.blankable,ihFirst sound.1.1.1 blank.1 rfl,ihSecond sound.1.1.2 blank.2 same]
  | orElse _ _ ih =>
    simp only [Expr.predictive,Bool.and_eq_true] at sound
    simp [Expr.blankable,ih sound.1.1 blank same]
  | orElseSecond _ _ _ ih =>
    simp only [Expr.predictive,Bool.and_eq_true] at sound
    simp [Expr.blankable,ih sound.1.2 blank same]
  | attempt _ ih => exact ih sound blank same
  | nextYes _ _ ih =>
    simp only [Expr.predictive,Bool.and_eq_true] at sound
    simp [Expr.blankable,ih sound.1 blank same]
  | nextNo _ _ ih =>
    simp only [Expr.predictive,Bool.and_eq_true] at sound
    simp [Expr.blankable,ih sound.2 blank same]
  | reject | noToken | noEscape | noRun | callBroken | callRests | andThenBroken | andThenRests
  | andThenGivesUp | optionalRests | manyRests | manyStops => cases same

/-- A run that rests has read more than white space. -/
theorem not_blank_of_rests (h : Trail e c (.broken (some d) f) T) : ¬Blank T := by
  generalize same : Ending.broken (some d) f = ending at h
  induction h generalizing d f with
  | callRests => exact Cursor.not_blank_branch _ _ _ _
  | andThen _ _ _ ihSecond | manyMore _ _ _ ihSecond =>
    exact fun blank => ihSecond same (blank_append.mp blank).2
  | andThenRests _ _ _ _ ihFirst _ => exact ihFirst rfl
  | orElse _ _ ih | orElseSecond _ _ _ ih | optional _ _ ih | attempt _ ih | manyStops _ ih
  | nextYes _ _ ih | nextNo _ _ ih => exact ih same
  | optionalRests _ dark | manyRests _ dark => exact dark
  | done | reject | token | noToken | trivia | noTrivia | escape | noEscape | run | noRun | call
  | callBroken | andThenBroken | andThenGivesUp | optionalNone | manyNone => cases same

theorem many_completes {a : Expr} (good last : Cursor → Prop)
    (body : ∀ {c ending T}, good c → Trail a c ending T → (∃ d, ending = .complete d ∧ good d) ∨
      (∃ f, ending = .broken none f) ∧ Blank T ∧ last c)
    (h : Trail (.many a) c ending T) (start : good c) : ∃ d, ending = .complete d ∧ last d := by
  generalize same : Expr.many a = e at h
  induction h with
  | manyNone first =>
    cases same
    rcases body start first with ⟨_,complete,-⟩ | ⟨-,-,ends⟩
    · cases complete
    · exact ⟨_,rfl,ends⟩
  | manyMore first _ _ ih =>
    cases same
    rcases body start first with ⟨_,complete,goesOn⟩ | ⟨⟨_,broken⟩,-⟩
    · cases complete
      exact ih goesOn rfl
    · cases broken
  | manyRests first dark =>
    cases same
    rcases body start first with ⟨_,complete,-⟩ | ⟨-,blank,-⟩
    · cases complete
    · exact absurd blank dark
  | manyStops first =>
    cases same
    rcases body start first with ⟨_,complete,-⟩ | ⟨⟨_,broken⟩,-⟩
    · cases complete
    · cases broken
  | done | reject | token | noToken | trivia | noTrivia | escape | noEscape | run | noRun | call
  | callBroken | callRests | andThen | andThenBroken | andThenRests | andThenGivesUp | orElse
  | orElseSecond | optional | optionalNone | optionalRests | attempt | nextYes | nextNo => cases same

/-- At most one token of white space is read from one cursor to another. -/
def Skips (c m : Cursor) (T : List Entry) : Prop :=
  T = [] ∧ m = c ∨ c.isAt .whitespace = true ∧ T = [c.leaf .whitespace 1] ∧ m = c.advance 1

theorem Skips.append {c m f : Cursor} {T U : List Entry} (first : Skips c m T) (second : Skips m f U)
    (spaced : c.Spaced) : Skips c f (T ++ U) := by
  rcases first with ⟨rfl,rfl⟩ | ⟨white,rfl,rfl⟩
  · exact second
  · rcases second with ⟨rfl,stays⟩ | ⟨again,-⟩
    · exact .inr ⟨white,rfl,stays⟩
    · simp [spaced.not_isAt_advance white] at again

/-- A trail of white space has one token of it at most. -/
theorem blank_cases (h : Trail e c ending T) (spaced : c.Spaced) (sound : e.predictive = true)
    (blank : Blank T) : Skips c ending.reach T := by
  induction h with
  | done | reject | noToken | noTrivia | noEscape | noRun | optionalNone | manyNone =>
    exact .inl ⟨rfl,rfl⟩
  | @token kind tag c at_ =>
    have white : tag = .whitespace := by simpa [Blank] using blank
    have same : kind = .whitespace := by simpa [Expr.predictive,white] using sound
    subst white same
    exact .inr ⟨at_,rfl,rfl⟩
  | trivia white => exact .inr ⟨white,rfl,rfl⟩
  | escape | run => simp [Blank] at blank
  | call | callRests => exact absurd blank (Cursor.not_blank_branch _ _ _ _)
  | callBroken _ ih => exact ih spaced (predictive_body _) blank
  | andThen first _ ihFirst ihSecond =>
    simp only [Expr.predictive,Bool.and_eq_true] at sound
    rw [blank_append] at blank
    exact (ihFirst spaced sound.1.1.1 blank.1).append
      (ihSecond (first.reach.spaced spaced) sound.1.1.2 blank.2) spaced
  | manyMore first _ ihFirst ihSecond =>
    rw [blank_append] at blank
    exact (ihFirst spaced (predictive_of_many sound) blank.1).append
      (ihSecond (first.reach.spaced spaced) sound blank.2) spaced
  | andThenBroken _ ih =>
    simp only [Expr.predictive,Bool.and_eq_true] at sound
    exact ih spaced sound.1.1.1 blank
  | andThenRests first | andThenGivesUp first | manyStops first =>
    exact absurd blank first.not_blank_of_rests
  | orElse _ _ ih =>
    simp only [Expr.predictive,Bool.and_eq_true] at sound
    exact ih spaced sound.1.1 blank
  | orElseSecond _ _ _ ih =>
    simp only [Expr.predictive,Bool.and_eq_true] at sound
    exact ih spaced sound.1.2 blank
  | optional _ _ ih =>
    simp only [Expr.predictive,Bool.and_eq_true] at sound
    exact ih spaced sound.1.1 blank
  | optionalRests _ dark | manyRests _ dark => exact absurd blank dark
  | attempt _ ih => exact ih spaced sound blank
  | nextYes _ _ ih =>
    simp only [Expr.predictive,Bool.and_eq_true] at sound
    exact ih spaced sound.1 blank
  | nextNo _ _ ih =>
    simp only [Expr.predictive,Bool.and_eq_true] at sound
    exact ih spaced sound.2 blank

/-- Behind white space, which is read if it is there, comes a token of one of the kinds. -/
def Opens (starts : Terminal → Bool) (c : Cursor) (T : List Entry) : Prop :=
  ∃ k, c.ahead? = some k ∧ starts k = true ∧ (c.isAt .whitespace = true → c.leaf .whitespace 1 ∈ T)

namespace Opens

variable {starts more : Terminal → Bool} {c m : Cursor} {T U : List Entry}

theorem of_isAt {kind : Terminal} (at_ : c.isAt kind = true) (dark : kind ≠ .whitespace)
    (among : starts kind = true) : Opens starts c T := by
  refine ⟨kind,Cursor.ahead?_of_isAt at_ dark,among,fun white => ?_⟩
  rw [Cursor.isAt_iff] at at_ white
  exact absurd (Option.some.inj (at_.symm.trans white)) dark

theorem mono (h : Opens starts c T) (le : ∀ k, starts k = true → more k = true) :
    Opens more c T := by
  obtain ⟨k,ahead,among,white⟩ := h
  exact ⟨k,ahead,le k among,white⟩

theorem append (h : Opens starts c T) (U : List Entry) : Opens starts c (T ++ U) := by
  obtain ⟨k,ahead,among,white⟩ := h
  exact ⟨k,ahead,among,fun here => List.mem_append_left _ (white here)⟩

theorem behind (h : Opens starts m U) (skips : Skips c m T) (spaced : c.Spaced) :
    Opens starts c (T ++ U) := by
  obtain ⟨k,ahead,among,white⟩ := h
  rcases skips with ⟨rfl,rfl⟩ | ⟨here,rfl,rfl⟩
  · exact ⟨k,ahead,among,white⟩
  · rw [Cursor.ahead?_advance spaced here] at ahead
    exact ⟨k,ahead,among,fun _ => by simp⟩

end Opens

theorem starts (h : Trail e c ending T) (spaced : c.Spaced) (sound : e.predictive = true)
    (dark : ¬Blank T) (notWhite : e.starts .whitespace = false) : Opens e.starts c T := by
  induction h with
  | done | reject | noToken | noTrivia | noEscape | noRun | optionalNone | manyNone =>
    simp at dark
  | @token kind tag c at_ =>
    have notTag : tag ≠ .whitespace := by simpa [Blank] using dark
    have notKind : kind ≠ .whitespace := by simpa [Expr.predictive,notTag] using sound
    exact .of_isAt at_ notKind (by simp [Expr.starts,notKind])
  | trivia => simp [Blank] at dark
  | escape at_ => exact .of_isAt at_ (by simp) (by simp [Expr.starts])
  | @run stop c pos =>
    obtain ⟨token,rest,split,accepted⟩ := Cursor.first_of_runLength pos
    have white : token.kind ≠ .whitespace := by
      intro white
      simp only [Expr.starts,← white] at notWhite
      simp [accepted] at notWhite
    have at_ : c.isAt token.kind = true := by simp [Cursor.isAt,Cursor.kind?,Cursor.kindAt?,split]
    exact .of_isAt at_ white (by simpa [Expr.starts] using accepted)
  | call inner ih =>
    have dark : ¬Blank _ := fun blank => by
      have := inner.blankable_of_blank (predictive_body _) blank
      simp [body_not_blankable] at this
    have opens := ih spaced (predictive_body _) dark
      (Bool.eq_false_iff.mpr fun h => by simp [Expr.starts,starts_of_body h] at notWhite)
    exact (opens.mono fun _ => starts_of_body).append _
  | callBroken _ ih =>
    have opens := ih spaced (predictive_body _) dark
      (Bool.eq_false_iff.mpr fun h => by simp [Expr.starts,starts_of_body h] at notWhite)
    exact opens.mono fun _ => starts_of_body
  | callRests inner _ ih =>
    have opens := ih spaced (predictive_body _) inner.not_blank_of_rests
      (Bool.eq_false_iff.mpr fun h => by simp [Expr.starts,starts_of_body h] at notWhite)
    exact (opens.mono fun _ => starts_of_body).append _
  | @andThen a c m T b ending U first second ihFirst ihSecond =>
    simp only [Expr.predictive,Bool.and_eq_true] at sound
    simp only [Expr.starts,Bool.or_eq_false_iff,Bool.and_eq_false_iff] at notWhite
    by_cases blank : Blank T
    · -- The first part has taken the white space, and the second one reads on.
      have blankable := first.blankable_of_blank sound.1.1.1 blank
      have opens := ihSecond (first.reach.spaced spaced) sound.1.1.2
        (fun h => dark (blank_append.mpr ⟨blank,h⟩)) (by simpa [blankable] using notWhite.2)
      refine (opens.behind (first.blank_cases spaced sound.1.1.1 blank) spaced).mono fun k among => ?_
      simp [Expr.starts,among,blankable]
    · have opens := ihFirst spaced sound.1.1.1 blank notWhite.1
      exact (opens.append U).mono fun k among => by simp [Expr.starts,among]
  | @manyMore a c m T ending U first second ihFirst ihSecond =>
    have soundBody := predictive_of_many sound
    by_cases blank : Blank T
    · have opens := ihSecond (first.reach.spaced spaced) sound
        (fun h => dark (blank_append.mpr ⟨blank,h⟩)) notWhite
      exact opens.behind (first.blank_cases spaced soundBody blank) spaced
    · exact Opens.append (ihFirst spaced soundBody blank notWhite) U
  | andThenBroken _ ih | andThenRests _ _ _ _ ih _ | andThenGivesUp _ _ _ ih _ =>
    simp only [Expr.predictive,Bool.and_eq_true] at sound
    simp only [Expr.starts,Bool.or_eq_false_iff] at notWhite
    exact (ih spaced sound.1.1.1 dark notWhite.1).mono fun k among => by simp [Expr.starts,among]
  | manyRests _ _ ih | manyStops _ ih => exact ih spaced (predictive_of_many sound) dark notWhite
  | orElse _ _ ih =>
    simp only [Expr.predictive,Bool.and_eq_true] at sound
    simp only [Expr.starts,Bool.or_eq_false_iff] at notWhite
    exact (ih spaced sound.1.1 dark notWhite.1).mono fun k among => by simp [Expr.starts,among]
  | orElseSecond _ _ _ ih =>
    simp only [Expr.predictive,Bool.and_eq_true] at sound
    simp only [Expr.starts,Bool.or_eq_false_iff] at notWhite
    exact (ih spaced sound.1.2 dark notWhite.2).mono fun k among => by simp [Expr.starts,among]
  | optional _ _ ih | optionalRests _ _ ih =>
    simp only [Expr.predictive,Bool.and_eq_true] at sound
    exact ih spaced sound.1.1 dark notWhite
  | attempt _ ih => exact ih spaced sound dark notWhite
  | nextYes _ _ ih =>
    simp only [Expr.predictive,Bool.and_eq_true] at sound
    simp only [Expr.starts,Bool.or_eq_false_iff] at notWhite
    exact (ih spaced sound.1 dark notWhite.1).mono fun k among => by simp [Expr.starts,among]
  | nextNo _ _ ih =>
    simp only [Expr.predictive,Bool.and_eq_true] at sound
    simp only [Expr.starts,Bool.or_eq_false_iff] at notWhite
    exact (ih spaced sound.2 dark notWhite.2).mono fun k among => by simp [Expr.starts,among]

theorem shortens (h : Trail e c ending T) (sound : e.predictive = true) (nonempty : T ≠ []) :
    ending.reach.rest.length < c.rest.length := by
  have append {c m f : Cursor} {T U : List Entry} (nonempty : T ++ U ≠ [])
      (first : T ≠ [] → m.rest.length < c.rest.length) (cm : c.Reaches m)
      (second : U ≠ [] → f.rest.length < m.rest.length) (mf : m.Reaches f) :
      f.rest.length < c.rest.length := by
    have := cm.length_le
    have := mf.length_le
    by_cases h : T = []
    · have := second (by simpa [h] using nonempty)
      omega
    · have := first h
      omega
  induction h with
  | done | reject | noToken | noTrivia | noEscape | noRun | optionalNone | manyNone =>
    exact absurd rfl nonempty
  | token at_ | trivia at_ =>
    exact Cursor.rest_advance_lt Nat.one_ne_zero (Cursor.one_le_of_isAt at_)
  | escape at_ =>
    exact Cursor.rest_advance_lt (by unfold Cursor.escapeLength; split <;> simp) (escape_fits at_)
  | run pos => exact Cursor.rest_advance_lt pos (runLength_le ..)
  | @call r c d T inner ih =>
    refine ih (predictive_body _) fun empty => ?_
    have := inner.blankable_of_blank (predictive_body r) (by simp [empty])
    simp [body_not_blankable] at this
  | callBroken _ ih => exact ih (predictive_body _) nonempty
  | callRests inner _ ih =>
    exact ih (predictive_body _) fun empty => inner.not_blank_of_rests (by simp [empty])
  | andThen first second ihFirst ihSecond =>
    simp only [Expr.predictive,Bool.and_eq_true] at sound
    exact append nonempty (ihFirst sound.1.1.1) first.reach (ihSecond sound.1.1.2) second.reach
  | manyMore first second ihFirst ihSecond =>
    exact append nonempty (ihFirst (predictive_of_many sound)) first.reach (ihSecond sound) second.reach
  | andThenBroken _ ih | andThenRests _ _ _ _ ih _ | andThenGivesUp _ _ _ ih _ =>
    simp only [Expr.predictive,Bool.and_eq_true] at sound
    exact ih sound.1.1.1 nonempty
  | manyRests _ _ ih | manyStops _ ih => exact ih (predictive_of_many sound) nonempty
  | orElse _ _ ih =>
    simp only [Expr.predictive,Bool.and_eq_true] at sound
    exact ih sound.1.1 nonempty
  | orElseSecond _ _ _ ih =>
    simp only [Expr.predictive,Bool.and_eq_true] at sound
    exact ih sound.1.2 nonempty
  | optional _ _ ih | optionalRests _ _ ih =>
    simp only [Expr.predictive,Bool.and_eq_true] at sound
    exact ih sound.1.1 nonempty
  | attempt _ ih => exact ih sound nonempty
  | nextYes _ _ ih =>
    simp only [Expr.predictive,Bool.and_eq_true] at sound
    exact ih sound.1 nonempty
  | nextNo _ _ ih =>
    simp only [Expr.predictive,Bool.and_eq_true] at sound
    exact ih sound.2 nonempty

end Trail

end Grammar

end CorpusQuery
