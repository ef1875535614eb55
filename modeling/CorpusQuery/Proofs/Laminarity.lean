import CorpusQuery.Proofs.Consistency
import CorpusQuery.Proofs.Lookup

/-! The shape of what a parse registers. The ranges of two rules lie apart, or one of them holds the other
and is registered after it; each begins and ends with terminals. This is so for broken texts too: a rule
that ends before something it has tried to read ends between two symbols. -/
namespace CorpusQuery

/-- `y` is left after `x`: it begins behind `x`, or is a rule that holds `x` or ends before it. -/
def Entry.Precedes (x y : Entry) : Prop := x.2.stop ≤ y.2.start ∨
  y.nonTerminal?.isSome = true ∧ (y.2.stop ≤ x.2.start ∨ y.2.contains x.2 = true)

namespace Grammar

namespace Expr

/-- May end before something that it has tried to read, as far as the expression alone can tell. -/
def mayRest : Expr → Bool
  | .done | .reject _ | .token _ _ | .trivia | .escape | .run _ => false
  | .call r => !r.closed
  | .andThen first second => second.mayRest || second.blankable && first.mayRest
  | .orElse first second | .next _ first second => first.mayRest || second.mayRest
  | .optional _ | .many _ => true
  | .attempt body => body.mayRest

/-- Stays where it is when it reads nothing but white space. -/
def still : Expr → Bool
  | .done | .many _ => true
  | _ => false

/-- Where a part may end before something that it has tried to read, the next part reads on in earnest or
not at all. -/
def restsInPlace : Expr → Bool
  | .andThen first second => first.restsInPlace && second.restsInPlace &&
      (!first.mayRest || !second.blankable || second.still)
  | .orElse first second | .next _ first second => first.restsInPlace && second.restsInPlace
  | .optional body | .attempt body | .many body => body.restsInPlace
  | .done | .reject _ | .token _ _ | .trivia | .escape | .run _ | .call _ => true

end Expr

theorem body_restsInPlace (r : NonTerminal) : (body r).restsInPlace = true := by cases r <;> rfl

namespace Trail

variable {e : Expr} {c d f : Cursor} {ending : Ending} {T : List Entry}

theorem mayRest (h : Trail e c (.broken (some d) f) T) (sound : e.predictive = true) :
    e.mayRest = true := by
  generalize same : Ending.broken (some d) f = ending at h
  induction h generalizing d f with
  | callRests _ rests => simp [Expr.mayRest,NonTerminal.closed_eq_false rests]
  | optional | optionalRests | manyMore | manyRests | manyStops => rfl
  | andThen _ _ _ ih =>
    simp only [Expr.predictive,Bool.and_eq_true] at sound
    simp [Expr.mayRest,ih sound.1.1.2 same]
  | andThenRests _ second _ _ ih _ =>
    simp only [Expr.predictive,Bool.and_eq_true] at sound
    simp [Expr.mayRest,ih sound.1.1.1 rfl,second.blankable_of_blank sound.1.1.2 ‹_›]
  | orElse _ _ ih =>
    simp only [Expr.predictive,Bool.and_eq_true] at sound
    simp [Expr.mayRest,ih sound.1.1 same]
  | orElseSecond _ _ _ ih =>
    simp only [Expr.predictive,Bool.and_eq_true] at sound
    simp [Expr.mayRest,ih sound.1.2 same]
  | attempt _ ih => exact ih sound same
  | nextYes _ _ ih =>
    simp only [Expr.predictive,Bool.and_eq_true] at sound
    simp [Expr.mayRest,ih sound.1 same]
  | nextNo _ _ ih =>
    simp only [Expr.predictive,Bool.and_eq_true] at sound
    simp [Expr.mayRest,ih sound.2 same]
  | done | reject | token | noToken | trivia | noTrivia | escape | noEscape | run | noRun | call
  | callBroken | andThenBroken | andThenGivesUp | optionalNone | manyNone => cases same

theorem stays_of_still (h : Trail e c (.complete d) T) (sound : e.predictive = true)
    (still : e.still = true) (blank : Blank T) : d = c := by
  cases e with
  | done =>
    cases h
    rfl
  | many body => exact (Ending.complete.inj (h.of_blank_many sound blank).2)
  | _ => cases still

/-- Where a trail rests no symbol is cut. -/
theorem apart_of_rests (h : Trail e c (.broken (some d) f) T) (sound : e.predictive = true)
    (inPlace : e.restsInPlace = true) : ∀ x ∈ T, x.2.stop ≤ d.offset ∨ d.offset ≤ x.2.start := by
  generalize same : Ending.broken (some d) f = ending at h
  -- A first part that ends at `m`, where the second begins.
  have join {c m d : Cursor} {a : Expr} {T U : List Entry}
      (first : Trail a c (.complete m) T) (md : m.Reaches d)
      (second : ∀ x ∈ U, x.2.stop ≤ d.offset ∨ d.offset ≤ x.2.start) :
      ∀ x ∈ T ++ U, x.2.stop ≤ d.offset ∨ d.offset ≤ x.2.start := by
    intro x member
    rcases List.mem_append.mp member with inFirst | inSecond
    · exact .inl ((first.bounds x inFirst).2.2.trans md.offset_le)
    · exact second x inSecond
  induction h generalizing d f with
  | @callRests r c d f T inner rests ih =>
    cases same
    intro x member
    rcases List.mem_append.mp member with inside | last
    · exact ih (predictive_body r) (body_restsInPlace r) rfl x inside
    · rw [List.mem_singleton.mp last]
      exact .inl (Nat.le_refl _)
  | andThen first second _ ih =>
    simp only [Expr.predictive,Expr.restsInPlace,Bool.and_eq_true] at sound inPlace
    refine join first ?_ (ih sound.1.1.2 inPlace.1.2 same)
    subst same
    exact (second.reaches.2 d rfl).1
  | manyMore first second _ ih =>
    refine join first ?_ (ih sound inPlace same)
    subst same
    exact (second.reaches.2 d rfl).1
  | andThenRests first second blank _ ih _ =>
    cases same
    simp only [Expr.predictive,Expr.restsInPlace,Bool.and_eq_true] at sound inPlace
    have still := inPlace.2
    rw [first.mayRest sound.1.1.1,second.blankable_of_blank sound.1.1.2 blank] at still
    rw [second.stays_of_still sound.1.1.2 still blank]
    exact ih sound.1.1.1 inPlace.1.1 rfl
  | orElse _ _ ih =>
    simp only [Expr.predictive,Expr.restsInPlace,Bool.and_eq_true] at sound inPlace
    exact ih sound.1.1 inPlace.1 same
  | orElseSecond _ _ _ ih =>
    simp only [Expr.predictive,Expr.restsInPlace,Bool.and_eq_true] at sound inPlace
    exact ih sound.1.2 inPlace.2 same
  | optional _ _ ih =>
    simp only [Expr.predictive,Bool.and_eq_true] at sound
    exact ih sound.1.1 inPlace same
  | optionalRests inner _ _ | manyRests inner _ _ =>
    cases same
    exact fun x member => .inr (inner.bounds x member).1
  | attempt _ ih => exact ih sound inPlace same
  | manyStops _ ih => exact ih (predictive_of_many sound) inPlace same
  | nextYes _ _ ih =>
    simp only [Expr.predictive,Expr.restsInPlace,Bool.and_eq_true] at sound inPlace
    exact ih sound.1 inPlace.1 same
  | nextNo _ _ ih =>
    simp only [Expr.predictive,Expr.restsInPlace,Bool.and_eq_true] at sound inPlace
    exact ih sound.2 inPlace.2 same
  | done | reject | token | noToken | trivia | noTrivia | escape | noEscape | run | noRun | call
  | callBroken | andThenBroken | andThenGivesUp | optionalNone | manyNone => cases same

theorem precedes (h : Trail e c ending T) : T.Pairwise Entry.Precedes := by
  -- A rule that is left last, where it cuts no symbol of its own.
  have branch {c d : Cursor} {T : List Entry} (r : NonTerminal) (inner : T.Pairwise Entry.Precedes)
      (begins : ∀ x ∈ T, c.offset ≤ x.2.start)
      (apart : ∀ x ∈ T, x.2.stop ≤ d.offset ∨ d.offset ≤ x.2.start) :
      (T ++ [c.branch r d]).Pairwise Entry.Precedes := by
    refine List.pairwise_append.mpr ⟨inner,List.pairwise_singleton ..,fun x member y last => ?_⟩
    rw [List.mem_singleton.mp last]
    refine .inr ⟨rfl,(apart x member).symm.imp_right fun within => ?_⟩
    exact Span.contains_iff.mpr ⟨begins x member,within⟩
  induction h with
  | done | reject | noToken | noTrivia | noEscape | noRun | optionalNone | manyNone => exact .nil
  | token | trivia | escape | run => exact List.pairwise_singleton ..
  | @call r c d T inner ih =>
    have bounds := inner.bounds
    exact branch r ih (fun x member => (bounds x member).1) fun x member => .inl (bounds x member).2.2
  | @callRests r c d f T inner _ ih =>
    exact branch r ih (fun x member => (inner.bounds x member).1)
      (inner.apart_of_rests (predictive_body r) (body_restsInPlace r))
  | andThen first second ihFirst ihSecond | manyMore first second ihFirst ihSecond =>
    refine List.pairwise_append.mpr ⟨ihFirst,ihSecond,fun x inFirst y inSecond => .inl ?_⟩
    exact (first.bounds x inFirst).2.2.trans (second.bounds y inSecond).1
  | callBroken _ ih | andThenBroken _ ih | andThenRests _ _ _ _ ih | andThenGivesUp _ _ _ ih
  | orElse _ _ ih | orElseSecond _ _ _ ih | optional _ _ ih | optionalRests _ _ ih | attempt _ ih
  | manyRests _ _ ih | manyStops _ ih | nextYes _ _ ih | nextNo _ _ ih => exact ih

theorem shortens_of_rests (h : Trail e c (.broken (some d) f) T) (sound : e.predictive = true)
    (dark : e.blankable = false) : d.rest.length < c.rest.length := by
  generalize same : Ending.broken (some d) f = ending at h
  induction h generalizing d f with
  | callRests _ _ ih =>
    cases same
    exact ih (predictive_body _) (body_not_blankable _) rfl
  | andThen first second _ ih =>
    simp only [Expr.predictive,Bool.and_eq_true] at sound
    simp only [Expr.blankable,Bool.and_eq_false_iff] at dark
    subst same
    have later := (second.reaches.2 d rfl).1.length_le
    rcases dark with darkFirst | darkSecond
    · refine Nat.lt_of_le_of_lt later (first.shortens sound.1.1.1 fun empty => ?_)
      have := first.blankable_of_blank sound.1.1.1 (by simp [empty])
      simp [darkFirst] at this
    · exact Nat.lt_of_lt_of_le (ih sound.1.1.2 darkSecond rfl) first.reach.length_le
  | andThenRests first second blank _ ih _ =>
    cases same
    simp only [Expr.predictive,Bool.and_eq_true] at sound
    simp only [Expr.blankable,second.blankable_of_blank sound.1.1.2 blank,Bool.and_true] at dark
    exact Nat.lt_of_le_of_lt second.reach.length_le (ih sound.1.1.1 dark rfl)
  | orElse _ _ ih =>
    simp only [Expr.predictive,Bool.and_eq_true] at sound
    exact ih sound.1.1 (Bool.or_eq_false_iff.mp dark).1 same
  | orElseSecond _ _ _ ih =>
    simp only [Expr.predictive,Bool.and_eq_true] at sound
    exact ih sound.1.2 (Bool.or_eq_false_iff.mp dark).2 same
  | attempt _ ih => exact ih sound dark same
  | nextYes _ _ ih =>
    simp only [Expr.predictive,Bool.and_eq_true] at sound
    exact ih sound.1 (Bool.or_eq_false_iff.mp dark).1 same
  | nextNo _ _ ih =>
    simp only [Expr.predictive,Bool.and_eq_true] at sound
    exact ih sound.2 (Bool.or_eq_false_iff.mp dark).2 same
  | optional | optionalRests | manyMore | manyRests | manyStops => cases dark
  | done | reject | token | noToken | trivia | noTrivia | escape | noEscape | run | noRun | call
  | callBroken | andThenBroken | andThenGivesUp | optionalNone | manyNone => cases same

theorem nonempty_rules {full : Text} (h : Trail e c ending T) (inside : c.In full) :
    ∀ r span, (.nonTerminal r,span) ∈ T → span.start < span.stop := by
  -- A rule that is left last, after it has read something.
  have branch {c d : Cursor} {T : List Entry} (s : NonTerminal) (inside : c.In full) (cd : c.Reaches d)
      (shorter : d.rest.length < c.rest.length)
      (ih : ∀ r span, (.nonTerminal r,span) ∈ T → span.start < span.stop) :
      ∀ r span, (.nonTerminal r,span) ∈ T ++ [c.branch s d] → span.start < span.stop := by
    intro r span member
    rcases List.mem_append.mp member with inner | last
    · exact ih r span inner
    · obtain ⟨-,rfl⟩ := Prod.mk.inj (List.mem_singleton.mp last)
      exact cd.offset_lt inside shorter
  have append {T U : List Entry}
      (first : ∀ r span, (.nonTerminal r,span) ∈ T → span.start < span.stop)
      (second : ∀ r span, (.nonTerminal r,span) ∈ U → span.start < span.stop) :
      ∀ r span, (.nonTerminal r,span) ∈ T ++ U → span.start < span.stop :=
    fun r span member => (List.mem_append.mp member).elim (first r span) (second r span)
  induction h with
  | done | reject | noToken | noTrivia | noEscape | noRun | optionalNone | manyNone => simp
  | token | trivia | escape | run => simp [Cursor.leaf]
  | @call s c d T inner ih =>
    have nonempty : T ≠ [] := fun empty => by
      have := inner.blankable_of_blank (predictive_body s) (by simp [empty])
      simp [body_not_blankable] at this
    exact branch s inside inner.reach (inner.shortens (predictive_body s) nonempty) (ih inside)
  | @callRests s c d f T inner _ ih =>
    have shorter := inner.shortens_of_rests (predictive_body s) (body_not_blankable s)
    exact branch s inside (inner.reaches.2 d rfl).1 shorter (ih inside)
  | andThen first _ ihFirst ihSecond | manyMore first _ ihFirst ihSecond =>
    exact append (ihFirst inside) (ihSecond (first.reach.inside inside))
  | callBroken _ ih | andThenBroken _ ih | andThenRests _ _ _ _ ih | andThenGivesUp _ _ _ ih
  | orElse _ _ ih | orElseSecond _ _ _ ih | optional _ _ ih | optionalRests _ _ ih | attempt _ ih
  | manyRests _ _ ih | manyStops _ ih | nextYes _ _ ih | nextNo _ _ ih => exact ih inside

theorem nonempty {full : Text} (h : Trail e c ending T) (inside : c.In full) :
    ∀ x ∈ T, x.2.start < x.2.stop := by
  rintro ⟨t | r,span⟩ member
  · exact (h.tiles.bounds inside _ (Entry.mem_terminals.mpr member)).2.1
  · exact h.nonempty_rules inside r span member

/-- Two symbols of a trail lie apart, or one of them, which is a rule, holds the other. -/
theorem laminar (h : Trail e c ending T) {x y : Entry} (inX : x ∈ T) (inY : y ∈ T) :
    x = y ∨ x.2.stop ≤ y.2.start ∨ y.2.stop ≤ x.2.start ∨
      y.nonTerminal?.isSome = true ∧ y.2.contains x.2 = true ∨
      x.nonTerminal?.isSome = true ∧ x.2.contains y.2 = true := by
  by_cases same : x = y
  · exact .inl same
  have ordered : T.Pairwise fun x y => x.Precedes y ∨ y.Precedes x := h.precedes.imp .inl
  have : Std.Symm fun x y : Entry => x.Precedes y ∨ y.Precedes x := ⟨fun _ _ => Or.symm⟩
  rcases ordered.forall inX inY same with (before | ⟨rule,before | holds⟩) |
    (before | ⟨rule,before | holds⟩)
  · exact .inr (.inl before)
  · exact .inr (.inr (.inl before))
  · exact .inr (.inr (.inr (.inl ⟨rule,holds⟩)))
  · exact .inr (.inr (.inl before))
  · exact .inr (.inl before)
  · exact .inr (.inr (.inr (.inr ⟨rule,holds⟩)))

theorem contains_tile (h : Trail e c ending T) {r : NonTerminal} {span : Span}
    (isRule : (.nonTerminal r,span) ∈ T) {tile : Span × Terminal}
    (isTile : tile ∈ Entry.terminals T) {n : Nat} (covers : tile.1.start ≤ n ∧ n < tile.1.stop)
    (within : span.start ≤ n ∧ n < span.stop) : span.contains tile.1 = true := by
  have onTrail : (.terminal tile.2,tile.1) ∈ T := Entry.mem_terminals.mp isTile
  rcases h.laminar onTrail isRule with same | before | behind | ⟨-,holds⟩ | ⟨rule,-⟩
  · cases congrArg Prod.fst same
  · simp only at before
    omega
  · simp only at behind
    omega
  · exact holds
  · cases rule

end Trail

end Grammar

theorem List.lt_of_pairwise {α : Type} {R : α → α → Prop} {l : List α} (irrefl : ∀ a, ¬R a a)
    (ordered : l.Pairwise fun a b => ¬R b a) {i j : Nat} {x y : α} (atI : l[i]? = some x)
    (atJ : l[j]? = some y) (related : R x y) : i < j := by
  obtain ⟨inI,rfl⟩ := List.getElem?_eq_some_iff.mp atI
  obtain ⟨inJ,rfl⟩ := List.getElem?_eq_some_iff.mp atJ
  rcases Nat.lt_trichotomy i j with before | rfl | behind
  · exact before
  · exact absurd related (irrefl _)
  · exact absurd related (List.pairwise_iff_getElem.mp ordered j i inJ inI behind)

namespace SpanTable

structure Nested (table : SpanTable) (events : List Event) : Prop where
  nonempty : ∀ x ∈ table.nonTerminals, x.2.start < x.2.stop
  /-- Two of them lie apart, or one holds the other. -/
  laminar : ∀ x ∈ table.nonTerminals, ∀ y ∈ table.nonTerminals, x.2.stop ≤ y.2.start ∨
    y.2.stop ≤ x.2.start ∨ x.2.contains y.2 = true ∨ y.2.contains x.2 = true
  begins : ∀ x ∈ table.nonTerminals, ∃ tile ∈ Entry.terminals (Event.matched [] events),
    tile.1.start = x.2.start
  ends : ∀ x ∈ table.nonTerminals, ∃ tile ∈ Entry.terminals (Event.matched [] events),
    tile.1.stop = x.2.stop
  /-- What holds another is registered after it. -/
  order : ∀ (i j : Nat) (x y : NonTerminal × Span), table.nonTerminals[i]? = some x →
    table.nonTerminals[j]? = some y → x.2.strictlyContains y.2 = true → j < i
  /-- So the walk that decorates a text meets a position or structure before the pairs in it. -/
  walk : ∀ (i j : Nat) (x y : NonTerminal × Span), table.nonTerminals.reverse[i]? = some x →
    table.nonTerminals.reverse[j]? = some y → x.2.strictlyContains y.2 = true → i < j

end SpanTable

namespace Grammar.Trail

variable {e : Expr} {c : Cursor} {ending : Ending} {T : List Entry} {full : Text}

theorem not_strictlyContains_later (h : Trail e c ending T) (inside : c.In full) :
    (Entry.nonTerminals T).Pairwise fun x y => ¬x.2.strictlyContains y.2 = true := by
  refine List.pairwise_filterMap.mpr ?_
  refine List.Pairwise.imp_of_mem (fun {a b} inA inB precedes => ?_) h.precedes
  rintro ⟨r,span⟩ isA ⟨s,later⟩ isB holds
  obtain rfl := Entry.nonTerminal?_eq_some.mp isA
  obtain rfl := Entry.nonTerminal?_eq_some.mp isB
  have properA := h.nonempty inside _ inA
  have properB := h.nonempty inside _ inB
  obtain ⟨differs,begins,ends⟩ := Span.strictlyContains_iff.mp holds
  simp only at properA properB differs begins ends
  rcases precedes with before | ⟨-,before | around⟩
  · exact absurd (ends.trans before) (Nat.not_le.mpr properB)
  · exact absurd (before.trans begins) (Nat.not_le.mpr properB)
  · apply differs
    obtain ⟨begins',ends'⟩ := Span.contains_iff.mp around
    cases span
    cases later
    simp only [Span.mk.injEq] at *
    omega

end Grammar.Trail

/-- The rules that a parse registers nest, those inside failed rules included. -/
theorem parse_nested (text source : Text) (start : StartRule) :
    (SpanTable.ofEvents text (parse source start).events).Nested (parse source start).events := by
  obtain ⟨x⟩ := reading source start
  have registers := x.registers text
  have inside := Cursor.in_tokenize source
  have onTrail (y : NonTerminal × Span)
      (member : y ∈ (SpanTable.ofEvents text (parse source start).events).nonTerminals) :
      (.nonTerminal y.1,y.2) ∈ x.path := (registers.rules ..).mp member
  have nonempty (y : NonTerminal × Span)
      (member : y ∈ (SpanTable.ofEvents text (parse source start).events).nonTerminals) :
      y.2.start < y.2.stop := x.trail.nonempty inside _ (onTrail y member)
  -- Every place in a rule is covered by a terminal, which lies in the rule.
  have covered (y : NonTerminal × Span)
      (member : y ∈ (SpanTable.ofEvents text (parse source start).events).nonTerminals) (n : Nat)
      (within : y.2.start ≤ n ∧ n < y.2.stop) : ∃ tile ∈ Entry.terminals
        (Event.matched [] (parse source start).events), (tile.1.start ≤ n ∧ n < tile.1.stop) ∧
        y.2.start ≤ tile.1.start ∧ tile.1.stop ≤ y.2.stop := by
    have reach := (x.trail.bounds _ (onTrail y member)).2.2
    obtain ⟨tile,isTile,covers⟩ := x.tiles.covers (Nat.zero_le n) (within.2.trans_le reach)
    have held := x.trail.contains_tile (onTrail y member) isTile covers within
    refine ⟨tile,?_,covers,Span.contains_iff.mp held⟩
    rw [x.matched_eq]
    exact (x.mem_terminals tile).mpr isTile
  have ordered := (x.trail.not_strictlyContains_later inside).sublist registers.order
  have irrefl (y : NonTerminal × Span) : ¬y.2.strictlyContains y.2 = true :=
    fun holds => (Span.strictlyContains_iff.mp holds).1 rfl
  constructor
  · exact nonempty
  · intro y inY z inZ
    rcases x.trail.laminar (onTrail y inY) (onTrail z inZ) with same | before | behind | holds | holds
    · have same : y.2 = z.2 := congrArg (fun entry : Entry => entry.2) same
      exact .inr (.inr (.inl (Span.contains_iff.mpr (by simp [same]))))
    · exact .inl before
    · exact .inr (.inl behind)
    · exact .inr (.inr (.inr holds.2))
    · exact .inr (.inr (.inl holds.2))
  · intro y member
    have proper := nonempty y member
    obtain ⟨tile,isTile,covers,within⟩ := covered y member y.2.start ⟨Nat.le_refl _,proper⟩
    exact ⟨tile,isTile,by omega⟩
  · intro y member
    have proper := nonempty y member
    obtain ⟨tile,isTile,covers,within⟩ := covered y member (y.2.stop - 1) (by omega)
    exact ⟨tile,isTile,by omega⟩
  · intro i j y z atI atJ holds
    exact List.lt_of_pairwise (R := fun a b => b.2.strictlyContains a.2 = true) irrefl ordered atJ atI
      holds
  · intro i j y z atI atJ holds
    exact List.lt_of_pairwise (R := fun a b => a.2.strictlyContains b.2 = true) irrefl
      (List.pairwise_reverse.mpr ordered) atI atJ holds

end CorpusQuery
