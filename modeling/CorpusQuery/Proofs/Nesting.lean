import CorpusQuery.Proofs.Tiling

/-! Where the symbols of a trail lie. What is read before a symbol ends before it; what comes later
begins behind it or holds it. So a symbol holds just what its own trail has read. -/
namespace CorpusQuery

namespace Span

@[simp] theorem contains_iff {outer inner : Span} : outer.contains inner = true ↔
    outer.start ≤ inner.start ∧ inner.stop ≤ outer.stop := by
  simp [contains]

@[simp] theorem strictlyContains_iff {outer inner : Span} : outer.strictlyContains inner = true ↔
    inner ≠ outer ∧ outer.start ≤ inner.start ∧ inner.stop ≤ outer.stop := by
  simp [strictlyContains]

theorem strictlyContains_of_contains {outer middle inner : Span}
    (first : outer.strictlyContains middle = true) (second : middle.contains inner = true) :
    outer.strictlyContains inner = true := by
  rw [strictlyContains_iff] at first ⊢
  rw [contains_iff] at second
  refine ⟨fun same => first.1 ?_,by omega,by omega⟩
  cases outer
  cases middle
  simp only [same,mk.injEq] at first second ⊢
  omega

end Span

namespace NonTerminal

/-- A rule that always ends where reading stopped. -/
def closed (r : NonTerminal) : Bool := Terminal.all.all fun k => !r.rests k

theorem closed_eq_false {r : NonTerminal} (rests : ∃ k, r.rests k = true) : r.closed = false := by
  obtain ⟨k,rests⟩ := rests
  exact List.all_eq_false.mpr ⟨k,Terminal.mem_all k,by simp [rests]⟩

def inPair : Symbol → Bool
  | .terminal t => t != .lt && t != .gt
  | .nonTerminal r => [attValList,attValAnd,attVal,attName,regExp,regExpRaw].contains r

def holds : NonTerminal → Symbol → Bool
  | .attName,s => s == .terminal .attrChars
  | .regExpRaw,s => s == .terminal .regExpChars || s == .terminal .regExpEscape
  | .regExp,s => s == .terminal .quote || s == .terminal .regExpChars ||
      s == .terminal .regExpEscape || s == .nonTerminal .regExpRaw
  | .position,s | .attValList,s | .attValAnd,s | .attVal,s => inPair s
  | .structureTag,s => s == .terminal .lt || s == .terminal .gt || inPair s
  | _,_ => true

end NonTerminal

namespace Symbol

def closed : Symbol → Bool
  | .terminal _ => true
  | .nonTerminal r => r.closed

def holds : Symbol → Symbol → Bool
  | .terminal _,_ => false
  | .nonTerminal r,s => r.holds s

end Symbol

namespace Grammar

namespace Expr

def holds : Expr → Symbol → Bool
  | .done,_ | .reject _,_ => false
  | .token _ tag,s => s == .terminal tag
  | .trivia,s => s == .terminal .whitespace
  | .escape,s => s == .terminal .regExpEscape
  | .run _,s => s == .terminal .regExpChars
  | .call r,s => s == .nonTerminal r || r.holds s
  | .andThen first second,s | .orElse first second,s => first.holds s || second.holds s
  | .optional body,s | .attempt body,s | .many body,s => body.holds s
  | .next _ yes no,s => yes.holds s || no.holds s

end Expr

theorem holds_of_body {r : NonTerminal} {s : Symbol} (h : (body r).holds s = true) :
    r.holds s = true := by
  cases r with
  | attName | regExpRaw | regExp | position | attValList | attValAnd | attVal | structureTag =>
    revert h
    cases s with
    | terminal t => cases t <;> decide
    | nonTerminal r => cases r <;> decide
  | _ => rfl

namespace Trail

variable {e : Expr} {c : Cursor} {ending : Ending} {T : List Entry}

theorem holds (h : Trail e c ending T) : ∀ x ∈ T, e.holds x.1 = true := by
  induction h with
  | done | reject | noToken | noTrivia | noEscape | noRun | optionalNone | manyNone => simp
  | token | trivia | escape | run => simp [Cursor.leaf,Expr.holds]
  | call _ ih | callRests _ _ ih =>
    intro x member
    rcases List.mem_append.mp member with inside | last
    · simp [Expr.holds,holds_of_body (ih x inside)]
    · simp [List.mem_singleton.mp last,Cursor.branch,Expr.holds]
  | callBroken _ ih => exact fun x member => by simp [Expr.holds,holds_of_body (ih x member)]
  | andThen _ _ ihFirst ihSecond =>
    intro x member
    rcases List.mem_append.mp member with first | second
    · simp [Expr.holds,ihFirst x first]
    · simp [Expr.holds,ihSecond x second]
  | manyMore _ _ ihFirst ihSecond =>
    intro x member
    exact (List.mem_append.mp member).elim (ihFirst x) (ihSecond x)
  | andThenBroken _ ih | andThenRests _ _ _ _ ih | andThenGivesUp _ _ _ ih | orElse _ _ ih
  | orElseSecond _ _ _ ih | nextYes _ _ ih | nextNo _ _ ih =>
    exact fun x member => by simp [Expr.holds,ih x member]
  | optional _ _ ih | optionalRests _ _ ih | attempt _ ih | manyRests _ _ ih | manyStops _ ih =>
    exact ih

theorem bounds (h : Trail e c ending T) : ∀ x ∈ T,
    c.offset ≤ x.2.start ∧ x.2.start ≤ x.2.stop ∧ x.2.stop ≤ ending.reach.offset := by
  have append {c m f : Cursor} {T U : List Entry} (cm : c.offset ≤ m.offset)
      (mf : m.offset ≤ f.offset)
      (first : ∀ x ∈ T, c.offset ≤ x.2.start ∧ x.2.start ≤ x.2.stop ∧ x.2.stop ≤ m.offset)
      (second : ∀ x ∈ U, m.offset ≤ x.2.start ∧ x.2.start ≤ x.2.stop ∧ x.2.stop ≤ f.offset) :
      ∀ x ∈ T ++ U, c.offset ≤ x.2.start ∧ x.2.start ≤ x.2.stop ∧ x.2.stop ≤ f.offset := by
    intro x member
    rcases List.mem_append.mp member with member | member
    · have := first x member
      omega
    · have := second x member
      omega
  induction h with
  | done | reject | noToken | noTrivia | noEscape | noRun | optionalNone | manyNone => simp
  | token | trivia | escape | run =>
    simp [Cursor.leaf,(Cursor.reaches_advance ..).offset_le]
  | @call r c d T inner ih =>
    have cd : c.offset ≤ d.offset := inner.reach.offset_le
    intro x member
    rcases List.mem_append.mp member with inside | last
    · exact ih x inside
    · rw [List.mem_singleton.mp last]
      exact ⟨Nat.le_refl _,cd,Nat.le_refl _⟩
  | @callRests r c d f T inner _ ih =>
    have cd := (inner.reaches.2 d rfl).1.offset_le
    have df := (inner.reaches.2 d rfl).2.offset_le
    intro x member
    rcases List.mem_append.mp member with inside | last
    · exact ih x inside
    · rw [List.mem_singleton.mp last]
      exact ⟨Nat.le_refl _,cd,df⟩
  | andThen first second ihFirst ihSecond | manyMore first second ihFirst ihSecond =>
    exact append first.reach.offset_le second.reach.offset_le ihFirst ihSecond
  | callBroken _ ih | andThenBroken _ ih | andThenRests _ _ _ _ ih | andThenGivesUp _ _ _ ih
  | orElse _ _ ih | orElseSecond _ _ _ ih | optional _ _ ih | optionalRests _ _ ih | attempt _ ih
  | manyRests _ _ ih | manyStops _ ih | nextYes _ _ ih | nextNo _ _ ih => exact ih

/-- A symbol comes after those that it holds, and begins where the others before it have ended. -/
theorem ordered (h : Trail e c ending T) : T.Pairwise fun x y => y.1.closed = true →
    x.2.stop ≤ y.2.start ∨ y.1.holds x.1 = true ∧ y.2.contains x.2 = true := by
  induction h with
  | done | reject | noToken | noTrivia | noEscape | noRun | optionalNone | manyNone => exact .nil
  | token | trivia | escape | run => exact List.pairwise_singleton ..
  | @call r c d T inner ih =>
    refine List.pairwise_append.mpr ⟨ih,List.pairwise_singleton ..,fun x member y last _ => ?_⟩
    rw [List.mem_singleton.mp last]
    have := inner.bounds x member
    refine .inr ⟨holds_of_body (inner.holds x member),?_⟩
    exact Span.contains_iff.mpr ⟨this.1,this.2.2⟩
  | @callRests r c d f T inner rests ih =>
    refine List.pairwise_append.mpr ⟨ih,List.pairwise_singleton ..,fun x _ y last closed => ?_⟩
    rw [List.mem_singleton.mp last] at closed
    simp [Cursor.branch,Symbol.closed,NonTerminal.closed_eq_false rests] at closed
  | andThen first second ihFirst ihSecond | manyMore first second ihFirst ihSecond =>
    refine List.pairwise_append.mpr ⟨ihFirst,ihSecond,fun x inFirst y inSecond _ => .inl ?_⟩
    exact (first.bounds x inFirst).2.2.trans (second.bounds y inSecond).1
  | callBroken _ ih | andThenBroken _ ih | andThenRests _ _ _ _ ih | andThenGivesUp _ _ _ ih
  | orElse _ _ ih | orElseSecond _ _ _ ih | optional _ _ ih | optionalRests _ _ ih | attempt _ ih
  | manyRests _ _ ih | manyStops _ ih | nextYes _ _ ih | nextNo _ _ ih => exact ih

end Trail

/-- From `c` on, having read `before`, an expression enters a rule at `d`. -/
inductive Enters : Expr → Cursor → List Entry → NonTerminal → Cursor → Prop where
  | call : Enters (.call r) c [] r c
  | within : Enters (body s) c before r d → Enters (.call s) c before r d
  | first : Enters a c before r d → Enters (.andThen a b) c before r d
  | second : Trail a c (.complete m) T → Enters b m before r d →
      Enters (.andThen a b) c (T ++ before) r d
  | orElse : Enters a c before r d → Enters (.orElse a b) c before r d
  | orElseSecond : Enters b c before r d → Enters (.orElse a b) c before r d
  | optional : Enters a c before r d → Enters (.optional a) c before r d
  | attempt : Enters a c before r d → Enters (.attempt a) c before r d
  | many : Enters a c before r d → Enters (.many a) c before r d
  | manyMore : Trail a c (.complete m) T → Enters (.many a) m before r d →
      Enters (.many a) c (T ++ before) r d
  | nextYes : Enters yes c before r d → Enters (.next kinds yes no) c before r d
  | nextNo : Enters no c before r d → Enters (.next kinds yes no) c before r d

theorem Enters.bounds {e : Expr} {c d : Cursor} {before : List Entry} {r : NonTerminal}
    (h : Enters e c before r d) : c.Reaches d ∧ ∀ x ∈ before, x.2.stop ≤ d.offset := by
  induction h with
  | call => exact ⟨.refl _,by simp⟩
  | second first _ ih | manyMore first _ ih =>
    refine ⟨first.reach.trans ih.1,fun x member => ?_⟩
    rcases List.mem_append.mp member with inFirst | later
    · exact (first.bounds x inFirst).2.2.trans ih.1.offset_le
    · exact ih.2 x later
  | within _ ih | first _ ih | orElse _ ih | orElseSecond _ ih | optional _ ih | attempt _ ih
  | many _ ih | nextYes _ ih | nextNo _ ih => exact ih

/-- Where a closed rule stands on the trail of an expression, with its own trail. -/
structure Placed (e : Expr) (c : Cursor) (T : List Entry) (r : NonTerminal) (span : Span) where
  start : Cursor
  stop : Cursor
  before : List Entry
  inner : List Entry
  after : List Entry
  split : T = before ++ inner ++ (.nonTerminal r,span) :: after
  enters : Enters e c before r start
  trail : Trail (body r) start (.complete stop) inner
  start_eq : start.offset = span.start
  stop_eq : stop.offset = span.stop

/-- A place on a part of a trail is one on the whole, which is what `enters` says. -/
def Placed.lift {e e' : Expr} {c m : Cursor} {T : List Entry} {r : NonTerminal} {span : Span}
    (x : Placed e' m T r span) (first last : List Entry)
    (enters : Enters e' m x.before r x.start → Enters e c (first ++ x.before) r x.start) :
    Placed e c (first ++ T ++ last) r span where
  start := x.start
  stop := x.stop
  before := first ++ x.before
  inner := x.inner
  after := x.after ++ last
  split := by simp [x.split]
  enters := enters x.enters
  trail := x.trail
  start_eq := x.start_eq
  stop_eq := x.stop_eq

variable {e : Expr} {c : Cursor} {ending : Ending} {T : List Entry} {r : NonTerminal} {span : Span}

/-- Every closed rule on a trail has a trail of its own. -/
theorem Trail.placed (h : Trail e c ending T) (closed : r.closed = true)
    (member : (.nonTerminal r,span) ∈ T) : Nonempty (Placed e c T r span) := by
  -- A part with nothing before and nothing behind it.
  have alone {e e' : Expr} {c : Cursor} {T : List Entry} (h : Nonempty (Placed e' c T r span))
      (enters : ∀ before d, Enters e' c before r d → Enters e c before r d) :
      Nonempty (Placed e c T r span) := by
    obtain ⟨x⟩ := h
    exact ⟨by simpa using x.lift [] [] (enters x.before x.start)⟩
  induction h with
  | done | reject | noToken | noTrivia | noEscape | noRun | optionalNone | manyNone =>
    simp at member
  | token | trivia | escape | run => simp [Cursor.leaf] at member
  | @call s c d T inner ih =>
    rcases List.mem_append.mp member with inside | last
    · exact (ih inside).map (·.lift [] _ .within)
    · simp only [Cursor.branch,List.mem_singleton,Prod.mk.injEq,Symbol.nonTerminal.injEq] at last
      obtain ⟨rfl,rfl⟩ := last
      exact ⟨⟨c,d,[],T,[],by simp [Cursor.branch],.call,inner,rfl,rfl⟩⟩
  | callBroken _ ih => exact alone (ih member) fun _ _ => .within
  | @callRests s c d f T inner rests ih =>
    rcases List.mem_append.mp member with inside | last
    · exact (ih inside).map (·.lift [] _ .within)
    · simp only [Cursor.branch,List.mem_singleton,Prod.mk.injEq,Symbol.nonTerminal.injEq] at last
      rw [last.1,NonTerminal.closed_eq_false rests] at closed
      simp at closed
  | andThen first _ ihFirst ihSecond =>
    rcases List.mem_append.mp member with inFirst | inSecond
    · exact (ihFirst inFirst).map (·.lift [] _ .first)
    · obtain ⟨x⟩ := ihSecond inSecond
      exact ⟨by simpa using x.lift _ [] (.second first)⟩
  | manyMore first _ ihFirst ihSecond =>
    rcases List.mem_append.mp member with inFirst | inSecond
    · exact (ihFirst inFirst).map (·.lift [] _ .many)
    · obtain ⟨x⟩ := ihSecond inSecond
      exact ⟨by simpa using x.lift _ [] (.manyMore first)⟩
  | andThenBroken _ ih | andThenRests _ _ _ _ ih | andThenGivesUp _ _ _ ih =>
    exact alone (ih member) fun _ _ => .first
  | orElse _ _ ih => exact alone (ih member) fun _ _ => .orElse
  | orElseSecond _ _ _ ih => exact alone (ih member) fun _ _ => .orElseSecond
  | optional _ _ ih | optionalRests _ _ ih => exact alone (ih member) fun _ _ => .optional
  | attempt _ ih => exact alone (ih member) fun _ _ => .attempt
  | manyRests _ _ ih | manyStops _ ih => exact alone (ih member) fun _ _ => .many
  | nextYes _ _ ih => exact alone (ih member) fun _ _ => .nextYes
  | nextNo _ _ ih => exact alone (ih member) fun _ _ => .nextNo

end Grammar

theorem Cursor.Reaches.offset_lt {full : Text} {c d : Cursor} (h : c.Reaches d)
    (inside : c.In full) (fewer : d.rest.length < c.rest.length) : c.offset < d.offset := by
  obtain ⟨n,rfl⟩ := h
  rw [offset_advance]
  cases split : c.rest with
  | nil => simp [split] at fewer
  | cons token rest =>
    cases n with
    | zero => simp at fewer
    | succ n =>
      have := Token.byteLength_pos (inside.proper token (by simp [split]))
      simp only [Token.byteLength] at this
      simp
      omega

theorem Cursor.Reaches.inside {full : Text} {c d : Cursor} (h : c.Reaches d)
    (inside : c.In full) : d.In full := by
  obtain ⟨n,rfl⟩ := h
  exact inside.advance n

namespace Grammar

variable {e : Expr} {c : Cursor} {ending : Ending} {T : List Entry} {r : NonTerminal} {span : Span}
  {full : Text}

theorem Trail.offset_lt {d : Cursor} (h : Trail e c (.complete d) T) (sound : e.predictive = true)
    (dark : e.blankable = false) (inside : c.In full) : c.offset < d.offset := by
  have nonempty : T ≠ [] := fun empty => by
    have := h.blankable_of_blank sound (by simp [empty])
    simp [dark] at this
  exact h.reach.offset_lt inside (h.shortens sound nonempty)

theorem Placed.inside (x : Placed e c T r span) (inside : c.In full) : x.start.In full :=
  x.enters.bounds.1.inside inside

theorem Placed.proper (x : Placed e c T r span) (inside : c.In full) : span.start < span.stop := by
  rw [← x.start_eq,← x.stop_eq]
  exact x.trail.offset_lt (predictive_body r) (body_not_blankable r) (x.inside inside)

theorem Trail.proper (h : Trail e c ending T) (inside : c.In full) {x : Entry} (member : x ∈ T)
    (closed : x.1.closed = true) : x.2.start < x.2.stop := by
  rcases x with ⟨t | r,span⟩
  · exact (h.tiles.bounds inside _ (Entry.mem_terminals.mpr member)).2.1
  · obtain ⟨x⟩ := h.placed closed member
    exact x.proper inside

namespace Placed

variable {y : Entry}

theorem earlier (x : Placed e c T r span) (member : y ∈ x.before) : y.2.stop ≤ span.start :=
  x.start_eq ▸ x.enters.bounds.2 y member

theorem mem_of_inner (x : Placed e c T r span) (member : y ∈ x.inner) : y ∈ T := by
  rw [x.split]
  simp [member]

theorem mem_of_before (x : Placed e c T r span) (member : y ∈ x.before) : y ∈ T := by
  rw [x.split]
  simp [member]

theorem contains_of_inner (x : Placed e c T r span) (member : y ∈ x.inner) :
    span.contains y.2 = true := by
  have := x.trail.bounds y member
  rw [Span.contains_iff,← x.start_eq,← x.stop_eq]
  exact ⟨this.1,this.2.2⟩

theorem holds_of_inner (x : Placed e c T r span) (member : y ∈ x.inner) : r.holds y.1 = true :=
  holds_of_body (x.trail.holds y member)

theorem later (x : Placed e c T r span) (h : Trail e c ending T) (member : y ∈ x.after)
    (closed : y.1.closed = true) : span.stop ≤ y.2.start ∨
      y.1.holds (.nonTerminal r) = true ∧ y.2.contains span = true := by
  have ordered := h.ordered
  rw [x.split,List.pairwise_append] at ordered
  exact (List.pairwise_cons.mp ordered.2.1).1 y member closed

theorem place (x : Placed e c T r span) (h : Trail e c ending T) (member : y ∈ T)
    (closed : y.1.closed = true) :
    y ∈ x.before ∨ y ∈ x.inner ∨ y = (.nonTerminal r,span) ∨ span.stop ≤ y.2.start ∨
      y.1.holds (.nonTerminal r) = true ∧ y.2.contains span = true := by
  rw [x.split,List.mem_append,List.mem_append,List.mem_cons] at member
  rcases member with (before | inner) | same | after
  · exact .inl before
  · exact .inr (.inl inner)
  · exact .inr (.inr (.inl same))
  · exact .inr (.inr (.inr (x.later h after closed)))

theorem mem_inner (x : Placed e c T r span) (h : Trail e c ending T) (inside : c.In full)
    (member : y ∈ T) (closed : y.1.closed = true) (holds : span.strictlyContains y.2 = true) :
    y ∈ x.inner := by
  have proper := h.proper inside member closed
  rw [Span.strictlyContains_iff] at holds
  rcases x.place h member closed with before | inner | same | behind | ⟨-,around⟩
  · have := x.earlier before
    omega
  · exact inner
  · exact absurd (congrArg Prod.snd same) holds.1
  · have := x.proper inside
    omega
  · rw [Span.contains_iff] at around
    refine absurd ?_ holds.1
    cases hy : y.2
    cases span
    simp only [hy,Span.mk.injEq] at around holds ⊢
    omega

theorem mem_inner_of_start (x : Placed e c T r span) (h : Trail e c ending T) (inside : c.In full)
    (member : y ∈ T) (closed : y.1.closed = true) (apart : y.1.holds (.nonTerminal r) = false)
    (other : y.1 ≠ .nonTerminal r) (first : span.start ≤ y.2.start)
    (last : y.2.start < span.stop) : y ∈ x.inner := by
  have proper := h.proper inside member closed
  rcases x.place h member closed with before | inner | same | behind | ⟨holds,-⟩
  · have := x.earlier before
    omega
  · exact inner
  · exact absurd (congrArg Prod.fst same) other
  · omega
  · simp [apart] at holds

theorem mem_before (x : Placed e c T r span) (h : Trail e c ending T) (member : y ∈ T)
    (closed : y.1.closed = true) (apart : y.1.holds (.nonTerminal r) = false)
    (first : y.2.start < span.start) : y ∈ x.before := by
  have grows : span.start ≤ span.stop := by
    rw [← x.start_eq,← x.stop_eq]
    exact x.trail.reach.offset_le
  rcases x.place h member closed with before | inner | same | behind | ⟨holds,-⟩
  · exact before
  · have := (x.trail.bounds y inner).1
    rw [x.start_eq] at this
    omega
  · rw [same] at first
    exact absurd first (Nat.lt_irrefl _)
  · omega
  · simp [apart] at holds

end Placed

end Grammar

end CorpusQuery
