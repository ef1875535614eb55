import CorpusQuery.Proofs.Tiling

/-! The protocol of a trace. Entering and closing a symbol nest like brackets, names and offsets of a
pair fit together, and every offset lies between two tokens. -/
namespace CorpusQuery

namespace Event

def offset? : Event → Option Nat
  | .enter _ offset => some offset
  | .leave stop => some stop
  | .fail _ => none

def opens : Event → Bool
  | .enter .. => true
  | .leave _ | .fail _ => false

def openings (events : List Event) : Nat := events.countP (·.opens)

def closings (events : List Event) : Nat := events.countP (!·.opens)

/-- All that is entered is closed, and never more than was entered. -/
structure Level (events : List Event) : Prop where
  total : closings events = openings events
  prefixes : ∀ before, before <+: events → closings before ≤ openings before

/-- Of the events after a symbol is entered, those in which it is open and the one that closes it. -/
structure Scope (after within : List Event) (closing : Event) : Prop where
  level : Level within
  closes : closing.opens = false
  follows : within ++ [closing] <+: after

/-- An event that closes a symbol leaves it at its offset or later, or names it as failed. -/
inductive Closes (symbol : Symbol) (offset : Nat) : Event → Prop where
  | leave : offset ≤ stop → Closes symbol offset (.leave stop)
  | fail : Closes symbol offset (.fail symbol)

/-- The protocol of a trace of which the offsets are to be boundaries. -/
structure Protocol (boundary : Nat → Prop) (events : List Event) : Prop where
  level : Level events
  /-- Each symbol that is entered is closed exactly once. -/
  closed : ∀ before symbol offset after, events = before ++ .enter symbol offset :: after →
    ∃! scope : List Event × Event, Scope after scope.1 scope.2
  /-- What closes a symbol fits it, and until then no offset lies before that of the symbol. -/
  pairs : ∀ before symbol offset after within closing,
    events = before ++ .enter symbol offset :: after → Scope after within closing →
    Closes symbol offset closing ∧
      ∀ event ∈ within ++ [closing], ∀ n, event.offset? = some n → offset ≤ n
  /-- Each event that leaves or fails a symbol closes one that was entered. -/
  opened : ∀ before closing after, events = before ++ closing :: after → closing.opens = false →
    ∃ outer symbol offset within, before = outer ++ .enter symbol offset :: within ∧ Level within
  boundaries : ∀ event ∈ events, ∀ n, event.offset? = some n → boundary n

section Counts

variable (first second : List Event)

@[simp] theorem openings_append :
    openings (first ++ second) = openings first + openings second := List.countP_append

@[simp] theorem closings_append :
    closings (first ++ second) = closings first + closings second := List.countP_append

@[simp] theorem openings_enter (symbol : Symbol) (offset : Nat) :
    openings (.enter symbol offset :: first) = openings first + 1 :=
  List.countP_cons_of_pos rfl

@[simp] theorem closings_enter (symbol : Symbol) (offset : Nat) :
    closings (.enter symbol offset :: first) = closings first :=
  List.countP_cons_of_neg (by simp [opens])

theorem openings_closing {closing : Event} (closes : closing.opens = false) :
    openings (closing :: first) = openings first :=
  List.countP_cons_of_neg (by simp [closes])

theorem closings_closing {closing : Event} (closes : closing.opens = false) :
    closings (closing :: first) = closings first + 1 :=
  List.countP_cons_of_pos (by simp [closes])

end Counts

namespace Level

theorem nil : Level [] := ⟨rfl,fun before isPrefix => by rw [List.prefix_nil.mp isPrefix]; exact le_rfl⟩

theorem append {first second : List Event} (a : Level first) (b : Level second) :
    Level (first ++ second) where
  total := by simp [a.total,b.total]
  prefixes before isPrefix := by
    rcases List.prefix_or_prefix_of_prefix isPrefix (List.prefix_append first second) with
      inFirst | ⟨rest,rfl⟩
    · exact a.prefixes before inFirst
    · have := b.prefixes rest ((List.prefix_append_right_inj first).mp isPrefix)
      have := a.total
      simp only [openings_append,closings_append]
      omega

theorem symbol {within : List Event} {closing : Event} (inner : Level within)
    (closes : closing.opens = false) (entered : Symbol) (offset : Nat) :
    Level (.enter entered offset :: (within ++ [closing])) where
  total := by
    have := inner.total
    simp only [openings_enter,closings_enter,openings_append,closings_append,
      openings_closing _ closes,closings_closing _ closes]
    simp only [openings,closings,List.countP_nil] at *
    omega
  prefixes before isPrefix := by
    rcases List.prefix_cons_iff.mp isPrefix with rfl | ⟨rest,rfl,inside⟩
    · exact le_rfl
    · have total := inner.total
      rw [openings_enter,closings_enter]
      rcases List.prefix_concat_iff.mp inside with rfl | inWithin
      · simp only [openings_append,closings_append,openings_closing _ closes,
          closings_closing _ closes]
        simp only [openings,closings,List.countP_nil] at *
        omega
      · exact (inner.prefixes rest inWithin).trans (Nat.le_succ _)

end Level

/-- A symbol is closed where, for the first time, more is closed than was entered after it. -/
theorem Scope.unique {after within within' : List Event} {closing closing' : Event}
    (h : Scope after within closing) (h' : Scope after within' closing') :
    within = within' ∧ closing = closing' := by
  have apart {a b : List Event} {x y : Event} (isLevel : Level a) (closes : x.opens = false)
      (other : Level b) (isPrefix : a ++ [x] <+: b ++ [y]) : a ++ [x] = b ++ [y] := by
    refine (List.prefix_concat_iff.mp isPrefix).resolve_right fun inside => ?_
    have few := other.prefixes _ inside
    have total := isLevel.total
    rw [openings_append,closings_append,openings_closing _ closes,closings_closing _ closes] at few
    simp only [openings,closings,List.countP_nil] at *
    omega
  have same : within ++ [closing] = within' ++ [closing'] := by
    rcases List.prefix_or_prefix_of_prefix h.follows h'.follows with le | ge
    · exact apart h.level h.closes h'.level le
    · exact (apart h'.level h'.closes h.level ge).symm
  simpa using List.append_inj' same rfl

/-- Events that nest, of which no offset lies before `low`. -/
inductive Nested : Nat → List Event → Prop where
  | nil : Nested low []
  | symbol : low ≤ offset → Nested offset within → Closes symbol offset closing → Nested low rest →
      Nested low (.enter symbol offset :: (within ++ closing :: rest))

theorem Closes.opens_eq {symbol : Symbol} {offset : Nat} {closing : Event}
    (h : Closes symbol offset closing) : closing.opens = false := by
  cases h <;> rfl

theorem Closes.le_offset {symbol : Symbol} {offset n : Nat} {closing : Event}
    (h : Closes symbol offset closing) (isOffset : closing.offset? = some n) : offset ≤ n := by
  cases h with
  | leave le => exact le.trans (Option.some.inj isOffset).le
  | fail => cases isOffset

namespace Nested

variable {low : Nat} {events more before after : List Event}

theorem mono {lower : Nat} (h : Nested low events) (le : lower ≤ low) : Nested lower events := by
  induction h generalizing lower with
  | nil => exact .nil
  | symbol from_ within closes _ _ ihRest => exact .symbol (le.trans from_) within closes (ihRest le)

theorem append (h : Nested low events) (next : Nested low more) : Nested low (events ++ more) := by
  induction h with
  | nil => exact next
  | symbol from_ within closes _ _ ihRest =>
    simpa using .symbol from_ within closes (ihRest next)

theorem level (h : Nested low events) : Level events := by
  induction h with
  | nil => exact .nil
  | @symbol low offset within symbol closing rest _ _ closes _ ihWithin ihRest =>
    have split : .enter symbol offset :: (within ++ closing :: rest) =
        .enter symbol offset :: (within ++ [closing]) ++ rest := by simp
    rw [split]
    exact (ihWithin.symbol closes.opens_eq symbol offset).append ihRest

theorem le_offset (h : Nested low events) : ∀ event ∈ events, ∀ n, event.offset? = some n →
    low ≤ n := by
  induction h with
  | nil => simp
  | @symbol low offset within symbol closing rest from_ _ closes _ ihWithin ihRest =>
    intro event member n isOffset
    simp only [List.mem_cons,List.mem_append] at member
    rcases member with rfl | inWithin | rfl | inRest
    · exact from_.trans (Option.some.inj isOffset).le
    · exact from_.trans (ihWithin event inWithin n isOffset)
    · exact from_.trans (closes.le_offset isOffset)
    · exact ihRest event inRest n isOffset

theorem scope {symbol : Symbol} {offset : Nat} (h : Nested low events)
    (split : events = before ++ .enter symbol offset :: after) :
    ∃ within closing, Scope after within closing ∧ Closes symbol offset closing ∧
      Nested offset within := by
  induction h generalizing before after with
  | nil => simp at split
  | @symbol low first within entered closing rest _ inner closes _ ihWithin ihRest =>
    cases before with
    | nil =>
      obtain ⟨⟨rfl,rfl⟩,rfl⟩ : (entered = symbol ∧ first = offset) ∧
          within ++ closing :: rest = after := by simpa using split
      exact ⟨within,closing,⟨inner.level,closes.opens_eq,⟨rest,by simp⟩⟩,closes,inner⟩
    | cons _ before =>
      rcases List.append_eq_append_iff.mp (List.cons.inj split).2 with ⟨middle,isBefore,tail⟩ | ⟨middle,isWithin,tail⟩
      · cases middle with
        | nil =>
          obtain ⟨rfl,-⟩ := List.cons.inj tail
          cases closes
        | cons _ middle => exact ihRest (List.cons.inj tail).2
      · cases middle with
        | nil =>
          obtain ⟨rfl,-⟩ := List.cons.inj tail
          cases closes
        | cons _ middle =>
          obtain ⟨rfl,rfl⟩ := List.cons.inj tail
          obtain ⟨inside,last,scope,fits,nested⟩ := ihWithin isWithin
          exact ⟨inside,last,⟨scope.level,scope.closes,
            scope.follows.trans (List.prefix_append ..)⟩,fits,nested⟩

theorem opened {closing : Event} (h : Nested low events) (split : events = before ++ closing :: after)
    (closes : closing.opens = false) : ∃ outer symbol offset within,
      before = outer ++ .enter symbol offset :: within ∧ Level within := by
  induction h generalizing before after with
  | nil => simp at split
  | @symbol low offset within symbol last rest _ inner fits _ ihWithin ihRest =>
    cases before with
    | nil =>
      obtain ⟨rfl,-⟩ := List.cons.inj split
      cases closes
    | cons first before =>
      obtain ⟨rfl,same⟩ := List.cons.inj split
      rcases List.append_eq_append_iff.mp same with ⟨middle,rfl,tail⟩ | ⟨middle,rfl,tail⟩
      · cases middle with
        | nil => exact ⟨[],symbol,offset,within,by simp,inner.level⟩
        | cons _ middle =>
          obtain ⟨rfl,isRest⟩ := List.cons.inj tail
          obtain ⟨outer,other,start,inside,rfl,isLevel⟩ := ihRest isRest
          exact ⟨.enter symbol offset :: (within ++ last :: outer),other,start,inside,by simp,isLevel⟩
      · cases middle with
        | nil => exact ⟨[],symbol,offset,before,by simp,by simpa using inner.level⟩
        | cons _ middle =>
          obtain ⟨rfl,-⟩ := List.cons.inj tail
          obtain ⟨outer,other,start,inside,rfl,isLevel⟩ := ihWithin rfl
          exact ⟨.enter symbol offset :: outer,other,start,inside,by simp,isLevel⟩

theorem protocol {boundary : Nat → Prop} (h : Nested low events)
    (boundaries : ∀ event ∈ events, ∀ n, event.offset? = some n → boundary n) :
    Protocol boundary events where
  level := h.level
  closed before symbol offset after split := by
    obtain ⟨within,closing,scope,-⟩ := h.scope split
    refine ⟨(within,closing),scope,fun other isScope => ?_⟩
    obtain ⟨sameWithin,sameClosing⟩ := isScope.unique scope
    exact Prod.ext sameWithin sameClosing
  pairs before symbol offset after within closing split isScope := by
    obtain ⟨within',closing',scope,fits,nested⟩ := h.scope split
    obtain ⟨rfl,rfl⟩ := isScope.unique scope
    refine ⟨fits,fun event member n isOffset => ?_⟩
    rcases List.mem_append.mp member with inWithin | last
    · exact nested.le_offset event inWithin n isOffset
    · obtain rfl := List.mem_singleton.mp last
      exact fits.le_offset isOffset
  opened _ _ _ split := h.opened split
  boundaries := boundaries

theorem balanced (h : Nested low events) : ∃ entries, Balanced events entries := by
  induction h with
  | nil => exact ⟨[],.nil⟩
  | @symbol low offset within symbol closing rest _ _ closes _ ihWithin ihRest =>
    obtain ⟨entries,isWithin⟩ := ihWithin
    obtain ⟨later,isRest⟩ := ihRest
    have split : .enter symbol offset :: (within ++ closing :: rest) =
        .enter symbol offset :: within ++ [closing] ++ rest := by simp
    rw [split]
    cases closes with
    | leave => exact ⟨_,.append (.left isWithin) isRest⟩
    | fail => exact ⟨_,.append (.failed isWithin) isRest⟩

end Nested

end Event

/-- An outcome that stops at or after the cursor `c`, and of which the events nest and speak of places
that tokens from `c` on lead to. -/
structure Outcome.Orderly (o : Outcome) (c : Cursor) : Prop where
  reaches : c.Reaches o.cursor
  nested : Event.Nested c.offset o.events
  boundaries : ∀ event ∈ o.events, ∀ n, event.offset? = some n → ∃ d, c.Reaches d ∧ d.offset = n

namespace Outcome.Orderly

variable {o p : Outcome} {c : Cursor}

/-- Whether an outcome counts as a match makes no difference, nor does a return to the start. -/
theorem restart (h : o.Orderly c) (matched : Bool) :
    Outcome.Orderly { o with matched, cursor := c } c := ⟨.refl c,h.nested,h.boundaries⟩

theorem followedBy (h : o.Orderly c) (next : p.Orderly o.cursor) : (o.followedBy p).Orderly c where
  reaches := h.reaches.trans next.reaches
  nested := h.nested.append (next.nested.mono h.reaches.offset_le)
  boundaries event member n isOffset := by
    rcases List.mem_append.mp member with first | second
    · exact h.boundaries event first n isOffset
    · obtain ⟨d,reaches,offset⟩ := next.boundaries event second n isOffset
      exact ⟨d,h.reaches.trans reaches,offset⟩

theorem silent (c : Cursor) (matched : Bool) (misses : List Miss) :
    Outcome.Orderly ⟨matched,c,[],misses⟩ c := ⟨.refl c,.nil,by simp⟩

/-- Events round those of an orderly outcome that enter a symbol where it starts and close it. -/
theorem enclose {closing : Event} {d : Cursor} (h : o.Orderly c) (symbol : Symbol) (matched : Bool)
    (reaches : c.Reaches d) (closes : Event.Closes symbol c.offset closing)
    (isPlace : ∀ n, closing.offset? = some n → ∃ f, c.Reaches f ∧ f.offset = n) :
    Outcome.Orderly ⟨matched,d,.enter symbol c.offset :: o.events ++ [closing],o.misses⟩ c where
  reaches := reaches
  nested := .symbol le_rfl h.nested closes .nil
  boundaries event member n isOffset := by
    simp only [List.cons_append,List.mem_cons,List.mem_append,List.not_mem_nil,or_false] at member
    rcases member with rfl | inside | rfl
    · exact ⟨c,.refl c,Option.some.inj isOffset⟩
    · exact h.boundaries event inside n isOffset
    · exact isPlace n isOffset

theorem rule (h : o.Orderly c) (r : NonTerminal) : (Recognizer.rule r (fun _ => o) c).Orderly c := by
  simp only [Recognizer.rule]
  split
  · exact h.enclose _ _ h.reaches (.leave h.reaches.offset_le)
      fun n isOffset => ⟨o.cursor,h.reaches,Option.some.inj isOffset⟩
  · exact h.enclose _ _ (.refl c) .fail (by simp [Event.offset?])

theorem take (tag : Terminal) (n : Nat) (c : Cursor) : (Recognizer.take tag n c).Orderly c := by
  unfold Recognizer.take
  split
  · exact .silent ..
  · have reaches := c.reaches_advance n
    exact (silent c true []).enclose _ _ reaches (.leave reaches.offset_le)
      fun m isOffset => ⟨c.advance n,reaches,Option.some.inj isOffset⟩

theorem token (kind tag : Terminal) (c : Cursor) : (Recognizer.token kind tag c).Orderly c := by
  unfold Recognizer.token
  split
  · exact take ..
  · exact (silent c false [⟨c.offset,.terminal kind⟩]).enclose _ _ (.refl c) .fail
      (by simp [Event.offset?])

end Outcome.Orderly

namespace Grammar

theorem Runs.orderly {e : Expr} {c : Cursor} {o : Outcome} (h : Runs e c o) : o.Orderly c := by
  induction h with
  | done | reject => exact .silent ..
  | token => exact .token ..
  | trivia =>
    unfold Recognizer.trivia
    split
    · exact .token ..
    · exact .silent ..
  | escape =>
    unfold Recognizer.escape
    split
    · exact .take ..
    · exact .silent ..
  | run =>
    unfold Recognizer.run
    split
    · exact .silent ..
    · exact .take ..
  | call _ ih => exact ih.rule _
  | andThen _ _ _ ihFirst ihSecond | orElseSecond _ _ _ ihFirst ihSecond
  | manyMore _ _ _ _ ihFirst ihSecond => exact ihFirst.followedBy ihSecond
  | andThenFails _ _ ih | orElse _ _ ih | manyStays _ _ _ ih | nextYes _ _ ih | nextNo _ _ ih =>
    exact ih
  | optional _ ih => exact ⟨ih.reaches,ih.nested,ih.boundaries⟩
  | attempt _ ih =>
    simp only [Recognizer.attempt]
    split
    · exact ih
    · exact ih.restart _
  | manyEnds _ _ ih => exact ih.restart _

end Grammar

/-- Byte offsets between two tokens of a text, or at an end of it. -/
def TokenBoundary (source : Text) (n : Nat) : Prop :=
  ∃ k, n = Token.span ((tokenize source).take k)

/-- The trace of a parse keeps to the protocol, so that a table can be built from it without a fault
and with nothing left open. -/
theorem parse_protocol (source : Text) (start : StartRule) :
    Event.Protocol (TokenBoundary source) (parse source start).events ∧
    ∀ text, ∃ b, (SpanTable.Builder.start text).run (parse source start).events = (b,[]) ∧
      b.depth = 0 ∧ b.close = none := by
  have orderly := (start.runs_expr ⟨0,tokenize source⟩).orderly
  refine ⟨orderly.nested.protocol fun event member n isOffset => ?_,fun text => ?_⟩
  · obtain ⟨d,⟨k,rfl⟩,offset⟩ := orderly.boundaries event member n isOffset
    exact ⟨k,by simpa [Cursor.advance] using offset.symm⟩
  · obtain ⟨entries,isBalanced⟩ := orderly.nested.balanced
    have pending := SpanTable.Builder.pending_registerAll (.start text) entries
    refine ⟨_,SpanTable.Builder.run_balanced isBalanced _,?_,?_⟩
    · rw [SpanTable.Builder.depth,pending]
      rfl
    · simp only [SpanTable.Builder.close,pending]
      rfl

end CorpusQuery
