import Mathlib.Logic.Relation
import CorpusQuery.Proofs.Counts

/-! Programs over the basic recognizers. Whatever the bodies of rules and attempts do, each byte before the
cursor is in a terminal that was matched, and a group that fails gives back all that its body has read. A body
goes back before its own beginning only by a count that overflows. -/
namespace CorpusQuery

namespace Event

def Covers (events : List Event) (n : Nat) : Prop :=
  ∃ t span, (.terminal t,span) ∈ matched [] events ∧ span.start ≤ n ∧ n < span.stop

namespace Covers

variable {events more : List Event} {n : Nat}

theorem append (h : Covers events n) (more : List Event) : Covers (events ++ more) n := by
  obtain ⟨t,span,member,within⟩ := h
  obtain ⟨still,split⟩ := matched_append [] events more
  exact ⟨t,span,split ▸ List.mem_append_left _ member,within⟩

/-- What is open before events that nest makes no difference to what they match. -/
theorem behind (h : Covers events n) (nested : ∃ entries, Balanced events entries)
    (before : List Event) : Covers (before ++ events) n := by
  obtain ⟨t,span,member,within⟩ := h
  obtain ⟨entries,balanced⟩ := nested
  have same (outer : List (Symbol × Nat)) : matched outer events = entries := by
    simpa [matched] using balanced.matched outer []
  obtain ⟨still,split⟩ := matched_append [] before events
  refine ⟨t,span,split ▸ List.mem_append_right _ ?_,within⟩
  rw [same] at member ⊢
  exact member

end Covers

end Event

/-- What an outcome shows from the cursor `c` on: it stops at a token, its events nest and speak of places
between tokens, and each byte from `c` to where it stops is in a terminal. -/
structure Outcome.Accounted (tokens : List Token) (o : Outcome) (c : Cursor) : Prop where
  on : o.cursor.On tokens
  balanced : ∃ entries, Balanced o.events entries
  boundaries : ∀ event ∈ o.events, ∀ n, event.offset? = some n → ∃ d : Cursor, d.On tokens ∧ d.offset = n
  covers : ∀ n, c.offset ≤ n → n < o.cursor.offset → Event.Covers o.events n

namespace Outcome.Accounted

variable {tokens : List Token} {o p : Outcome} {c : Cursor}

theorem of_stays (orderly : o.Orderly c) (on : c.On tokens) (stays : o.cursor = c) :
    o.Accounted tokens c where
  on := stays ▸ on
  balanced := orderly.nested.balanced
  boundaries event member n isOffset := by
    obtain ⟨d,onward,place⟩ := orderly.boundaries event member n isOffset
    exact ⟨d,on.trans onward,place⟩
  covers n from_ before := by
    rw [stays] at before
    omega

theorem followedBy (h : o.Accounted tokens c) (next : p.Accounted tokens o.cursor) :
    (o.followedBy p).Accounted tokens c where
  on := next.on
  balanced := by
    obtain ⟨_,first⟩ := h.balanced
    obtain ⟨_,second⟩ := next.balanced
    exact ⟨_,.append first second⟩
  boundaries event member := by
    rcases List.mem_append.mp member with first | second
    · exact h.boundaries event first
    · exact next.boundaries event second
  covers n from_ before := by
    by_cases first : n < o.cursor.offset
    · exact (h.covers n from_ first).append p.events
    · exact (next.covers n (Nat.le_of_not_lt first) before).behind next.balanced o.events

theorem rule (h : o.Accounted tokens c) (on : c.On tokens) (r : NonTerminal) :
    (Recognizer.rule r (fun _ => o) c).Accounted tokens c := by
  have enclosed {closing : Event}
      (ends : ∀ n, closing.offset? = some n → ∃ d : Cursor, d.On tokens ∧ d.offset = n) :
      ∀ event ∈ .enter (.nonTerminal r) c.offset :: o.events ++ [closing], ∀ n,
        event.offset? = some n → ∃ d : Cursor, d.On tokens ∧ d.offset = n := by
    intro event member n isOffset
    simp only [List.cons_append,List.mem_cons,List.mem_append,List.not_mem_nil,or_false] at member
    rcases member with rfl | inside | rfl
    · exact ⟨c,on,Option.some.inj isOffset⟩
    · exact h.boundaries event inside n isOffset
    · exact ends n isOffset
  obtain ⟨_,nested⟩ := h.balanced
  simp only [Recognizer.rule]
  split
  · exact {
      on := h.on
      balanced := ⟨_,.left nested⟩
      boundaries := enclosed fun n isOffset => ⟨o.cursor,h.on,Option.some.inj isOffset⟩
      covers n from_ before := ((h.covers n from_ before).behind h.balanced [_]).append _ }
  · exact {
      on := on
      balanced := ⟨_,.failed nested⟩
      boundaries := enclosed (by simp [Event.offset?])
      covers n from_ before := absurd from_ (Nat.not_le_of_lt before) }

theorem attempt (h : o.Accounted tokens c) (on : c.On tokens) :
    (Recognizer.attempt (fun _ => o) c).Accounted tokens c := by
  simp only [Recognizer.attempt]
  split
  · exact h
  · exact ⟨on,h.balanced,h.boundaries,fun n from_ before => absurd from_ (Nat.not_le_of_lt before)⟩

theorem terminal {d : Cursor} (onC : c.On tokens) (onD : d.On tokens) (tag : Terminal)
    (misses : List Miss) : Outcome.Accounted tokens
      ⟨true,d,[.enter (.terminal tag) c.offset,.leave d.offset],misses⟩ c where
  on := onD
  balanced := ⟨_,.left .nil⟩
  boundaries event member n isOffset := by
    rcases List.mem_pair.mp member with rfl | rfl
    · exact ⟨c,onC,Option.some.inj isOffset⟩
    · exact ⟨d,onD,Option.some.inj isOffset⟩
  covers m from_ before := ⟨tag,_,List.mem_singleton_self _,from_,before⟩

theorem bump (on : c.On tokens) (tag : Terminal) (n : UInt64) :
    (Recognizer.bump tokens tag n c).Accounted tokens c := by
  unfold Recognizer.bump
  split
  · exact of_stays (.silent ..) on rfl
  · exact terminal on (Cursor.on_nth _) tag []

theorem token (on : c.On tokens) (kind tag : Terminal) :
    (Recognizer.token kind tag c).Accounted tokens c := by
  have orderly := Orderly.token kind tag c
  unfold Recognizer.token at orderly ⊢
  split at orderly
  next at_ =>
    rw [if_pos at_,Recognizer.take_eq tag Nat.one_ne_zero (Cursor.one_le_of_isAt at_)]
    exact terminal on (on.trans (c.reaches_advance 1)) tag []
  next notAt =>
    rw [if_neg notAt]
    exact of_stays orderly on rfl

end Outcome.Accounted

namespace Script

/-- A program over the basic recognizers. What it does next may depend on what came of the steps before, and
on the tokens that lie ahead. -/
inductive Program where
  | stop (matched : Bool)
  | act (action : Action) (next : Bool → Program)
  | look (next : Cursor → Program)
  /-- A body under the name of a rule, or without a name as an attempt. -/
  | group (name : Option NonTerminal) (body : Program) (next : Bool → Program)

/-- Runs a body as a rule, or as an attempt when there is no name. -/
def enclose : Option NonTerminal → Recognizer → Recognizer
  | some r => Recognizer.rule r
  | none => Recognizer.attempt

def Program.run (tokens : List Token) : Program → Recognizer
  | .stop matched,c => ⟨matched,c,[],[]⟩
  | .act action next,c =>
    let o := action.recognizer tokens c
    o.followedBy ((next o.matched).run tokens o.cursor)
  | .look next,c => (next c).run tokens c
  | .group name body next,c =>
    let o := enclose name (body.run tokens) c
    o.followedBy ((next o.matched).run tokens o.cursor)

/-! ### Moments of a run -/

/-- A moment of a run: what is still to run of the innermost body, the cursor, and the events so far. -/
structure Moment where
  rest : Program
  cursor : Cursor
  events : List Event

def entering : Option NonTerminal → Cursor → List Event
  | some r,c => [.enter (.nonTerminal r) c.offset]
  | none,_ => []

def Moment.after (events : List Event) (o : Outcome) (next : Bool → Program) : Moment where
  rest := next o.matched
  cursor := o.cursor
  events := events ++ o.events

/-- One step from a moment to another. From a group there is one into its body and one behind it. -/
inductive Moment.Next (tokens : List Token) : Moment → Moment → Prop where
  | act : Next tokens ⟨.act action next,c,past⟩ (.after past (action.recognizer tokens c) next)
  | look : Next tokens ⟨.look next,c,past⟩ ⟨next c,c,past⟩
  | enter : Next tokens ⟨.group name body next,c,past⟩ ⟨body,c,past ++ entering name c⟩
  | leave : Next tokens ⟨.group name body next,c,past⟩
      (.after past (enclose name (body.run tokens) c) next)

/-- The moments that come of a moment, in bodies of groups too. -/
abbrev Moment.Leads (tokens : List Token) : Moment → Moment → Prop :=
  Relation.ReflTransGen (Next tokens)

variable {tokens : List Token}

theorem Action.accounted (action : Action) {c : Cursor} (on : c.On tokens) :
    (action.recognizer tokens c).Accounted tokens c := by
  cases action with
  | token kind tag => exact .token on kind tag
  | take tag n => exact .bump on tag n
  | trivia =>
    simp only [recognizer,Recognizer.trivia]
    split
    · exact .token on ..
    · exact .of_stays (.silent ..) on rfl
  | miss kinds => exact .of_stays (.silent ..) on rfl
  | test kind =>
    simp only [recognizer]
    split <;> exact .of_stays (.silent ..) on rfl
  | fail => exact .of_stays (.silent ..) on rfl

theorem accounted_enclose {p : Recognizer} {c : Cursor} (h : (p c).Accounted tokens c)
    (on : c.On tokens) (name : Option NonTerminal) : (enclose name p c).Accounted tokens c := by
  cases name with
  | none => exact h.attempt on
  | some r => exact h.rule on r

theorem Program.accounted (p : Program) {c : Cursor} (on : c.On tokens) :
    (p.run tokens c).Accounted tokens c := by
  induction p generalizing c with
  | stop => exact .of_stays (.silent ..) on rfl
  | act action next ih =>
    have first := action.accounted on
    exact first.followedBy (ih _ first.on)
  | look next ih => exact ih c on
  | group name body next ihBody ihNext =>
    have first := accounted_enclose (ihBody on) on name
    exact first.followedBy (ihNext _ first.on)

theorem cursor_enclose (name : Option NonTerminal) (p : Recognizer) (c : Cursor) :
    (enclose name p c).cursor = (p c).cursor ∨ (enclose name p c).cursor = c := by
  cases name <;> simp only [enclose,Recognizer.attempt,Recognizer.rule] <;> split <;> simp

theorem entering_enclose (name : Option NonTerminal) (p : Recognizer) (c : Cursor) :
    entering name c ++ (p c).events <+: (enclose name p c).events := by
  cases name with
  | none =>
    simp only [entering,enclose,Recognizer.attempt]
    split <;> exact List.prefix_rfl
  | some r =>
    simp only [entering,enclose,Recognizer.rule]
    split <;> exact List.prefix_append ..

namespace Moment

variable {m m' : Moment}

theorem Next.on (h : m.Next tokens m') (on : m.cursor.On tokens) : m'.cursor.On tokens := by
  cases h with
  | act => exact (Action.accounted _ on).on
  | look | enter => exact on
  | leave => exact (accounted_enclose (Program.accounted _ on) on _).on

theorem Leads.on (h : m.Leads tokens m') (on : m.cursor.On tokens) : m'.cursor.On tokens := by
  induction h with
  | refl => exact on
  | tail _ step ih => exact step.on ih

/-- If the bytes before the cursor are covered, they are after what an outcome reports. -/
theorem covers_after {c : Cursor} {events : List Event} {o : Outcome} (h : o.Accounted tokens c)
    (covered : ∀ n < c.offset, Event.Covers events n) :
    ∀ n < o.cursor.offset, Event.Covers (events ++ o.events) n := by
  intro n before
  by_cases earlier : n < c.offset
  · exact (covered n earlier).append o.events
  · exact (h.covers n (Nat.le_of_not_lt earlier) before).behind h.balanced events

theorem Next.covers (h : m.Next tokens m') (on : m.cursor.On tokens)
    (covered : ∀ n < m.cursor.offset, Event.Covers m.events n) :
    ∀ n < m'.cursor.offset, Event.Covers m'.events n := by
  cases h with
  | act => exact covers_after (Action.accounted _ on) covered
  | look => exact covered
  | enter => exact fun n before => (covered n before).append _
  | leave => exact covers_after (accounted_enclose (Program.accounted _ on) on _) covered

theorem Leads.covers (h : m.Leads tokens m') (on : m.cursor.On tokens)
    (covered : ∀ n < m.cursor.offset, Event.Covers m.events n) :
    ∀ n < m'.cursor.offset, Event.Covers m'.events n := by
  induction h with
  | refl => exact covered
  | tail before step ih => exact step.covers (Leads.on before on) ih

/-- All events that are reported in the end, if nothing but what is still to run reports more. -/
def trace (tokens : List Token) (m : Moment) : List Event := m.events ++ (m.rest.run tokens m.cursor).events

theorem Next.trace (h : m.Next tokens m') : m'.trace tokens <+: m.trace tokens := by
  cases h with
  | act | leave => exact (congrArg (· <+: _) (List.append_assoc ..)).mpr List.prefix_rfl
  | look => exact List.prefix_rfl
  | enter =>
    rw [Moment.trace,Moment.trace,List.append_assoc,List.prefix_append_right_inj]
    exact (entering_enclose _ _ _).trans (List.prefix_append ..)

theorem Leads.trace (h : m.Leads tokens m') : m'.trace tokens <+: m.trace tokens := by
  induction h with
  | refl => exact List.prefix_rfl
  | tail _ step ih => exact step.trace.trans ih

end Moment

/-- At this moment no count that overflows leads back to before `base`. -/
def Moment.Steady (tokens : List Token) (base : Cursor) (m : Moment) : Prop :=
  ∀ tag count next, m.rest = .act (.take tag count) next → count ≠ 0 →
    m.cursor.Overflows tokens count → base.index tokens ≤ m.cursor.ahead tokens count

theorem Action.reaches {base c : Cursor} (action : Action) (on : c.On tokens) (baseOn : base.On tokens)
    (from_ : base.Reaches c) {next : Bool → Program} {past : List Event}
    (steady : Moment.Steady tokens base ⟨.act action next,c,past⟩) :
    base.Reaches (action.recognizer tokens c).cursor := by
  cases action with
  | token kind tag => exact from_.trans (Outcome.Orderly.token ..).reaches
  | take tag count => exact Recognizer.reaches_bump on baseOn from_ (steady tag count next rfl)
  | trivia =>
    simp only [recognizer,Recognizer.trivia]
    split
    · exact from_.trans (Outcome.Orderly.token ..).reaches
    · exact from_
  | miss | fail => exact from_
  | test kind =>
    simp only [recognizer]
    split <;> exact from_

theorem Program.reaches {base c : Cursor} (p : Program) {past : List Event} (on : c.On tokens)
    (baseOn : base.On tokens) (from_ : base.Reaches c)
    (steady : ∀ m, Moment.Leads tokens ⟨p,c,past⟩ m → m.Steady tokens base) :
    base.Reaches (p.run tokens c).cursor := by
  induction p generalizing c past with
  | stop => exact from_
  | act action next ih =>
    exact ih _ (action.accounted on).on (action.reaches on baseOn from_ (steady _ .refl))
      fun m leads => steady m (.head .act leads)
  | look next ih => exact ih c on from_ fun m leads => steady m (.head .look leads)
  | group name body next ihBody ihNext =>
    have inner := ihBody on from_ fun m leads => steady m (.head .enter leads)
    have enclosed : base.Reaches (enclose name (body.run tokens) c).cursor := by
      rcases cursor_enclose name (body.run tokens) c with same | same <;> rwa [same]
    exact ihNext _ (accounted_enclose (body.accounted on) on name).on enclosed
      fun m leads => steady m (.head .leave leads)

theorem Moment.Leads.reaches {base : Cursor} {m m' : Moment} (h : m.Leads tokens m')
    (on : m.cursor.On tokens) (baseOn : base.On tokens) (from_ : base.Reaches m.cursor)
    (steady : ∀ m', m.Leads tokens m' → m'.Steady tokens base) : base.Reaches m'.cursor := by
  induction h with
  | refl => exact from_
  | tail before step ih =>
    have onThen := Leads.on before on
    cases step with
    | act => exact Action.reaches _ onThen baseOn ih (steady _ before)
    | look | enter => exact ih
    | @leave name body next c past =>
      have inner := body.reaches onThen baseOn ih fun m leads =>
        steady m (Relation.ReflTransGen.trans before (.head .enter leads))
      rcases cursor_enclose name (body.run tokens) c with same | same <;> rwa [Moment.after,same]

def Program.start (p : Program) (source : Text) : Moment := ⟨p,⟨0,tokenize source⟩,[]⟩

/-- A moment in the body of a group that began at `base`. -/
def Program.Within (p : Program) (source : Text) (base : Cursor) (m : Moment) : Prop :=
  ∃ name body next events,
    Moment.Leads (tokenize source) (p.start source) ⟨.group name body next,base,events⟩ ∧
    Moment.Leads (tokenize source) ⟨body,base,events ++ entering name base⟩ m

end Script

end CorpusQuery
