import CorpusQuery.Proofs.Nesting

/-! Where the error of a failed parse is. A recognizer that has read more than it matched says what it
missed where it stopped, and nothing is missed behind what was read. So the farthest miss is where the
trace has come to. -/
namespace CorpusQuery

def Event.farthest : Nat → List Event → Nat
  | far,[] => far
  | far,.leave stop :: rest => farthest (max far stop) rest
  | far,.enter _ _ :: rest | far,.fail _ :: rest => farthest far rest

namespace Event

theorem farthest_append (far : Nat) (events more : List Event) :
    farthest far (events ++ more) = farthest (farthest far events) more := by
  fun_induction farthest far events with
  | case1 => rfl
  | case2 _ _ _ ih | case3 _ _ _ _ ih | case4 _ _ _ ih => exact ih

theorem farthest_max (near far : Nat) (events : List Event) :
    farthest (max near far) events = max near (farthest far events) := by
  fun_induction farthest far events with
  | case1 => rfl
  | case2 far stop rest ih =>
    rw [← ih,← Nat.max_assoc]
    rfl
  | case3 _ _ _ _ ih | case4 _ _ _ ih => exact ih

theorem le_farthest (far : Nat) (events : List Event) : far ≤ farthest far events := by
  have := farthest_max far far events
  rw [Nat.max_self] at this
  omega

end Event

/-! ### What one recognizer reports -/

namespace Outcome

def farthest (o : Outcome) (c : Cursor) : Nat := Event.farthest c.offset o.events

variable {o p : Outcome} {c : Cursor}

theorem le_farthest : c.offset ≤ o.farthest c := Event.le_farthest ..

/-- Nothing is behind the farthest offset that was reached. -/
structure Bounded (o : Outcome) (c : Cursor) : Prop where
  advances : c.offset ≤ o.cursor.offset
  within : o.cursor.offset ≤ o.farthest c
  misses : ∀ m ∈ o.misses, m.offset ≤ o.farthest c

/-- Something was missed at the farthest offset. -/
def MissesLast (o : Outcome) (c : Cursor) : Prop := ∃ m ∈ o.misses, m.offset = o.farthest c

/-- What was read is what was matched, or else something was missed where reading stopped. -/
def Tells (o : Outcome) (c : Cursor) : Prop :=
  (o.matched = true ∧ o.cursor.offset = o.farthest c) ∨ o.MissesLast c

/-- What was read is what was matched, or else nothing was read. -/
def Direct (o : Outcome) (c : Cursor) : Prop :=
  (o.matched = true ∧ o.cursor.offset = o.farthest c) ∨
    (o.matched = false ∧ o.cursor = c ∧ o.farthest c = c.offset)

theorem farthest_followedBy (h : o.Bounded c) :
    (o.followedBy p).farthest c = max (o.farthest c) (p.farthest o.cursor) := by
  have split : (o.followedBy p).farthest c = Event.farthest (o.farthest c) p.events :=
    Event.farthest_append ..
  have reached : max (o.farthest c) o.cursor.offset = o.farthest c := Nat.max_eq_left h.within
  rw [split,← reached,Event.farthest_max,reached]
  rfl

theorem Bounded.restart (h : o.Bounded c) (matched : Bool) :
    { o with matched, cursor := c }.Bounded c := ⟨Nat.le_refl _,le_farthest,h.misses⟩

theorem Bounded.followedBy (h : o.Bounded c) (h' : p.Bounded o.cursor) :
    (o.followedBy p).Bounded c := by
  have far := farthest_followedBy (p := p) h
  constructor
  · exact h.advances.trans h'.advances
  · rw [far]
    exact h'.within.trans (Nat.le_max_right ..)
  · intro m member
    rw [far]
    rcases List.mem_append.mp member with first | second
    · exact (h.misses m first).trans (Nat.le_max_left ..)
    · exact (h'.misses m second).trans (Nat.le_max_right ..)

/-- What goes on where reading stopped, or after a miss there, tells as much as what comes last. -/
theorem Tells.followedBy (h : o.Bounded c)
    (first : o.cursor.offset = o.farthest c ∨ o.MissesLast c) (second : p.Tells o.cursor) :
    (o.followedBy p).Tells c := by
  have far := farthest_followedBy (p := p) h
  have goesOn : o.cursor.offset ≤ p.farthest o.cursor := le_farthest
  by_cases farther : o.farthest c ≤ p.farthest o.cursor
  · rw [Nat.max_eq_right farther] at far
    rcases second with ⟨matched,stops⟩ | ⟨m,member,last⟩
    · exact .inl ⟨matched,stops.trans far.symm⟩
    · exact .inr ⟨m,List.mem_append_right _ member,last.trans far.symm⟩
  · rcases first with stops | ⟨m,member,last⟩
    · omega
    · rw [Nat.max_eq_left (by omega)] at far
      exact .inr ⟨m,List.mem_append_left _ member,last.trans far.symm⟩

theorem Direct.stops (h : o.Direct c) : o.cursor.offset = o.farthest c := by
  rcases h with ⟨-,stops⟩ | ⟨-,same,still⟩
  · exact stops
  · rw [same,still]

theorem Direct.followedBy (h : o.Bounded c) (fails : o.matched = false) (first : o.Direct c)
    (second : p.Direct o.cursor) : (o.followedBy p).Direct c := by
  obtain ⟨-,rfl,still⟩ := first.resolve_left fun h => by simp [fails] at h
  have far := farthest_followedBy (p := p) h
  rw [still,Nat.max_eq_right le_farthest] at far
  rcases second with ⟨matched,stops⟩ | ⟨fails,stays,same⟩
  · exact .inl ⟨matched,stops.trans far.symm⟩
  · exact .inr ⟨fails,stays,far.trans same⟩

end Outcome

namespace Grammar

namespace Expr

def direct : Expr → Bool
  | .escape | .run _ => true
  | .orElse first second => first.direct && second.direct
  | _ => false

def tells : Expr → Bool
  | .done | .token _ _ | .trivia | .call _ => true
  | .reject kinds => !kinds.isEmpty
  | .escape | .run _ => false
  | .andThen first second => first.tells && second.tells
  | .orElse first second => (first.tells || first.direct) && second.tells
  | .optional body | .attempt body => body.tells
  | .many body => body.tells || body.direct
  | .next _ yes no => yes.tells && no.tells

end Expr

theorem body_tells (r : NonTerminal) : (body r).tells = true := by cases r <;> rfl

/-- What an expression reports, by its form. -/
structure Reports (e : Expr) (c : Cursor) (o : Outcome) : Prop where
  bounded : o.Bounded c
  tells : e.tells = true → o.Tells c
  direct : e.direct = true → o.Direct c

namespace Reports

variable {e : Expr} {c : Cursor} {o : Outcome}

theorem of_match (advances : c.offset ≤ o.cursor.offset) (matched : o.matched = true)
    (stops : o.cursor.offset = o.farthest c) (noMiss : o.misses = []) : Reports e c o where
  bounded := ⟨advances,stops.le,by simp [noMiss]⟩
  tells _ := .inl ⟨matched,stops⟩
  direct _ := .inl ⟨matched,stops⟩

theorem of_reject (notTells : e.tells = false) : Reports e c (Recognizer.reject c) where
  bounded := ⟨Nat.le_refl _,Nat.le_refl _,by simp [Recognizer.reject]⟩
  tells h := by simp [notTells] at h
  direct _ := .inr ⟨rfl,rfl,rfl⟩

theorem take (tag : Terminal) (n : Nat) : Reports e c (Recognizer.take tag n c) := by
  have advances : c.offset ≤ (c.advance n).offset := by simp [Cursor.advance]
  unfold Recognizer.take
  split
  · exact of_match (Nat.le_refl _) rfl rfl rfl
  · exact of_match advances rfl (Nat.max_eq_right advances).symm rfl

theorem token (kind tag : Terminal) :
    Reports (.token kind tag) c (Recognizer.token kind tag c) := by
  unfold Recognizer.token
  split
  · exact take tag 1
  · refine ⟨⟨Nat.le_refl _,Nat.le_refl _,?_⟩,fun _ => .inr ?_,by simp [Expr.direct]⟩
    · intro m member
      rw [List.mem_singleton.mp member]
      exact Nat.le_refl _
    · exact ⟨_,List.mem_singleton.mpr rfl,rfl⟩

theorem reject (kinds : List Terminal) :
    Reports (.reject kinds) c ((Recognizer.miss kinds).andThen .reject c) := by
  have misses : ((Recognizer.miss kinds).andThen .reject c).misses =
      kinds.map fun kind => ⟨c.offset,.terminal kind⟩ := by
    simp [Recognizer.andThen,Recognizer.miss,Recognizer.reject,Outcome.followedBy]
  refine ⟨⟨Nat.le_refl _,Nat.le_refl _,fun m member => ?_⟩,fun tells => .inr ?_,by simp [Expr.direct]⟩
  · rw [misses] at member
    obtain ⟨kind,-,rfl⟩ := List.mem_map.mp member
    exact Nat.le_refl _
  · cases kinds with
    | nil => simp [Expr.tells] at tells
    | cons kind rest => exact ⟨⟨c.offset,.terminal kind⟩,by simp [misses],rfl⟩

theorem trivia : Reports .trivia c (Recognizer.trivia c) := by
  unfold Recognizer.trivia
  split
  next white =>
    unfold Recognizer.token
    rw [if_pos white]
    exact take _ 1
  next => exact of_match (Nat.le_refl _) rfl rfl rfl

theorem escape : Reports .escape c (Recognizer.escape c) := by
  unfold Recognizer.escape
  split
  · exact take _ _
  · exact of_reject rfl

theorem run (stop : Terminal) : Reports (.run stop) c (Recognizer.run stop c) := by
  unfold Recognizer.run
  split
  · exact of_reject rfl
  · exact take _ _

/-- Where an expression goes on, it has read nothing more, or has said what it missed. -/
theorem stops_or_misses (h : Reports e c o) (either : (e.tells || e.direct) = true) :
    o.cursor.offset = o.farthest c ∨ o.MissesLast c := by
  rcases Bool.or_eq_true_iff.mp either with tells | direct
  · exact (h.tells tells).imp_left And.right
  · exact .inl (h.direct direct).stops

theorem rule {r : NonTerminal} (h : Reports (body r) c o) :
    Reports (.call r) c (Recognizer.rule r (fun _ => o) c) := by
  have tells := h.tells (body_tells r)
  unfold Recognizer.rule
  simp only
  split
  next matched =>
    let whole : Outcome := { o with
      events := .enter (.nonTerminal r) c.offset :: o.events ++ [.leave o.cursor.offset] }
    have far : whole.farthest c = o.farthest c := by
      have step : whole.farthest c = max (o.farthest c) o.cursor.offset :=
        Event.farthest_append c.offset o.events [.leave o.cursor.offset]
      rw [step,Nat.max_eq_left h.bounded.within]
    refine ⟨⟨h.bounded.advances,?_,?_⟩,fun _ => ?_,by simp [Expr.direct]⟩
    · exact far.symm ▸ h.bounded.within
    · exact far.symm ▸ h.bounded.misses
    · rcases tells with ⟨-,stops⟩ | ⟨m,member,last⟩
      · exact .inl ⟨matched,stops.trans far.symm⟩
      · exact .inr ⟨m,member,last.trans far.symm⟩
  next fails =>
    let whole : Outcome := { o with
      cursor := c
      events := .enter (.nonTerminal r) c.offset :: o.events ++ [.fail (.nonTerminal r)] }
    have far : whole.farthest c = o.farthest c :=
      Event.farthest_append c.offset o.events [.fail (.nonTerminal r)]
    obtain ⟨m,member,last⟩ := tells.resolve_left fun h => fails h.1
    refine ⟨⟨Nat.le_refl _,Outcome.le_farthest,?_⟩,fun _ => ?_,by simp [Expr.direct]⟩
    · exact far.symm ▸ h.bounded.misses
    · exact .inr ⟨m,member,last.trans far.symm⟩

theorem attempt (h : Reports e c o) :
    Reports (.attempt e) c (Recognizer.attempt (fun _ => o) c) := by
  refine ⟨?_,fun tells => ?_,by simp [Expr.direct]⟩
  all_goals
    unfold Recognizer.attempt
    simp only
    split
  · exact h.bounded
  · exact h.bounded.restart _
  · exact h.tells tells
  next fails => exact .inr ((h.tells tells).resolve_left fun stops => fails stops.1)

end Reports

theorem Runs.reports {e : Expr} {c : Cursor} {o : Outcome} (h : Runs e c o) : Reports e c o := by
  induction h with
  | done => exact .of_match (Nat.le_refl _) rfl rfl rfl
  | reject => exact .reject _
  | token => exact .token _ _
  | trivia => exact .trivia
  | escape => exact .escape
  | run => exact .run _
  | call _ ih => exact .rule ih
  | @andThen a c o b p _ matched _ ihFirst ihSecond =>
    refine ⟨ihFirst.bounded.followedBy ihSecond.bounded,fun tells => ?_,by simp [Expr.direct]⟩
    obtain ⟨first,second⟩ := Bool.and_eq_true_iff.mp tells
    have either : (a.tells || a.direct) = true := by simp [first]
    exact .followedBy ihFirst.bounded (ihFirst.stops_or_misses either) (ihSecond.tells second)
  | andThenFails _ fails ih =>
    refine ⟨ih.bounded,fun tells => ?_,by simp [Expr.direct]⟩
    exact ih.tells (Bool.and_eq_true_iff.mp tells).1
  | orElse _ matched ih =>
    refine ⟨ih.bounded,fun tells => ?_,fun direct => ih.direct (Bool.and_eq_true_iff.mp direct).1⟩
    apply (ih.stops_or_misses (Bool.and_eq_true_iff.mp tells).1).imp_left
    exact fun stops => ⟨matched,stops⟩
  | @orElseSecond a c o b p _ fails _ ihFirst ihSecond =>
    refine ⟨ihFirst.bounded.followedBy ihSecond.bounded,fun tells => ?_,fun direct => ?_⟩
    · obtain ⟨first,second⟩ := Bool.and_eq_true_iff.mp tells
      exact .followedBy ihFirst.bounded (ihFirst.stops_or_misses first) (ihSecond.tells second)
    · obtain ⟨first,second⟩ := Bool.and_eq_true_iff.mp direct
      exact .followedBy ihFirst.bounded fails (ihFirst.direct first) (ihSecond.direct second)
  | optional _ ih =>
    refine ⟨⟨ih.bounded.advances,ih.bounded.within,ih.bounded.misses⟩,fun tells => ?_,
      by simp [Expr.direct]⟩
    exact (ih.tells tells).imp_left fun stops => ⟨rfl,stops.2⟩
  | attempt _ ih => exact .attempt ih
  | manyMore _ matched _ _ ihFirst ihSecond =>
    refine ⟨ihFirst.bounded.followedBy ihSecond.bounded,fun tells => ?_,by simp [Expr.direct]⟩
    exact .followedBy ihFirst.bounded (ihFirst.stops_or_misses tells) (ihSecond.tells tells)
  | manyStays _ matched _ ih =>
    refine ⟨ih.bounded,fun tells => ?_,by simp [Expr.direct]⟩
    apply (ih.stops_or_misses tells).imp_left
    exact fun stops => ⟨matched,stops⟩
  | manyEnds _ fails ih =>
    refine ⟨ih.bounded.restart _,fun tells => ?_,by simp [Expr.direct]⟩
    obtain first | first := Bool.or_eq_true_iff.mp tells
    · exact .inr ((ih.tells first).resolve_left fun h => by simp [fails] at h)
    · obtain ⟨-,-,still⟩ := (ih.direct first).resolve_left fun h => by simp [fails] at h
      exact .inl ⟨rfl,still.symm⟩
  | nextYes _ _ ih =>
    refine ⟨ih.bounded,fun tells => ih.tells (Bool.and_eq_true_iff.mp tells).1,by simp [Expr.direct]⟩
  | nextNo _ _ ih =>
    refine ⟨ih.bounded,fun tells => ih.tells (Bool.and_eq_true_iff.mp tells).2,by simp [Expr.direct]⟩

end Grammar

/-! ### What a parse reports -/

/-- No miss is farther than the offset that comes out, and one is there. -/
theorem SyntaxError.foldl_farther_le_iff (far : Nat × List Expected) (misses : List Miss) (n : Nat) :
    (misses.foldl farther far).1 ≤ n ↔ far.1 ≤ n ∧ ∀ m ∈ misses, m.offset ≤ n := by
  induction misses generalizing far with
  | nil => simp
  | cons m rest ih =>
    have next : (farther far m).1 = max far.1 m.offset := by
      unfold farther
      split
      next less => exact (Nat.max_eq_right (Nat.le_of_lt less)).symm
      next => split <;> exact (Nat.max_eq_left (by omega)).symm
    rw [List.foldl_cons,ih,next,List.forall_mem_cons,Nat.max_le,and_assoc]

theorem Outcome.Tells.offset_ofMisses {o : Outcome} {c : Cursor} (tells : o.Tells c)
    (bounded : o.Bounded c) (source : Text) : (SyntaxError.ofMisses source (if o.matched then
      o.misses ++ [⟨o.cursor.offset,.endOfInput⟩] else o.misses)).offset = o.farthest c := by
  have offset_le (n : Nat) := SyntaxError.foldl_farther_le_iff (0,[]) (if o.matched then
    o.misses ++ [⟨o.cursor.offset,.endOfInput⟩] else o.misses) n
  apply Nat.le_antisymm
  · refine (offset_le _).mpr ⟨Nat.zero_le _,fun m member => ?_⟩
    split at member
    · rcases List.mem_append.mp member with missed | ends
      · exact bounded.misses m missed
      · rw [List.mem_singleton.mp ends]
        exact bounded.within
    · exact bounded.misses m member
  · have all := ((offset_le _).mp (Nat.le_refl _)).2
    rcases tells with ⟨matched,stops⟩ | ⟨m,member,last⟩
    · have ends := all ⟨o.cursor.offset,.endOfInput⟩ (by simp [matched])
      exact stops.ge.trans ends
    · refine last.ge.trans (all m ?_)
      split
      · exact List.mem_append_left _ member
      · exact member

theorem StartRule.tells_expr (start : StartRule) : start.expr.tells = true := by cases start <;> rfl

theorem offset_of_error {full : Text} {start : StartRule} {e : SyntaxError}
    (fails : (parse full start).error = some e) :
    e.offset = Event.farthest 0 (parse full start).events := by
  have reports := (start.runs_expr ⟨0,tokenize full⟩).reports
  simp only [parse,Option.ite_none_left_eq_some,Option.some.injEq] at fails
  obtain ⟨-,rfl⟩ := fails
  exact (reports.tells start.tells_expr).offset_ofMisses reports.bounded full

theorem Balanced.farthest_le_iff {events : List Event} {entries : List Entry}
    (h : Balanced events entries) (far n : Nat) :
    Event.farthest far events ≤ n ↔ far ≤ n ∧ ∀ x ∈ entries, x.2.stop ≤ n := by
  induction h generalizing far with
  | nil => simp [Event.farthest]
  | @left within entries symbol offset stop _ ih =>
    change Event.farthest far (within ++ [.leave stop]) ≤ n ↔ _
    rw [Event.farthest_append]
    change max (Event.farthest far within) stop ≤ n ↔ _
    rw [Nat.max_le,ih]
    simp [or_imp,forall_and,and_assoc]
  | @failed within entries symbol offset _ ih =>
    change Event.farthest far (within ++ [.fail symbol]) ≤ n ↔ _
    rw [Event.farthest_append]
    exact ih far
  | append _ _ ihFirst ihSecond =>
    rw [Event.farthest_append,ihSecond,ihFirst]
    simp [or_imp,forall_and,and_assoc]

theorem Reading.farthest_eq {full : Text} {start : StartRule} (x : Reading full start) :
    Event.farthest 0 (parse full start).events = x.ending.reach.offset := by
  have le_iff (n : Nat) : Event.farthest 0 (parse full start).events ≤ n ↔
      x.ending.reach.offset ≤ n := by
    rw [x.balanced.farthest_le_iff]
    simp only [Nat.zero_le,true_and,x.agrees.mem_iff]
    constructor
    · intro all
      apply (x.tiles.stop_le_iff (Cursor.in_tokenize full) n (Nat.zero_le n)).mp
      intro y member
      exact all _ (Entry.mem_terminals.mp member)
    · intro reach y member
      exact (x.trail.bounds y member).2.2.trans reach
  exact Nat.le_antisymm ((le_iff _).mpr (Nat.le_refl _)) ((le_iff _).mp (Nat.le_refl _))

/-- The error of a parse is where the terminals of its table end. -/
theorem Reading.offset_of_error {full : Text} {start : StartRule} (x : Reading full start)
    (source : Text) {e : SyntaxError} (fails : (parse full start).error = some e) :
    e.offset = ((SpanTable.Builder.start source).run (parse full start).events).1.reach := by
  rw [CorpusQuery.offset_of_error fails,x.farthest_eq,x.reach_eq]

end CorpusQuery
