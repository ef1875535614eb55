import CorpusQuery.Proofs.Trail

/-! Every run follows a trail. A run may enter rules in vain and read white space again, but the
entries that its events register are those of a trail, as the grammar is predictive. -/
namespace CorpusQuery

/-- Events that nest, with the entries of the symbols that are left, in the order of leaving. -/
inductive Balanced : List Event → List Entry → Prop where
  | nil : Balanced [] []
  | left : Balanced within entries →
      Balanced (.enter symbol offset :: within ++ [.leave stop])
        (entries ++ [(symbol,⟨offset,stop⟩)])
  | failed : Balanced within entries →
      Balanced (.enter symbol offset :: within ++ [.fail symbol]) entries
  | append : Balanced first T → Balanced second U → Balanced (first ++ second) (T ++ U)

/-- `found` is `path` but for white space: some of it may be found again, and some, which is
`given` back, may be found in addition. -/
structure Agrees (found path given : List Entry) : Prop where
  dark : found.filter (!·.isBlank) = path.filter (!·.isBlank)
  blank : ∀ x : Entry, x.isBlank = true → (x ∈ found ↔ x ∈ path ∨ x ∈ given)

namespace Agrees

variable {found path given : List Entry}

theorem refl (path : List Entry) : Agrees path path [] := ⟨rfl,by simp⟩

theorem filter_of_blank (h : Blank path) : path.filter (!·.isBlank) = [] := by
  simpa [Blank,List.filter_eq_nil_iff] using h

theorem giveBack (h : Agrees found path []) (blank : Blank path) : Agrees found [] path :=
  ⟨by simp [h.dark,filter_of_blank blank],fun x white => by simpa using h.blank x white⟩

theorem eq_nil (h : Agrees found [] []) : found = [] := by
  refine List.eq_nil_iff_forall_not_mem.mpr fun x member => ?_
  by_cases white : x.isBlank = true
  · simpa using (h.blank x white).mp member
  · have : x ∈ found.filter (!·.isBlank) := by simp [member,white]
    simp [h.dark] at this

theorem append {found' path' given' : List Entry} (first : Agrees found path given)
    (second : Agrees found' path' given') (again : ∀ x ∈ given, x ∈ found') :
    Agrees (found ++ found') (path ++ path') given' := by
  refine ⟨by simp [first.dark,second.dark],fun x white => ?_⟩
  have inFirst := first.blank x white
  have inSecond := second.blank x white
  simp only [List.mem_append,inFirst,inSecond]
  constructor
  · rintro ((path | held) | path | held)
    · exact .inl (.inl path)
    · exact (inSecond.mp (again x held)).imp_left .inr
    · exact .inl (.inr path)
    · exact .inr held
  · rintro ((path | path) | held)
    · exact .inl (.inl path)
    · exact .inr (.inl path)
    · exact .inr (.inr held)

theorem append_blank {found' path' given' : List Entry} (first : Agrees found path [])
    (second : Agrees found' path' given') (blank : Blank path')
    (known : ∀ x, x ∈ path' ∨ x ∈ given' → x ∈ path) : Agrees (found ++ found') path [] := by
  refine ⟨by simp [first.dark,second.dark,filter_of_blank blank],fun x white => ?_⟩
  have inFirst := first.blank x white
  have inSecond := second.blank x white
  simp only [List.mem_append,inFirst,inSecond]
  have := known x
  simp only [List.not_mem_nil,or_false]
  exact ⟨fun h => h.elim id this,.inl⟩

end Agrees

namespace Grammar

@[simp] theorem take_matched (tag : Terminal) (n : Nat) (c : Cursor) :
    (Recognizer.take tag n c).matched = true := by
  unfold Recognizer.take
  split <;> rfl

theorem Runs.matched_of_sure {e : Expr} {c : Cursor} {o : Outcome} (h : Runs e c o)
    (sure : e.sure = true) : o.matched = true := by
  induction h with
  | done => rfl
  | @trivia c =>
    unfold Recognizer.trivia Recognizer.token
    split
    · simp
    · rfl
  | andThen _ _ _ _ ih =>
    simp only [Expr.sure,Bool.and_eq_true] at sure
    exact ih sure.2
  | andThenFails _ fails ih =>
    simp only [Expr.sure,Bool.and_eq_true] at sure
    simp [ih sure.1] at fails
  | orElse _ matched => exact matched
  | orElseSecond _ _ _ _ ih => exact ih sure
  | optional | manyEnds => rfl
  | @attempt a c o inner ih =>
    have matched := ih sure
    simp [Recognizer.attempt,matched]
  | manyMore _ _ _ _ _ ih => exact ih rfl
  | manyStays _ matched => exact matched
  | nextYes _ _ ih =>
    simp only [Expr.sure,Bool.and_eq_true] at sure
    exact ih sure.1
  | nextNo _ _ ih =>
    simp only [Expr.sure,Bool.and_eq_true] at sure
    exact ih sure.2
  | reject | token | escape | run | call => simp [Expr.sure] at sure

/-- What fails only before reading, or gives back what it read, is where it started. -/
theorem Runs.stays {e : Expr} {c : Cursor} {o : Outcome} (h : Runs e c o)
    (fails : o.matched = false) (gives : e.solid = true ∨ e.rewinds = true) : o.cursor = c := by
  induction h with
  | done | optional | manyEnds => simp [Recognizer.done] at fails
  | reject => rfl
  | @token kind tag c =>
    unfold Recognizer.token at fails ⊢
    split at fails
    next => simp at fails
    next dark => simp [dark]
  | trivia => simp [Runs.trivia.matched_of_sure rfl] at fails
  | @escape c =>
    unfold Recognizer.escape at fails ⊢
    split at fails
    next => simp at fails
    next dark => simp [dark,Recognizer.reject]
  | @run stop c =>
    unfold Recognizer.run at fails ⊢
    split at fails
    next zero => simp [zero,Recognizer.reject]
    next => simp at fails
  | @call r c o inner ih =>
    by_cases matched : o.matched = true
    · simp [Recognizer.rule,matched] at fails
    · simp [Recognizer.rule,matched]
  | @attempt a c o inner ih =>
    by_cases matched : o.matched = true
    · simp [Recognizer.attempt,matched] at fails
    · simp [Recognizer.attempt,matched]
  | andThen _ _ second =>
    simp only [Expr.solid,Expr.rewinds,Bool.and_eq_true,Bool.false_eq_true,or_false] at gives
    simp [Outcome.followedBy,second.matched_of_sure gives.2] at fails
  | andThenFails _ fails ih =>
    simp only [Expr.solid,Expr.rewinds,Bool.and_eq_true,Bool.false_eq_true,or_false] at gives
    exact ih fails (.inl gives.1)
  | orElse _ matched => simp [matched] at fails
  | orElseSecond _ failed _ ihFirst ihSecond =>
    simp only [Expr.solid,Expr.rewinds,Bool.and_eq_true,Bool.false_eq_true,or_false] at gives
    exact (ihSecond fails (.inl gives.2)).trans (ihFirst failed (.inl gives.1))
  | manyMore _ _ _ second => simp [Outcome.followedBy,second.matched_of_sure rfl] at fails
  | manyStays _ matched => simp [matched] at fails
  | nextYes _ _ ih =>
    simp only [Expr.solid,Expr.rewinds,Bool.and_eq_true,Bool.false_eq_true,or_false] at gives
    exact ih fails (.inl gives.1)
  | nextNo _ _ ih =>
    simp only [Expr.solid,Expr.rewinds,Bool.and_eq_true,Bool.false_eq_true,or_false] at gives
    exact ih fails (.inl gives.2)

namespace Trail

variable {e : Expr} {c : Cursor} {ending : Ending} {T : List Entry}

theorem isSome_of_sure (h : Trail e c ending T) (sure : e.sure = true) :
    ending.stop?.isSome = true := by
  induction h with
  | done | trivia | noTrivia | optionalNone | optionalRests | manyNone | manyRests | manyStops =>
    rfl
  | andThen _ _ _ ih =>
    simp only [Expr.sure,Bool.and_eq_true] at sure
    exact ih sure.2
  | andThenRests => rfl
  | andThenBroken _ ih =>
    simp only [Expr.sure,Bool.and_eq_true] at sure
    exact ih sure.1
  | andThenGivesUp _ _ _ _ ih =>
    simp only [Expr.sure,Bool.and_eq_true] at sure
    exact ih sure.2
  | orElse _ stops | optional _ stops => exact stops
  | orElseSecond _ _ _ ih | attempt _ ih => exact ih sure
  | manyMore _ _ _ ih => exact ih rfl
  | nextYes _ _ ih =>
    simp only [Expr.sure,Bool.and_eq_true] at sure
    exact ih sure.1
  | nextNo _ _ ih =>
    simp only [Expr.sure,Bool.and_eq_true] at sure
    exact ih sure.2
  | reject | token | noToken | escape | noEscape | run | noRun | call | callBroken | callRests =>
    simp [Expr.sure] at sure

/-- What fails only before reading has an empty trail when it fails. -/
theorem of_solid (h : Trail e c ending T) (solid : e.solid = true)
    (fails : ending.stop? = none) : T = [] ∧ ending = .broken none c := by
  induction h with
  | reject | noToken | noEscape | noRun => exact ⟨rfl,rfl⟩
  | callBroken _ ih => exact ih (solid_body solid) fails
  | andThen _ second =>
    simp only [Expr.solid,Bool.and_eq_true] at solid
    simpa [fails] using second.isSome_of_sure solid.2
  | andThenBroken _ ih =>
    simp only [Expr.solid,Bool.and_eq_true] at solid
    exact ih solid.1 fails
  | andThenGivesUp _ second =>
    simp only [Expr.solid,Bool.and_eq_true] at solid
    simpa [Ending.stop?] using second.isSome_of_sure solid.2
  | orElse _ stops | optional _ stops => simp [fails] at stops
  | orElseSecond _ _ _ ih =>
    simp only [Expr.solid,Bool.and_eq_true] at solid
    exact ih solid.2 fails
  | attempt _ ih => exact ih solid fails
  | manyMore _ second => simpa [fails] using second.isSome_of_sure rfl
  | nextYes _ _ ih =>
    simp only [Expr.solid,Bool.and_eq_true] at solid
    exact ih solid.1 fails
  | nextNo _ _ ih =>
    simp only [Expr.solid,Bool.and_eq_true] at solid
    exact ih solid.2 fails
  | done | token | trivia | noTrivia | escape | run | call | callRests | andThenRests
  | optionalNone | optionalRests | manyNone | manyRests | manyStops => cases fails

/-- A repetition of what reads something stays where it is when it reads nothing. -/
theorem of_blank_many {a : Expr} (h : Trail (.many a) c ending T)
    (sound : (Expr.many a).predictive = true) (blank : Blank T) :
    T = [] ∧ ending = .complete c := by
  cases h with
  | manyNone => exact ⟨rfl,rfl⟩
  | manyMore first =>
    simp only [Expr.predictive,Bool.and_eq_true,Bool.not_eq_true'] at sound
    simp [first.blankable_of_blank sound.1.1.1.1.1 (blank_append.mp blank).1] at sound
  | manyRests _ dark => exact absurd blank dark
  | manyStops first => exact absurd blank first.not_blank_of_rests

end Trail

/-- A trail that a run follows. White space that the run has `given` back stands where it ends. -/
structure Explanation (e : Expr) (c : Cursor) (o : Outcome) where
  ending : Ending
  path : List Entry
  found : List Entry
  given : List Entry
  trail : Trail e c ending path
  balanced : Balanced o.events found
  agrees : Agrees found path given
  stops : ending.stop? = if o.matched then some o.cursor else none
  gives : given = [] ∨ e.peeks = true ∧ ending = .complete o.cursor ∧
    o.cursor.isAt .whitespace = true ∧ given = [o.cursor.leaf .whitespace 1]
  /-- Where the run rests it is followed by a token that it has tried, white space being read. -/
  rests : ∀ d f, ending = .broken (some d) f →
    (∃ k, d.ahead? = some k ∧ e.rests k = true) ∧
    (d.isAt .whitespace = true → d.leaf .whitespace 1 ∈ path ∧ f.rest.length < d.rest.length)
  skips : e.skips = true → c.isAt .whitespace = true → c.leaf .whitespace 1 ∈ found

namespace Explanation

variable {a b e : Expr} {c : Cursor} {o p : Outcome}

/-- A match either completes its trail or rests on it. -/
theorem ending_of_matched (x : Explanation e c o) (matched : o.matched = true) :
    x.ending = .complete o.cursor ∨ ∃ f, x.ending = .broken (some o.cursor) f := by
  have stops := x.stops
  rw [matched] at stops
  cases same : x.ending with
  | complete d =>
    rw [same] at stops
    exact .inl (congrArg Ending.complete (Option.some.inj stops))
  | broken resting f =>
    rw [same] at stops
    exact .inr ⟨f,congrArg (Ending.broken · f) stops⟩

theorem ending_of_failed (x : Explanation e c o) (fails : o.matched = false) :
    ∃ f, x.ending = .broken none f := by
  have stops := x.stops
  rw [fails] at stops
  cases same : x.ending with
  | complete d =>
    rw [same] at stops
    cases stops
  | broken resting f =>
    rw [same] at stops
    exact ⟨f,congrArg (Ending.broken · f) stops⟩

theorem gives_nothing (x : Explanation e c o) (notComplete : ∀ d, x.ending ≠ .complete d) :
    x.given = [] :=
  x.gives.resolve_right fun h => notComplete _ h.2.1

theorem agrees_of_broken {resting : Option Cursor} {f : Cursor} (x : Explanation e c o)
    (same : x.ending = .broken resting f) : Agrees x.found x.path [] :=
  x.gives_nothing (fun d => by simp [same]) ▸ x.agrees

theorem spaced (x : Explanation e c o) (spaced : c.Spaced) (matched : o.matched = true) :
    o.cursor.Spaced := by
  refine Cursor.Reaches.spaced ?_ spaced
  exact (x.trail.reaches.2 o.cursor (by rw [x.stops,matched]; rfl)).1

def leaf {tag : Terminal} {n : Nat} (nonzero : n ≠ 0) (fits : n ≤ c.rest.length)
    (trail : Trail e c (.complete (c.advance n)) [c.leaf tag n])
    (white : e.skips = true → c.isAt .whitespace = true → c.leaf .whitespace 1 = c.leaf tag n) :
    Explanation e c (Recognizer.take tag n c) where
  ending := .complete (c.advance n)
  path := [c.leaf tag n]
  found := [c.leaf tag n]
  given := []
  trail := trail
  balanced := by
    rw [Recognizer.take_eq tag nonzero fits]
    exact .left .nil
  agrees := .refl _
  stops := by simp [Recognizer.take_eq tag nonzero fits,Ending.stop?]
  gives := .inl rfl
  rests := fun _ _ broken => by cases broken
  skips := fun skips at_ => by simp [white skips at_]

def nothing {ending : Ending} (trail : Trail e c ending []) (balanced : Balanced o.events [])
    (stops : ending.stop? = if o.matched then some o.cursor else none)
    (dark : e.skips = true → c.isAt .whitespace = false) : Explanation e c o where
  ending := ending
  path := []
  found := []
  given := []
  trail := trail
  balanced := balanced
  agrees := .refl _
  stops := stops
  gives := .inl rfl
  rests := fun _ _ broken => by
    subst broken
    exact absurd blank_nil trail.not_blank_of_rests
  skips := fun skips at_ => by simp [dark skips] at at_

def widen {e' : Expr} {o' : Outcome} (x : Explanation e c o)
    (trail : Trail e' c x.ending x.path) (events : o'.events = o.events)
    (stops : x.ending.stop? = if o'.matched then some o'.cursor else none)
    (cursor : o.matched = true → o'.cursor = o.cursor)
    (peeks : e.peeks = true → e'.peeks = true)
    (rests : ∀ k, e.rests k = true → e'.rests k = true)
    (skips : e'.skips = true → e.skips = true) : Explanation e' c o' where
  ending := x.ending
  path := x.path
  found := x.found
  given := x.given
  trail := trail
  balanced := events ▸ x.balanced
  agrees := x.agrees
  stops := stops
  gives := x.gives.imp_right fun ⟨peek,complete,white,given⟩ => by
    have matched : o.matched = true := by
      by_contra fails
      have stops := x.stops
      simp [complete,fails,Ending.stop?] at stops
    exact ⟨peeks peek,(cursor matched).symm ▸ complete,(cursor matched).symm ▸ white,
      (cursor matched).symm ▸ given⟩
  rests := fun d f broken =>
    ⟨(x.rests d f broken).1.imp fun k h => ⟨h.1,rests k h.2⟩,(x.rests d f broken).2⟩
  skips := fun skip => x.skips (skips skip)

theorem call {r : NonTerminal} (x : Explanation (body r) c o) :
    Nonempty (Explanation (.call r) c (Recognizer.rule r (fun _ => o) c)) := by
  by_cases matched : o.matched = true
  · have peeks : (body r).peeks = true → (Expr.call r).peeks = true := peeks_of_body
    have trail : Trail (.call r) c x.ending (x.path ++ [c.branch r o.cursor]) := by
      rcases x.ending_of_matched matched with same | ⟨f,same⟩
      · exact same ▸ .call (same ▸ x.trail)
      · have rests := (x.rests _ _ same).1.imp fun k h => rests_of_body h.2
        exact same ▸ .callRests (same ▸ x.trail) rests
    refine ⟨⟨x.ending,_,x.found ++ [c.branch r o.cursor],x.given,trail,?_,?_,?_,?_,?_,?_⟩⟩
    · simp only [Recognizer.rule,matched,if_true]
      exact .left x.balanced
    · refine ⟨by simp [x.agrees.dark],fun z white => ?_⟩
      have : z ≠ c.branch r o.cursor := fun same => by simp [same] at white
      simp [this,x.agrees.blank z white]
    · simpa [Recognizer.rule,matched] using x.stops
    · simpa [Recognizer.rule,matched] using x.gives.imp_right fun h => ⟨peeks h.1,h.2⟩
    · intro d f broken
      refine ⟨(x.rests d f broken).1.imp fun k h => ⟨h.1,rests_of_body h.2⟩,fun white => ?_⟩
      have := (x.rests d f broken).2 white
      exact ⟨List.mem_append_left _ this.1,this.2⟩
    · simp [Expr.skips]
  · have fails : o.matched = false := by simpa using matched
    obtain ⟨f,same⟩ := x.ending_of_failed fails
    have agrees := x.agrees_of_broken same
    have trail : Trail (.call r) c (.broken none f) x.path := .callBroken (same ▸ x.trail)
    refine ⟨⟨_,_,x.found,[],trail,?_,agrees,?_,.inl rfl,?_,by simp [Expr.skips]⟩⟩
    · simp only [Recognizer.rule,fails]
      exact .failed x.balanced
    · simp [Recognizer.rule,fails]
    · intro _ _ broken
      cases broken

theorem idle {f : Cursor} (x : Explanation a c o) (rests : x.ending = .broken (some o.cursor) f)
    (y : Explanation b o.cursor p) (hands : a.handsOver b = true) (sound : b.predictive = true)
    (spaced : o.cursor.Spaced) :
    Blank y.path ∧ ∀ z, z ∈ y.path ∨ z ∈ y.given → z ∈ x.path := by
  obtain ⟨⟨k,ahead,waits⟩,known⟩ := x.rests _ _ rests
  obtain ⟨notStarts,notWhite⟩ := Expr.handsOver_iff.mp hands k waits
  have blank : Blank y.path := by
    by_contra dark
    obtain ⟨k',ahead',starts,-⟩ := y.trail.starts spaced sound dark notWhite
    rw [ahead] at ahead'
    cases ahead'
    simp [notStarts] at starts
  refine ⟨blank,fun z member => ?_⟩
  have reads := y.trail.blank_cases spaced sound blank
  rcases member with path | given
  · rcases reads with ⟨empty,-⟩ | ⟨white,one,-⟩
    · simp [empty] at path
    · have same : z = o.cursor.leaf .whitespace 1 := by simpa [one] using path
      exact same ▸ (known white).1
  · rcases y.gives with empty | ⟨-,complete,white,one⟩
    · simp [empty] at given
    · have same : z = p.cursor.leaf .whitespace 1 := by simpa [one] using given
      -- The white space given back stands where the run rests: two do not meet.
      have here : p.cursor = o.cursor := by
        rcases reads with ⟨-,reach⟩ | ⟨here,-,reach⟩
        · simpa [complete] using reach
        · have reach : p.cursor = o.cursor.advance 1 := by simpa [complete] using reach
          simp [reach,spaced.not_isAt_advance here] at white
      exact same ▸ here ▸ (known (here ▸ white)).1

theorem join {ab : Expr} (x : Explanation a c o) (y : Explanation b o.cursor p)
    (trail : Trail ab c y.ending (x.path ++ y.path))
    (hands : x.given = [] ∨ b.skips = true ∨ b.isDone = true ∧ ab.peeks = true)
    (peeks : b.peeks = true → ab.peeks = true)
    (rests : ∀ k, b.rests k = true → ab.rests k = true)
    (skips : ab.skips = true → a.skips = true) :
    Nonempty (Explanation ab c (o.followedBy p)) := by
  have rest : ∀ d f, y.ending = .broken (some d) f →
      (∃ k, d.ahead? = some k ∧ ab.rests k = true) ∧ (d.isAt .whitespace = true →
        d.leaf .whitespace 1 ∈ x.path ++ y.path ∧ f.rest.length < d.rest.length) := by
    intro d f broken
    obtain ⟨ahead,known⟩ := y.rests d f broken
    refine ⟨ahead.imp fun k h => ⟨h.1,rests k h.2⟩,fun white => ?_⟩
    exact ⟨List.mem_append_right _ (known white).1,(known white).2⟩
  have skip : ab.skips = true → c.isAt .whitespace = true →
      c.leaf .whitespace 1 ∈ x.found ++ y.found :=
    fun skip white => List.mem_append_left _ (x.skips (skips skip) white)
  have take (again : ∀ z ∈ x.given, z ∈ y.found) :
      Nonempty (Explanation ab c (o.followedBy p)) :=
    ⟨⟨_,_,_,y.given,trail,.append x.balanced y.balanced,x.agrees.append y.agrees again,y.stops,
      y.gives.imp_right fun h => ⟨peeks h.1,h.2⟩,rest,skip⟩⟩
  rcases x.gives with empty | ⟨-,-,white,given⟩
  · exact take (by simp [empty])
  rcases hands with empty | skips | ⟨isDone,peek⟩
  · exact take (by simp [empty])
  · exact take (by simpa [given] using y.skips skips white)
  · -- Nothing follows, so what the first part has given back remains so.
    cases b <;> simp [Expr.isDone] at isDone
    obtain ⟨ending,path,found,held,inner,balanced,agrees,stops,gives,rests,_⟩ := y
    cases inner
    have empty : held = [] := gives.resolve_right fun h => by simp [Expr.peeks] at h
    subst empty
    have empty := agrees.eq_nil
    subst empty
    have here : p.matched = true ∧ p.cursor = o.cursor := by
      cases matched : p.matched <;> simp [matched] at stops
      simp [stops]
    refine ⟨⟨_,_,_,x.given,trail,.append x.balanced balanced,?_,stops,.inr ?_,rest,skip⟩⟩
    · simpa using x.agrees
    · simp [peek,Outcome.followedBy,here,white,given]

/-- Where a run rests, what follows and reads white space at most stays before the end of the trail. -/
theorem onward {f d : Cursor} (x : Explanation a c o) (same : x.ending = .broken (some o.cursor) f)
    (moves : d = o.cursor ∨ o.cursor.isAt .whitespace = true ∧ d = o.cursor.advance 1) :
    d.Reaches f := by
  obtain ⟨n,far⟩ := ((same ▸ x.trail).reaches.2 _ rfl).2
  have far : f = o.cursor.advance n := far
  rcases moves with rfl | ⟨white,rfl⟩
  · exact ⟨n,far⟩
  · have less := ((x.rests _ _ same).2 white).2
    cases n with
    | zero => simp [far] at less
    | succ n => exact ⟨n,by rw [Cursor.advance_advance,far,Nat.add_comm]⟩

/-- Two parts of which the first rests: the second one stays there but for white space. -/
theorem andThenAfterRest {f : Cursor} (x : Explanation a c o)
    (same : x.ending = .broken (some o.cursor) f) (y : Explanation b o.cursor p)
    (hands : a.handsOver b = true) (sound : b.predictive = true) (spaced : o.cursor.Spaced) :
    Nonempty (Explanation (.andThen a b) c (o.followedBy p)) := by
  obtain ⟨blank,known⟩ := x.idle same y hands sound spaced
  have agrees := (x.agrees_of_broken same).append_blank y.agrees blank known
  have first : Trail a c (.broken (some o.cursor) f) x.path := same ▸ x.trail
  have balanced := Balanced.append x.balanced y.balanced
  have skip : (Expr.andThen a b).skips = true → c.isAt .whitespace = true →
      c.leaf .whitespace 1 ∈ x.found ++ y.found :=
    fun skip white => List.mem_append_left _ (x.skips skip white)
  by_cases ends : p.matched = true
  · have complete : y.ending = .complete p.cursor := by
      rcases y.ending_of_matched ends with complete | ⟨g,rests⟩
      · exact complete
      · exact absurd blank (rests ▸ y.trail).not_blank_of_rests
    have second : Trail b o.cursor (.complete p.cursor) y.path := complete ▸ y.trail
    have moves : p.cursor = o.cursor ∨
        o.cursor.isAt .whitespace = true ∧ p.cursor = o.cursor.advance 1 :=
      (second.blank_cases spaced sound blank).imp And.right fun h => ⟨h.1,h.2.2⟩
    have trail := Trail.andThenRests first second blank (x.onward same moves)
    refine ⟨⟨_,_,_,[],trail,balanced,agrees,by simp [Outcome.followedBy,ends],.inl rfl,?_,skip⟩⟩
    intro d g broken
    cases broken
    obtain ⟨⟨k,ahead,waits⟩,reads⟩ := x.rests _ _ same
    have blankable := second.blankable_of_blank sound blank
    have waits : (Expr.andThen a b).rests k = true := by simp [Expr.rests,blankable,waits]
    rcases moves with stays | ⟨white,moves⟩
    · rw [stays]
      exact ⟨⟨k,ahead,waits⟩,reads⟩
    · rw [moves,Cursor.ahead?_advance spaced white]
      exact ⟨⟨k,ahead,waits⟩,by simp [spaced.not_isAt_advance white]⟩
  · have ends : p.matched = false := by simpa using ends
    obtain ⟨g,broken⟩ := y.ending_of_failed ends
    have trail := Trail.andThenGivesUp first (broken ▸ y.trail) blank
    refine ⟨⟨_,_,_,[],trail,balanced,agrees,by simp [Outcome.followedBy,ends],.inl rfl,?_,skip⟩⟩
    intro d g broken
    cases broken

theorem andThen (x : Explanation a c o) (matched : o.matched = true)
    (y : Explanation b o.cursor p) (sound : (Expr.andThen a b).predictive = true)
    (spaced : c.Spaced) : Nonempty (Explanation (.andThen a b) c (o.followedBy p)) := by
  have spacedNext := x.spaced spaced matched
  simp only [Expr.predictive,Bool.and_eq_true,Bool.or_eq_true,Bool.not_eq_true'] at sound
  obtain ⟨⟨⟨soundFirst,soundSecond⟩,hands⟩,peeks⟩ := sound
  rcases x.ending_of_matched matched with same | ⟨f,same⟩
  · refine x.join y (.andThen (same ▸ x.trail) y.trail) ?_ ?_ ?_ id
    · rcases x.gives with empty | ⟨peek,-⟩
      · exact .inl empty
      · rcases peeks with (notPeek | skips) | isDone
        · simp [peek] at notPeek
        · exact .inr (.inl skips)
        · exact .inr (.inr ⟨isDone,by simp [Expr.peeks,peek,isDone]⟩)
    · intro peek
      simp [Expr.peeks,peek]
    · intro k rests
      simp [Expr.rests,rests]
  · exact x.andThenAfterRest same y hands soundSecond spacedNext

/-- A part that is tried in vain and goes back to its start: unless it has read white space at
most, the run rests before it. -/
theorem backtrack {e : Expr} (x : Explanation a c o) (fails : o.matched = false)
    (sound : a.predictive = true) (clear : (a.solid || !a.starts .whitespace) = true)
    (spaced : c.Spaced)
    (stay : ∀ f, Trail a c (.broken none f) x.path → Blank x.path → Trail e c (.complete c) [])
    (rest : ∀ f, Trail a c (.broken none f) x.path → ¬Blank x.path →
      Trail e c (.broken (some c) f) x.path)
    (peeks : e.peeks = (a.peeks || !a.solid)) (skips : e.skips = a.skips)
    (rests : ∀ k, e.rests k = (a.rests k || !a.solid && a.starts k)) :
    Nonempty (Explanation e c { o with matched := true, cursor := c }) := by
  obtain ⟨f,same⟩ := x.ending_of_failed fails
  have agrees := x.agrees_of_broken same
  have inner : Trail a c (.broken none f) x.path := same ▸ x.trail
  have skip : e.skips = true → c.isAt .whitespace = true → c.leaf .whitespace 1 ∈ x.found :=
    fun skip => x.skips (skips ▸ skip)
  by_cases blank : Blank x.path
  · refine ⟨⟨_,_,_,x.path,stay f inner blank,x.balanced,agrees.giveBack blank,rfl,?_,?_,skip⟩⟩
    · rcases inner.blank_cases spaced sound blank with ⟨empty,-⟩ | ⟨white,one,-⟩
      · exact .inl empty
      · have notSolid : a.solid = false := by
          by_contra solid
          have := (inner.of_solid (by simpa using solid) rfl).1
          simp [this] at one
        exact .inr ⟨by simp [peeks,notSolid],rfl,white,one⟩
    · intro d f broken
      cases broken
  · have notSolid : a.solid = false := by
      by_contra solid
      simp [(inner.of_solid (by simpa using solid) rfl).1] at blank
    obtain ⟨k,ahead,starts,white⟩ :=
      inner.starts spaced sound blank (by simpa [notSolid] using clear)
    refine ⟨⟨_,_,_,[],rest f inner blank,x.balanced,agrees,rfl,.inl rfl,?_,skip⟩⟩
    intro d g broken
    cases broken
    have shorter := inner.shortens sound fun empty => by simp [empty] at blank
    exact ⟨⟨k,ahead,by simp [rests,notSolid,starts]⟩,fun at_ => ⟨white at_,shorter⟩⟩

theorem andThenFails (x : Explanation a c o) (fails : o.matched = false) :
    Nonempty (Explanation (.andThen a b) c o) := by
  obtain ⟨f,same⟩ := x.ending_of_failed fails
  have agrees := x.agrees_of_broken same
  refine ⟨⟨_,_,_,[],.andThenBroken (same ▸ x.trail),x.balanced,agrees,by simp [fails],.inl rfl,?_,
    x.skips⟩⟩
  intro _ _ broken
  cases broken

theorem optional (x : Explanation a c o) (sound : (Expr.optional a).predictive = true)
    (runs : Runs a c o) (spaced : c.Spaced) :
    Nonempty (Explanation (.optional a) c { o with matched := true }) := by
  simp only [Expr.predictive,Bool.and_eq_true] at sound
  by_cases matched : o.matched = true
  · have stops : x.ending.stop? = some o.cursor := by simpa [matched] using x.stops
    have trail : Trail (.optional a) c x.ending x.path := .optional x.trail (by simp [stops])
    exact ⟨x.widen trail rfl (by simp [stops]) (fun _ => rfl) (fun h => by simp [Expr.peeks,h])
      (fun k h => by simp [Expr.rests,h]) id⟩
  · have fails : o.matched = false := by simpa using matched
    have back := x.backtrack (e := .optional a) fails sound.1.1 sound.2 spaced
      (fun _ => .optionalNone) (fun _ => .optionalRests) rfl rfl fun _ => rfl
    simpa [runs.stays fails (.inr sound.1.2)] using back

theorem attempt (x : Explanation a c o) :
    Nonempty (Explanation (.attempt a) c (Recognizer.attempt (fun _ => o) c)) := by
  by_cases matched : o.matched = true
  · simp only [Recognizer.attempt,matched,if_true]
    exact ⟨x.widen (.attempt x.trail) rfl x.stops (fun _ => rfl) id (fun _ => id) id⟩
  · simp only [Recognizer.attempt,matched]
    have stops : x.ending.stop? = Option.none := by simpa [matched] using x.stops
    exact ⟨x.widen (.attempt x.trail) rfl (by simpa [matched] using stops)
      (fun h => absurd h matched) id (fun _ => id) id⟩

theorem orElse (x : Explanation a c o) (matched : o.matched = true) :
    Nonempty (Explanation (.orElse a b) c o) := by
  have stops : x.ending.stop? = some o.cursor := by simpa [matched] using x.stops
  have trail : Trail (.orElse a b) c x.ending x.path := .orElse x.trail (by simp [stops])
  exact ⟨x.widen trail rfl x.stops (fun _ => rfl) (fun h => by simp [Expr.peeks,h])
    (fun k h => by simp [Expr.rests,h]) (fun h => by simp [Expr.skips] at h)⟩

theorem orElseSecond (x : Explanation a c o) (fails : o.matched = false) (runs : Runs a c o)
    (y : Explanation b o.cursor p) (sound : (Expr.orElse a b).predictive = true) :
    Nonempty (Explanation (.orElse a b) c (o.followedBy p)) := by
  simp only [Expr.predictive,Bool.and_eq_true] at sound
  have stays := runs.stays fails (.inl sound.2)
  obtain ⟨empty,same⟩ := x.trail.of_solid sound.2 (by simpa [fails] using x.stops)
  have given := x.gives_nothing fun d => by simp [same]
  have inner : Trail a c (.broken none c) [] := same ▸ empty ▸ x.trail
  have next : Trail b c y.ending y.path := stays ▸ y.trail
  have trail : Trail (.orElse a b) c y.ending (x.path ++ y.path) := by
    simpa [empty] using Trail.orElseSecond inner next
  exact x.join y trail (.inl given) (fun h => by simp [Expr.peeks,h])
    (fun k h => by simp [Expr.rests,h]) (fun h => by simp [Expr.skips] at h)

theorem manyEnds (x : Explanation a c o) (fails : o.matched = false)
    (sound : (Expr.many a).predictive = true) (spaced : c.Spaced) :
    Nonempty (Explanation (.many a) c { o with matched := true, cursor := c }) := by
  simp only [Expr.predictive,Bool.and_eq_true] at sound
  exact x.backtrack fails sound.1.1.1.1.1 sound.1.2 spaced (fun _ => .manyNone)
    (fun _ => .manyRests) rfl rfl fun _ => rfl

theorem manyMore (x : Explanation a c o) (matched : o.matched = true)
    (y : Explanation (.many a) o.cursor p) (sound : (Expr.many a).predictive = true)
    (spaced : c.Spaced) : Nonempty (Explanation (.many a) c (o.followedBy p)) := by
  have soundMany := sound
  simp only [Expr.predictive,Bool.and_eq_true,Bool.or_eq_true,Bool.not_eq_true'] at sound
  obtain ⟨⟨⟨-,hands⟩,-⟩,peeks⟩ := sound
  rcases x.ending_of_matched matched with same | ⟨f,same⟩
  · refine x.join y (.manyMore (same ▸ x.trail) y.trail) ?_ id (fun _ => id) id
    rcases x.gives with empty | ⟨peek,-⟩
    · exact .inl empty
    · exact .inr (.inl (peeks.resolve_left (by simp [peek])))
  · -- The repetition rests, and what follows ends where it starts.
    obtain ⟨blank,known⟩ := x.idle same y hands soundMany (x.spaced spaced matched)
    obtain ⟨-,complete⟩ := y.trail.of_blank_many soundMany blank
    have agrees := x.agrees_of_broken same
    have trailFirst : Trail a c (.broken (some o.cursor) f) x.path := same ▸ x.trail
    have stops : p.matched = true ∧ p.cursor = o.cursor := by
      have stops := y.stops
      cases ends : p.matched <;> simp [ends,complete] at stops
      simp [stops]
    refine ⟨⟨_,_,_,[],.manyStops trailFirst,.append x.balanced y.balanced,
      agrees.append_blank y.agrees blank known,?_,.inl rfl,?_,?_⟩⟩
    · simp [Outcome.followedBy,stops]
    · intro d g broken
      cases broken
      have rests := x.rests _ _ same
      exact ⟨rests.1.imp fun k h => ⟨h.1,by simp [Expr.rests,h.2]⟩,rests.2⟩
    · exact fun skip white => List.mem_append_left _ (x.skips skip white)

theorem nextYes {kinds : List Terminal} (ahead : c.kind?.any kinds.contains = true)
    (x : Explanation a c o) : Nonempty (Explanation (.next kinds a b) c o) :=
  ⟨x.widen (.nextYes ahead x.trail) rfl x.stops (fun _ => rfl) (fun h => by simp [Expr.peeks,h])
    (fun k h => by simp [Expr.rests,h]) (fun h => by simp [Expr.skips] at h)⟩

theorem nextNo {kinds : List Terminal} (ahead : c.kind?.any kinds.contains = false)
    (x : Explanation b c o) : Nonempty (Explanation (.next kinds a b) c o) :=
  ⟨x.widen (.nextNo ahead x.trail) rfl x.stops (fun _ => rfl) (fun h => by simp [Expr.peeks,h])
    (fun k h => by simp [Expr.rests,h]) (fun h => by simp [Expr.skips] at h)⟩

theorem token {kind tag : Terminal} (sound : (Expr.token kind tag).predictive = true) :
    Nonempty (Explanation (.token kind tag) c (Recognizer.token kind tag c)) := by
  have sound : kind = .whitespace ↔ tag = .whitespace := by simpa [Expr.predictive] using sound
  unfold Recognizer.token
  split
  next at_ =>
    refine ⟨leaf Nat.one_ne_zero (Cursor.one_le_of_isAt at_) (.token at_) fun skip _ => ?_⟩
    rw [sound.mp (by simpa [Expr.skips] using skip)]
  next dark =>
    refine ⟨nothing (.noToken (by simpa using dark)) (.failed .nil) (by simp) fun skip => ?_⟩
    have same : kind = .whitespace := by simpa [Expr.skips] using skip
    simpa [same] using dark

theorem trivia : Nonempty (Explanation .trivia c (Recognizer.trivia c)) := by
  unfold Recognizer.trivia
  split
  next white =>
    simp only [Recognizer.token,white,if_true]
    exact ⟨leaf Nat.one_ne_zero (Cursor.one_le_of_isAt white) (.trivia white) fun _ _ => rfl⟩
  next dark =>
    have dark : c.isAt .whitespace = false := by simpa using dark
    exact ⟨nothing (.noTrivia dark) .nil rfl fun _ => dark⟩

theorem escape : Nonempty (Explanation .escape c (Recognizer.escape c)) := by
  unfold Recognizer.escape
  split
  next at_ =>
    exact ⟨leaf (by split <;> simp) (escape_fits at_) (.escape at_) (by simp [Expr.skips])⟩
  next dark => exact ⟨nothing (.noEscape (by simpa using dark)) .nil rfl (by simp [Expr.skips])⟩

theorem run (stop : Terminal) : Nonempty (Explanation (.run stop) c (Recognizer.run stop c)) := by
  unfold Recognizer.run
  split
  next zero => exact ⟨nothing (.noRun zero) .nil rfl (by simp [Expr.skips])⟩
  next zero => exact ⟨leaf zero (runLength_le ..) (.run zero) (by simp [Expr.skips])⟩

end Explanation

/-- Every run of a predictive expression over spaced tokens follows a trail. -/
theorem Runs.explained {e : Expr} {c : Cursor} {o : Outcome} (h : Runs e c o)
    (sound : e.predictive = true) (spaced : c.Spaced) : Nonempty (Explanation e c o) := by
  induction h with
  | done => exact ⟨.nothing .done .nil rfl (by simp [Expr.skips])⟩
  | reject => exact ⟨.nothing .reject .nil rfl (by simp [Expr.skips])⟩
  | token => exact Explanation.token sound
  | trivia => exact Explanation.trivia
  | escape => exact Explanation.escape
  | run => exact Explanation.run _
  | call _ ih =>
    obtain ⟨x⟩ := ih (predictive_body _) spaced
    exact x.call
  | andThen _ matched _ ihFirst ihSecond =>
    have parts := sound
    simp only [Expr.predictive,Bool.and_eq_true] at parts
    obtain ⟨x⟩ := ihFirst parts.1.1.1 spaced
    obtain ⟨y⟩ := ihSecond parts.1.1.2 (x.spaced spaced matched)
    exact x.andThen matched y sound spaced
  | andThenFails _ fails ih =>
    simp only [Expr.predictive,Bool.and_eq_true] at sound
    obtain ⟨x⟩ := ih sound.1.1.1 spaced
    exact x.andThenFails fails
  | orElse _ matched ih =>
    simp only [Expr.predictive,Bool.and_eq_true] at sound
    obtain ⟨x⟩ := ih sound.1.1 spaced
    exact x.orElse matched
  | orElseSecond first fails _ ihFirst ihSecond =>
    have parts := sound
    simp only [Expr.predictive,Bool.and_eq_true] at parts
    obtain ⟨x⟩ := ihFirst parts.1.1 spaced
    obtain ⟨y⟩ := ihSecond parts.1.2 (first.stays fails (.inl parts.2) ▸ spaced)
    exact x.orElseSecond fails first y sound
  | optional first ih =>
    have parts := sound
    simp only [Expr.predictive,Bool.and_eq_true] at parts
    obtain ⟨x⟩ := ih parts.1.1 spaced
    exact x.optional sound first spaced
  | attempt _ ih =>
    obtain ⟨x⟩ := ih sound spaced
    exact x.attempt
  | manyMore _ matched _ _ ihFirst ihSecond =>
    obtain ⟨x⟩ := ihFirst (predictive_of_many sound) spaced
    obtain ⟨y⟩ := ihSecond sound (x.spaced spaced matched)
    exact x.manyMore matched y sound spaced
  | manyStays first matched still =>
    -- An item of a repetition is not empty.
    simp only [Expr.predictive,Bool.and_eq_true,Bool.not_eq_true'] at sound
    exact absurd (first.shrinks.2 matched sound.1.1.1.1.2) still
  | manyEnds _ fails ih =>
    obtain ⟨x⟩ := ih (predictive_of_many sound) spaced
    exact x.manyEnds fails sound spaced
  | nextYes ahead _ ih =>
    simp only [Expr.predictive,Bool.and_eq_true] at sound
    obtain ⟨x⟩ := ih sound.1 spaced
    exact x.nextYes ahead
  | nextNo ahead _ ih =>
    simp only [Expr.predictive,Bool.and_eq_true] at sound
    obtain ⟨x⟩ := ih sound.2 spaced
    exact x.nextNo ahead

end Grammar

end CorpusQuery
