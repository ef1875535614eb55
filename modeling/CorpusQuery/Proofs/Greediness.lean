import CorpusQuery.Proofs.Elements
import CorpusQuery.Proofs.Prediction

/-! Being greedy loses no derivation. What follows a part of the grammar never starts with a token
with which the part could go on, so where a derivation ends, the trail completes. -/
namespace CorpusQuery

namespace Grammar

namespace Expr

def goesOn : Expr → Terminal → Bool
  | .call r,k => r.rests k
  | .andThen first second,k => second.goesOn k || second.blankable && first.goesOn k
  | .orElse first second,k => first.goesOn k || second.goesOn k
  | .optional body,k | .many body,k => body.goesOn k || body.starts k
  | .attempt body,k => body.goesOn k
  | .next kinds yes no,k => yes.goesOn k || no.goesOn k || yes.blankable && no.starts k ||
      no.blankable && !yes.isDone && kinds.contains k
  | _,_ => false

def anyKind (test : Terminal → Bool) : Bool := Terminal.all.any test

theorem anyKind_eq_false {test : Terminal → Bool} :
    anyKind test = false ↔ ∀ k, test k = false := by
  simp [anyKind,Terminal.mem_all]

/-- The next token always decides how to go on; values of attributes are not looked into. -/
def settled : Expr → Bool
  | .done | .reject _ | .trivia => true
  | .token kind _ => kind != .whitespace
  | .escape | .run _ => false
  | .call r => !([NonTerminal.regExpRaw,.phraseQuery,.phraseWord].contains r)
  | .andThen first second => first.settled && second.settled &&
      !anyKind fun k => first.goesOn k && second.starts k
  | .orElse first second => first.settled && second.settled && !first.blankable &&
      !second.blankable && !anyKind fun k => first.starts k && second.starts k
  | .optional body => body.settled && !body.blankable
  | .attempt body => body.settled
  | .many body => body.settled && !body.blankable &&
      !anyKind fun k => body.goesOn k && body.starts k
  | .next kinds yes no => yes.settled && no.settled && yes.form.tight &&
      !kinds.contains .whitespace && (!yes.blankable || no.sure) &&
      !(anyKind fun k => yes.starts k && !kinds.contains k) &&
      !anyKind fun k => no.starts k && kinds.contains k

end Expr

theorem settled_body {r : NonTerminal} (settled : (Expr.call r).settled = true)
    (notValue : r ≠ .regExp) : (body r).settled = true := by
  revert settled notValue
  cases r <;> decide

theorem goesOn_body {r : NonTerminal} (settled : (Expr.call r).settled = true) {k : Terminal}
    (h : (body r).goesOn k = true) : r.rests k = true := by
  have table : Terminal.all.all (fun k => !(body r).goesOn k || r.rests k) = true := by
    revert settled
    cases r <;> decide
  simpa [h] using List.all_eq_true.mp table k (Terminal.mem_all k)

theorem starts_whitespace_of_settled {e : Expr} (settled : e.settled = true) :
    e.starts .whitespace = false := by
  induction e with
  | done | reject | trivia => rfl
  | token kind => simp [Expr.starts]
  | escape | run => simp [Expr.settled] at settled
  | call r =>
    revert settled
    cases r <;> decide
  | andThen _ _ ihFirst ihSecond =>
    simp only [Expr.settled,Bool.and_eq_true] at settled
    simp [Expr.starts,ihFirst settled.1.1,ihSecond settled.1.2]
  | orElse _ _ ihFirst ihSecond =>
    simp only [Expr.settled,Bool.and_eq_true] at settled
    simp [Expr.starts,ihFirst settled.1.1.1.1,ihSecond settled.1.1.1.2]
  | optional _ ih =>
    simp only [Expr.settled,Bool.and_eq_true] at settled
    exact ih settled.1
  | attempt _ ih => exact ih settled
  | many _ ih =>
    simp only [Expr.settled,Bool.and_eq_true] at settled
    exact ih settled.1.1
  | next _ _ _ ihFirst ihSecond =>
    simp only [Expr.settled,Bool.and_eq_true] at settled
    simp [Expr.starts,ihFirst settled.1.1.1.1.1.1,ihSecond settled.1.1.1.1.1.2]

theorem Near.ahead?_cursor {w : List Terminal} {c : Cursor} (near : Near w c.kinds)
    (spread : Spread w) : CorpusQuery.ahead? w = c.ahead? :=
  (near.ahead? spread).trans (ahead?_kinds c)

theorem Near.eq_of_head_ne {w x : List Terminal} (near : Near w x)
    (dark : w.head? ≠ some .whitespace) : w = x :=
  near.resolve_right fun white => dark (by simp [white])

/-- Where `x` does not start with white space, what is between is near it as well. -/
theorem Near.of_near {w x v : List Terminal} (near : Near w x) (stays : Near w v)
    (dark : x.head? ≠ some .whitespace) : Near v x := by
  rcases stays with rfl | white
  · exact near
  · rcases near with rfl | same
    · simp [white] at dark
    · exact .inl (List.cons.inj (white.symm.trans same)).2

namespace Expr

def StopsAt (e : Expr) (v : List Terminal) : Prop := ∀ k, ahead? v = some k → e.goesOn k = false

def AbsentAt (e : Expr) (w : List Terminal) : Prop := ∀ k, ahead? w = some k → e.starts k = false

variable {a b : Expr} {kinds : List Terminal} {w u v : List Terminal}

theorem first_of_derives {e : Expr} (settled : e.settled = true)
    (derives : Derives bodyForm e.form w v) (spread : Spread w) :
    e.blankable = true ∧ Near w v ∨
      v.length < w.length ∧ ∃ k, e.starts k = true ∧ ahead? w = some k := by
  rcases derives.first spread with ⟨blank,near⟩ | ⟨less,k,starts,how⟩
  · exact .inl ⟨blankable_form e ▸ blank,near⟩
  · rw [starts_form] at starts
    have dark : k ≠ .whitespace := fun same => by
      simp [same,starts_whitespace_of_settled settled] at starts
    refine .inr ⟨less,k,starts,how.elim (fun head => ?_) id⟩
    simp [ahead?,head,dark]

/-- A first part stops where a second one starts, or where both have to stop. -/
theorem stops_before (settled : b.settled = true)
    (apart : ∀ k, (a.goesOn k && b.starts k) = false) (second : Derives bodyForm b.form u v)
    (spread : Spread u) (stops : b.blankable = true → a.StopsAt v) : a.StopsAt u := by
  intro k ahead
  rcases first_of_derives settled second spread with ⟨blank,near⟩ | ⟨-,k',starts,ahead'⟩
  · exact stops blank k ((near.ahead? spread).symm.trans ahead)
  · rw [ahead] at ahead'
    cases ahead'
    simpa [starts] using apart k

theorem stopsAt_body {r : NonTerminal} (settled : (call r).settled = true)
    (stops : (call r).StopsAt v) : (body r).StopsAt v := by
  intro k ahead
  by_contra goesOn
  have rests := goesOn_body settled (by simpa using goesOn)
  simpa [Expr.goesOn,rests] using stops k ahead

/-! A derivation of each kind of expression, taken apart: the parts that are derived stop where they
end, and the parts that are left out do not start with what comes next. -/

theorem andThen_cases (settled : (andThen a b).settled = true)
    (derives : Derives bodyForm (andThen a b).form w v) (spread : Spread w)
    (stops : (andThen a b).StopsAt v) :
    ∃ u, (Derives bodyForm a.form w u ∧ a.StopsAt u) ∧ Derives bodyForm b.form u v ∧
      b.StopsAt v := by
  simp only [Expr.settled,Bool.and_eq_true,Bool.not_eq_true',anyKind_eq_false] at settled
  simp only [StopsAt,goesOn,Bool.or_eq_false_iff,Bool.and_eq_false_iff] at stops
  obtain ⟨u,before,after⟩ := Derives.seq_iff.mp derives
  have stopsFirst : a.StopsAt u :=
    stops_before settled.1.2 settled.2 after (before.spread spread) fun blank k ahead =>
      (stops k ahead).2.resolve_left (by simp [blank])
  exact ⟨u,⟨before,stopsFirst⟩,after,fun k ahead => (stops k ahead).1⟩

theorem orElse_cases (settled : (orElse a b).settled = true)
    (derives : Derives bodyForm (orElse a b).form w v) (spread : Spread w)
    (stops : (orElse a b).StopsAt v) :
    Derives bodyForm a.form w v ∧ a.StopsAt v ∨
      (Derives bodyForm b.form w v ∧ b.StopsAt v) ∧ a.AbsentAt w := by
  simp only [Expr.settled,Bool.and_eq_true,Bool.not_eq_true',anyKind_eq_false] at settled
  simp only [StopsAt,goesOn,Bool.or_eq_false_iff] at stops
  rcases Derives.alt_iff.mp derives with derives | derives
  · exact .inl ⟨derives,fun k ahead => (stops k ahead).1⟩
  · refine .inr ⟨⟨derives,fun k ahead => (stops k ahead).2⟩,fun k ahead => ?_⟩
    rcases first_of_derives settled.1.1.1.2 derives spread with ⟨blank,-⟩ | ⟨-,k',starts,ahead'⟩
    · simp [settled.1.2] at blank
    · rw [ahead] at ahead'
      cases ahead'
      simpa [starts] using settled.2 k

theorem optional_cases (derives : Derives bodyForm (optional a).form w v)
    (stops : (optional a).StopsAt v) :
    v = w ∧ a.AbsentAt w ∨ Derives bodyForm a.form w v ∧ a.StopsAt v := by
  simp only [StopsAt,goesOn,Bool.or_eq_false_iff] at stops
  rcases Derives.opt_iff.mp derives with rfl | derives
  · exact .inl ⟨rfl,fun k ahead => (stops k ahead).2⟩
  · exact .inr ⟨derives,fun k ahead => (stops k ahead).1⟩

theorem many_cases (settled : (many a).settled = true)
    (derives : Derives bodyForm (many a).form w v) (spread : Spread w)
    (stops : (many a).StopsAt v) :
    v = w ∧ a.AbsentAt w ∨ ∃ u, (Derives bodyForm a.form w u ∧ a.StopsAt u) ∧
      Derives bodyForm (many a).form u v := by
  have parts := stops
  simp only [StopsAt,goesOn,Bool.or_eq_false_iff] at parts
  cases derives with
  | starNil => exact .inl ⟨rfl,fun k ahead => (parts k ahead).2⟩
  | starCons before after =>
    have apart := settled
    simp only [Expr.settled,Bool.and_eq_true,Bool.not_eq_true',anyKind_eq_false] at apart
    have stopsBody := stops_before settled apart.2 after (before.spread spread)
      fun _ k ahead => (parts k ahead).1
    exact .inr ⟨_,⟨before,stopsBody⟩,after⟩

theorem next_cases_of_contains {yes no : Expr} {x : List Terminal} {k : Terminal}
    (settled : (next kinds yes no).settled = true)
    (derives : Derives bodyForm (next kinds yes no).form w v) (spread : Spread w) (near : Near w x)
    (head : x.head? = some k) (member : kinds.contains k = true)
    (stops : (next kinds yes no).StopsAt v) :
    Derives bodyForm yes.form w v ∧ yes.StopsAt v ∨ yes = .done ∧ Near v x := by
  simp only [Expr.settled,Bool.and_eq_true,Bool.or_eq_true,Bool.not_eq_true',
    anyKind_eq_false] at settled
  simp only [StopsAt,goesOn,Bool.or_eq_false_iff,Bool.and_eq_false_iff] at stops
  obtain ⟨⟨⟨⟨⟨⟨-,settledNo⟩,-⟩,notWhite⟩,-⟩,-⟩,noStarts⟩ := settled
  rcases Derives.alt_iff.mp derives with derives | derives
  · exact .inl ⟨derives,fun k ahead => (stops k ahead).1.1.1⟩
  · have dark : k ≠ .whitespace := fun same => by simp_all
    have ahead : ahead? w = some k := (near.ahead? spread).trans (by simp [ahead?,head,dark])
    rcases first_of_derives settledNo derives spread with ⟨blank,stays⟩ | ⟨-,k',starts,ahead'⟩
    · have isDone := (stops k ((stays.ahead? spread).symm.trans ahead)).2
      simp only [blank,member,Bool.true_eq_false,or_false,false_or] at isDone
      refine .inr ⟨?_,near.of_near stays (by simp [head,dark])⟩
      cases yes <;> simp [Expr.isDone] at isDone ⊢
    · rw [ahead] at ahead'
      cases ahead'
      have apart := noStarts k
      rw [starts,member] at apart
      cases apart

theorem next_cases_of_not_contains {yes no : Expr} {x : List Terminal}
    (settled : (next kinds yes no).settled = true)
    (derives : Derives bodyForm (next kinds yes no).form w v) (spread : Spread w) (near : Near w x)
    (notHere : x.head?.any kinds.contains = false) (stops : (next kinds yes no).StopsAt v) :
    Derives bodyForm no.form w v ∧ no.StopsAt v ∨ (v = w ∧ no.AbsentAt w) ∧ no.sure = true := by
  simp only [Expr.settled,Bool.and_eq_true,Bool.or_eq_true,Bool.not_eq_true',
    anyKind_eq_false] at settled
  simp only [StopsAt,goesOn,Bool.or_eq_false_iff,Bool.and_eq_false_iff] at stops
  obtain ⟨⟨⟨⟨⟨⟨settledYes,-⟩,tight⟩,-⟩,sure⟩,yesStarts⟩,-⟩ := settled
  rcases Derives.alt_iff.mp derives with derives | derives
  · have head := derives.head_ne_of_tight tight spread
    rcases first_of_derives settledYes derives spread with ⟨blank,stays⟩ | ⟨less,k,starts,ahead⟩
    · obtain rfl : v = w := head.elim id fun head => (stays.eq_of_head_ne head).symm
      exact .inr ⟨⟨rfl,fun k ahead => (stops k ahead).1.2.resolve_left (by simp [blank])⟩,
        sure.resolve_left (by simp [blank])⟩
    · -- What starts here is among the kinds of the choice.
      have head : w.head? ≠ some .whitespace := head.resolve_left fun same => by simp [same] at less
      have member : kinds.contains k = true := by simpa [starts] using yesStarts k
      rw [ahead?,if_neg head] at ahead
      rw [← near.eq_of_head_ne head,ahead,Option.any_some,member] at notHere
      cases notHere
  · exact .inl ⟨derives,fun k ahead => (stops k ahead).1.1.2⟩

end Expr

namespace Trail

variable {e : Expr} {c : Cursor} {ending : Ending} {T : List Entry} {w v : List Terminal}

theorem not_blank_of_some (h : Trail e c ending T) (stops : ending.stop?.isSome = true)
    (sound : e.predictive = true) (notBlank : e.blankable = false) : ¬Blank T := by
  intro blank
  cases ending with
  | complete d => simp [h.blankable_of_blank sound blank] at notBlank
  | broken resting f =>
    cases resting with
    | none => simp at stops
    | some d => exact h.not_blank_of_rests blank

theorem blank_of_absentAt (h : Trail e c ending T) (settled : e.settled = true)
    (sound : e.predictive = true) (spaced : c.Spaced) (near : Near w c.kinds) (spread : Spread w)
    (absent : e.AbsentAt w) : Blank T := by
  by_contra dark
  obtain ⟨k,ahead,starts,-⟩ := h.starts spaced sound dark (starts_whitespace_of_settled settled)
  simp [absent k ((near.ahead?_cursor spread).trans ahead)] at starts

theorem complete_of_blank (h : Trail e c ending T) (sure : e.sure = true) (blank : Blank T) :
    ending = .complete ending.reach := by
  have stops := h.isSome_of_sure sure
  cases ending with
  | complete d => rfl
  | broken resting f =>
    cases resting with
    | none => simp at stops
    | some d => exact absurd blank h.not_blank_of_rests

theorem near_of_blank (h : Trail e c ending T) (spaced : c.Spaced) (sound : e.predictive = true)
    (blank : Blank T) (near : Near w c.kinds) (spread : Spread w) : Near w ending.reach.kinds := by
  rcases h.blank_cases spaced sound blank with ⟨-,stays⟩ | ⟨white,-,moves⟩
  · exact stays ▸ near
  · have kinds := Cursor.kinds_of_isAt white
    rw [moves]
    refine near.elim (fun same => .inr (same.trans kinds)) fun same => ?_
    rw [same,kinds] at spread
    simpa using spread.head_ne

theorem value_of_derives (h : Trail (body .regExp) c ending T)
    (derives : Derives bodyForm (.rule .regExp) w v) (near : Near w c.kinds) :
    ∃ d, ending = .complete d ∧ Near v d.kinds := by
  cases derives with
  | rule derives =>
    obtain ⟨u,opens,-⟩ : ∃ u, w = .quote :: u ∧
        Derives bodyForm (.all [.alt .empty (.opt (.rule .regExpRaw)),.kind .quote]) u v :=
      by simpa [bodyForm,body,Expr.steps,Expr.mark,Expr.form] using derives
    have same := near.eq_of_head_ne (by simp [opens])
    obtain ⟨d,complete,same⟩ := h.regExp_of_derives (same ▸ derives)
    exact ⟨d,complete,.inl same⟩

end Trail

/-- Wherever a derivation ends at a token with which the expression would not go on, the trail
completes there, but that it may have taken white space that the derivation leaves. -/
def Completes (e : Expr) (c : Cursor) (ending : Ending) : Prop :=
  ∀ ⦃w v : List Terminal⦄, Derives bodyForm e.form w v ∧ e.StopsAt v → Spread w →
    Near w c.kinds → ∃ d, ending = .complete d ∧ Near v d.kinds

namespace Completes

variable {e : Expr} {c f : Cursor} {resting : Option Cursor} {kind : Terminal}
  {tag : Terminal} {w v : List Terminal}

/-- A trail that breaks off has no such derivation. -/
theorem false_of_broken (h : Completes e c (.broken resting f))
    (derives : Derives bodyForm e.form w v ∧ e.StopsAt v) (spread : Spread w)
    (near : Near w c.kinds) : False := by
  obtain ⟨d,same,-⟩ := h derives spread near
  cases same

theorem token (at_ : c.isAt kind = true) (dark : kind ≠ .whitespace) :
    Completes (.token kind tag) c (.complete (c.advance 1)) := by
  rintro w v ⟨derives,-⟩ - near
  obtain rfl := Derives.kind_iff.mp derives
  have same := near.eq_of_head_ne (by simpa using dark)
  rw [Cursor.kinds_of_isAt at_] at same
  exact ⟨_,rfl,.inl (List.cons.inj same).2⟩

theorem noToken (notAt : c.isAt kind = false) (dark : kind ≠ .whitespace) :
    Completes (.token kind tag) c (.broken none c) := by
  rintro w v ⟨derives,-⟩ - near
  obtain rfl := Derives.kind_iff.mp derives
  have same := near.eq_of_head_ne (by simpa using dark)
  have : c.isAt kind = true := Cursor.isAt_iff_head?.mpr (by rw [← same]; rfl)
  simp [this] at notAt

theorem trivia (at_ : c.isAt .whitespace = true) :
    Completes .trivia c (.complete (c.advance 1)) := by
  rintro w v ⟨derives,-⟩ spread near
  rw [Near,Cursor.kinds_of_isAt at_] at near
  refine ⟨_,rfl,?_⟩
  rcases near with rfl | rfl
  · rcases Derives.blank_iff.mp derives with rfl | same
    · exact .inr rfl
    · exact .inl (List.cons.inj same).2.symm
  · simpa using spread.head_ne

theorem noTrivia (notAt : c.isAt .whitespace = false) : Completes .trivia c (.complete c) := by
  rintro w v ⟨derives,-⟩ - near
  refine ⟨_,rfl,?_⟩
  rcases Derives.blank_iff.mp derives with rfl | same
  · exact near
  · refine near.of_near (.inr same) fun head => ?_
    simp [Cursor.isAt_iff_head?.mpr head] at notAt

end Completes

/-- Reading a settled expression as far as its tokens go loses no derivation. -/
theorem Trail.completes {e : Expr} {c : Cursor} {ending : Ending} {T : List Entry}
    (h : Trail e c ending T) (settled : e.settled = true) (sound : e.predictive = true)
    (spaced : c.Spaced) : Completes e c ending := by
  induction h with
  | done =>
    rintro w v ⟨derives,-⟩ - near
    obtain rfl := Derives.empty_iff.mp derives
    exact ⟨_,rfl,near⟩
  | reject => simp [Completes,Expr.form]
  | token at_ => exact .token at_ (by simpa [Expr.settled] using settled)
  | noToken notAt => exact .noToken notAt (by simpa [Expr.settled] using settled)
  | trivia at_ => exact .trivia at_
  | noTrivia notAt => exact .noTrivia notAt
  | escape | noEscape | run | noRun => simp [Expr.settled] at settled
  | @call r _ _ _ inner ih | @callBroken r _ _ _ inner ih | @callRests r _ _ _ _ inner _ ih =>
    rintro w v ⟨derives,stops⟩ spread near
    by_cases value : r = .regExp
    · subst value
      exact inner.value_of_derives derives near
    · cases derives with
      | rule derives =>
        exact ih (settled_body settled value) (predictive_body r) spaced
          ⟨derives,Expr.stopsAt_body settled stops⟩ spread near
  | andThen first _ ihFirst ihSecond =>
    rintro w v ⟨derives,stops⟩ spread near
    obtain ⟨u,before,after⟩ := Expr.andThen_cases settled derives spread stops
    simp only [Expr.settled,Expr.predictive,Bool.and_eq_true] at settled sound
    obtain ⟨m,same,near⟩ := ihFirst settled.1.1 sound.1.1.1 spaced before spread near
    cases same
    exact ihSecond settled.1.2 sound.1.1.2 (first.reach.spaced spaced) after (before.1.spread spread)
      near
  | andThenBroken _ ih | andThenRests _ _ _ _ ih _ | andThenGivesUp _ _ _ ih _ =>
    rintro w v ⟨derives,stops⟩ spread near
    obtain ⟨u,before,-⟩ := Expr.andThen_cases settled derives spread stops
    simp only [Expr.settled,Expr.predictive,Bool.and_eq_true] at settled sound
    exact ((ih settled.1.1 sound.1.1.1 spaced).false_of_broken before spread near).elim
  | orElse first onward ih =>
    rintro w v ⟨derives,stops⟩ spread near
    have parts := settled
    simp only [Expr.settled,Expr.predictive,Bool.and_eq_true,Bool.not_eq_true'] at parts sound
    rcases Expr.orElse_cases settled derives spread stops with chosen | ⟨-,absent⟩
    · exact ih parts.1.1.1.1 sound.1.1 spaced chosen spread near
    · have blank := first.blank_of_absentAt parts.1.1.1.1 sound.1.1 spaced near spread absent
      exact absurd blank (first.not_blank_of_some onward sound.1.1 parts.1.1.2)
  | orElseSecond _ _ ihFirst ihSecond =>
    rintro w v ⟨derives,stops⟩ spread near
    have parts := settled
    simp only [Expr.settled,Expr.predictive,Bool.and_eq_true] at parts sound
    rcases Expr.orElse_cases settled derives spread stops with chosen | ⟨chosen,-⟩
    · exact ((ihFirst parts.1.1.1.1 sound.1.1 spaced).false_of_broken chosen spread near).elim
    · exact ihSecond parts.1.1.1.2 sound.1.2 spaced chosen spread near
  | optional first onward ih =>
    rintro w v ⟨derives,stops⟩ spread near
    simp only [Expr.settled,Expr.predictive,Bool.and_eq_true,Bool.not_eq_true'] at settled sound
    rcases Expr.optional_cases derives stops with ⟨-,absent⟩ | chosen
    · have blank := first.blank_of_absentAt settled.1 sound.1.1 spaced near spread absent
      exact absurd blank (first.not_blank_of_some onward sound.1.1 settled.2)
    · exact ih settled.1 sound.1.1 spaced chosen spread near
  | optionalNone first _ ih =>
    rintro w v ⟨derives,stops⟩ spread near
    simp only [Expr.settled,Expr.predictive,Bool.and_eq_true] at settled sound
    rcases Expr.optional_cases derives stops with ⟨rfl,-⟩ | chosen
    · exact ⟨_,rfl,near⟩
    · exact ((ih settled.1 sound.1.1 spaced).false_of_broken chosen spread near).elim
  | optionalRests first dark ih =>
    rintro w v ⟨derives,stops⟩ spread near
    simp only [Expr.settled,Expr.predictive,Bool.and_eq_true] at settled sound
    rcases Expr.optional_cases derives stops with ⟨-,absent⟩ | chosen
    · exact absurd (first.blank_of_absentAt settled.1 sound.1.1 spaced near spread absent) dark
    · exact ((ih settled.1 sound.1.1 spaced).false_of_broken chosen spread near).elim
  | attempt _ ih => exact ih settled sound spaced
  | manyNone _ _ ih =>
    rintro w v ⟨derives,stops⟩ spread near
    rcases Expr.many_cases settled derives spread stops with ⟨rfl,-⟩ | ⟨u,before,-⟩
    · exact ⟨_,rfl,near⟩
    · simp only [Expr.settled,Bool.and_eq_true] at settled
      have body := ih settled.1.1 (predictive_of_many sound) spaced
      exact (body.false_of_broken before spread near).elim
  | manyMore first _ ihFirst ihSecond =>
    rintro w v ⟨derives,stops⟩ spread near
    have parts := settled
    simp only [Expr.settled,Bool.and_eq_true,Bool.not_eq_true'] at parts
    rcases Expr.many_cases settled derives spread stops with ⟨-,absent⟩ | ⟨u,before,after⟩
    · have blank := first.blank_of_absentAt parts.1.1 (predictive_of_many sound) spaced near spread
        absent
      exact absurd blank (first.not_blank_of_some rfl (predictive_of_many sound) parts.1.2)
    · obtain ⟨m,same,near⟩ :=
        ihFirst parts.1.1 (predictive_of_many sound) spaced before spread near
      cases same
      exact ihSecond settled sound (first.reach.spaced spaced) ⟨after,stops⟩
        (before.1.spread spread) near
  | manyRests first dark ih =>
    rintro w v ⟨derives,stops⟩ spread near
    have parts := settled
    simp only [Expr.settled,Bool.and_eq_true] at parts
    rcases Expr.many_cases settled derives spread stops with ⟨-,absent⟩ | ⟨u,before,-⟩
    · exact absurd (first.blank_of_absentAt parts.1.1 (predictive_of_many sound) spaced near spread
        absent) dark
    · have body := ih parts.1.1 (predictive_of_many sound) spaced
      exact (body.false_of_broken before spread near).elim
  | manyStops first ih =>
    rintro w v ⟨derives,stops⟩ spread near
    have parts := settled
    simp only [Expr.settled,Bool.and_eq_true] at parts
    rcases Expr.many_cases settled derives spread stops with ⟨-,absent⟩ | ⟨u,before,-⟩
    · exact absurd (first.blank_of_absentAt parts.1.1 (predictive_of_many sound) spaced near spread
        absent) first.not_blank_of_rests
    · have body := ih parts.1.1 (predictive_of_many sound) spaced
      exact (body.false_of_broken before spread near).elim
  | nextYes here yesTrail ih =>
    rintro w v ⟨derives,stops⟩ spread near
    obtain ⟨k,kind,member⟩ := (Option.any_eq_true ..).mp here
    rw [Cursor.kind?_eq_head?] at kind
    rcases Expr.next_cases_of_contains settled derives spread near kind member stops with
      chosen | ⟨rfl,near⟩
    · simp only [Expr.settled,Expr.predictive,Bool.and_eq_true] at settled sound
      exact ih settled.1.1.1.1.1.1 sound.1 spaced chosen spread near
    · cases yesTrail
      exact ⟨_,rfl,near⟩
  | nextNo notHere noTrail ih =>
    rintro w v ⟨derives,stops⟩ spread near
    rw [Cursor.kind?_eq_head?] at notHere
    have cases := Expr.next_cases_of_not_contains settled derives spread near notHere stops
    simp only [Expr.settled,Expr.predictive,Bool.and_eq_true] at settled sound
    rcases cases with chosen | ⟨⟨rfl,absent⟩,sure⟩
    · exact ih settled.1.1.1.1.1.2 sound.2 spaced chosen spread near
    · have blank := noTrail.blank_of_absentAt settled.1.1.1.1.1.2 sound.2 spaced near spread absent
      exact ⟨_,noTrail.complete_of_blank sure blank,
        noTrail.near_of_blank spaced sound.2 blank near spread⟩

end Grammar

end CorpusQuery
