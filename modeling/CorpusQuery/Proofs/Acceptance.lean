import CorpusQuery.Proofs.Greediness
import CorpusQuery.Proofs.Tiling

/-! A text is accepted exactly when the documented grammar derives its tokens. -/
namespace CorpusQuery

open Grammar

namespace Grammar.Trail

variable {c : Cursor} {ending : Ending} {T : List Entry} {u : List Terminal}

/-- White space that may stand at a place is passed over; what is left is what stands behind it. -/
theorem kinds_of_trivia (h : Trail .trivia c ending T) : ∃ d, ending = .complete d ∧
    ∀ w, (c.kinds = .whitespace :: w ∨ c.kinds = w ∧ c.kinds.head? ≠ some .whitespace) ↔
      d.kinds = w := by
  cases h with
  | trivia white =>
    have split := Cursor.kinds_of_isAt white
    refine ⟨_,rfl,fun w => ⟨?_,fun same => .inl (same ▸ split)⟩⟩
    rintro (same | ⟨-,dark⟩)
    · exact (List.cons.inj (split.symm.trans same)).2
    · exact absurd (Cursor.isAt_iff_head?.mp white) dark
  | noTrivia notAt =>
    have dark : c.kinds.head? ≠ some .whitespace := by
      simp [← Cursor.isAt_iff_head?,notAt]
    refine ⟨_,rfl,fun w => ⟨?_,fun same => .inr ⟨same,dark⟩⟩⟩
    rintro (same | ⟨same,-⟩)
    · exact absurd (congrArg List.head? same) dark
    · exact same

/-- Where white space at most is left after a derivation from a start rule, the same is left after
the trail. -/
theorem start_of_derives {start : StartRule} (h : Trail (.call start.nonTerminal) c ending T)
    (spaced : c.Spaced) (derives : Derives bodyForm (.rule start.nonTerminal) c.kinds u)
    (ends : u = [] ∨ u = [.whitespace]) :
    ∃ d, ending = .complete d ∧ (d.kinds = [] ∨ d.kinds = [.whitespace]) := by
  have shorter {v : List Terminal} (suffix : v <:+ u) : v = [] ∨ v = [.whitespace] := by
    rcases ends with rfl | rfl
    · exact .inl (List.suffix_nil.mp suffix)
    · rcases List.suffix_cons_iff.mp suffix with same | suffix
      · exact .inr same
      · exact .inl (List.suffix_nil.mp suffix)
  have settled (plain : (Expr.call start.nonTerminal).settled = true) :
      ∃ d, ending = .complete d ∧ (d.kinds = [] ∨ d.kinds = [.whitespace]) := by
    have stops : (Expr.call start.nonTerminal).StopsAt u := by
      intro k ahead
      rcases ends with rfl | rfl <;> simp [ahead?] at ahead
    obtain ⟨d,complete,near⟩ :=
      h.completes plain rfl spaced ⟨derives,stops⟩ spaced.spread (.inl rfl)
    exact ⟨d,complete,shorter (near.elim (fun same => same ▸ List.suffix_rfl) fun same =>
      same ▸ List.suffix_cons ..)⟩
  cases start with
  | query | withinContainingPart | sequence | attValList => exact settled (by decide)
  | phraseQuery =>
    cases derives with
    | rule derives =>
      cases h with
      | call inner | callBroken inner | callRests inner =>
        obtain ⟨d,complete,same⟩ := inner.phraseQuery_of_derives spaced derives ends
        exact ⟨d,complete,same ▸ ends⟩
  | regExpRaw =>
    obtain ⟨d,complete,-,items⟩ := h.elements_of_derives rfl (fun _ => rfl) derives
    exact ⟨d,complete,shorter items.suffix⟩

end Grammar.Trail

/-- The start rule derives the tokens with white space around them; white space at their start is
not part of what the rule derives. -/
def StartRule.Accepts (start : StartRule) (kinds : List Terminal) : Prop :=
  ∃ w, (kinds = .whitespace :: w ∨ kinds = w ∧ kinds.head? ≠ some .whitespace) ∧
    Derives production (.seq (.rule start.nonTerminal) .blank) w []

namespace Reading

variable {full : Text} {start : StartRule}

theorem error_eq_none_iff (x : Reading full start) :
    (parse full start).error = none ↔ ∃ d, x.ending = .complete d ∧ d.kinds = [] := by
  have stops := x.stops
  have accepted : (parse full start).error = none ↔
      (start.recognizer ⟨0,tokenize full⟩).matched = true ∧
        (start.recognizer ⟨0,tokenize full⟩).cursor.kinds = [] := by
    simp only [parse]
    split
    next ok => simpa [Cursor.atEnd,Cursor.kinds] using ok
    next notOk => simpa [Cursor.atEnd,Cursor.kinds] using notOk
  rw [accepted]
  constructor
  · rintro ⟨matched,atEnd⟩
    simp only [matched,if_true] at stops
    cases same : x.ending with
    | complete d =>
      rw [same,Ending.stop?_complete] at stops
      exact ⟨d,rfl,Option.some.inj stops ▸ atEnd⟩
    | broken resting f =>
      rw [same,Ending.stop?_broken] at stops
      exact absurd (by simpa [Cursor.kinds] using atEnd) (x.waits _ f (stops ▸ same))
  · rintro ⟨d,same,atEnd⟩
    rw [same,Ending.stop?_complete] at stops
    split at stops
    next matched => exact ⟨matched,Option.some.inj stops ▸ atEnd⟩
    next => cases stops

end Reading

/-- A parse succeeds exactly when the documented grammar derives the tokens of the text. -/
theorem parse_error_eq_none_iff (source : Text) (start : StartRule) :
    (parse source start).error = none ↔ start.Accepts ((tokenize source).map Token.kind) := by
  obtain ⟨x⟩ := reading source start
  have spaced := Cursor.spaced_tokenize source
  rw [x.error_eq_none_iff]
  have trail := x.trail
  generalize x.path = T at trail
  constructor
  · rintro ⟨d,complete,atEnd⟩
    rw [complete] at trail
    cases trail with
    | andThen first second =>
      obtain ⟨m,same,skips⟩ := first.kinds_of_trivia
      cases same
      have derives := second.derives
      rw [atEnd] at derives
      exact ⟨_,(skips _).mpr rfl,
        (derives_production_iff (first.reach.spaced spaced).spread).mpr derives⟩
  · rintro ⟨w,split,derives⟩
    obtain ⟨m,_,⟨spaced,rfl⟩,h⟩ := trail.second_of_complete
      (P := fun m => m.Spaced ∧ m.kinds = w) fun ending _ first => by
        obtain ⟨m,rfl,skips⟩ := first.kinds_of_trivia
        exact ⟨m,rfl,first.reach.spaced spaced,(skips w).mp split⟩
    obtain ⟨u,rule,blank⟩ := Derives.seq_iff.mp ((derives_production_iff spaced.spread).mp derives)
    have ends : u = [] ∨ u = [.whitespace] :=
      (Derives.blank_iff.mp blank).imp Eq.symm id
    obtain ⟨d,_,left,h⟩ := h.second_of_complete fun _ _ h => h.start_of_derives spaced rule ends
    obtain ⟨last,complete,skips⟩ := h.kinds_of_trivia
    exact ⟨last,complete,(skips []).mp (left.symm.imp_right fun empty => ⟨empty,by simp [empty]⟩)⟩

end CorpusQuery
