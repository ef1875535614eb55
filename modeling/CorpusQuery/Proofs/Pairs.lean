import CorpusQuery.Proofs.Roles

/-! What attribute-value pairs hold. A pair that holds no other holds one name, and every name in a
pair is the one of such a pair. -/
namespace CorpusQuery

namespace Grammar

open Grammar.Expr

def assignment : Expr :=
  steps [.trivia,.orElse (mark .notEq) (mark .eq),.trivia,.call .regExp]

@[simp] theorem assignment_holds_attName : assignment.holds (.nonTerminal .attName) = false := rfl

@[simp] theorem assignment_holds_attVal : assignment.holds (.nonTerminal .attVal) = false := rfl

namespace Expr

def paired : Expr → Bool
  | .call r => [NonTerminal.attVal,.attValAnd,.attValList].contains r ||
      r != .attName && !r.holds (.nonTerminal .attName)
  | .andThen first second | .orElse first second | .next _ first second =>
    first.paired && second.paired
  | .optional body | .attempt body | .many body => body.paired
  | _ => true

def naming : Expr → Bool
  | .call r => [NonTerminal.attVal,.attValAnd,.attValList,.attName].contains r
  | .andThen first second => first.naming || second.naming
  | .orElse first second | .next _ first second => first.naming && second.naming
  | .attempt body => body.naming
  | _ => false

end Expr

namespace Trail

variable {e : Expr} {c d : Cursor} {T : List Entry} {name : Span}

theorem exists_name (h : Trail e c (.complete d) T) (naming : e.naming = true) :
    ∃ name, (.nonTerminal .attName,name) ∈ T := by
  generalize same : Ending.complete d = ending at h
  induction h generalizing d with
  | @call r c d' T inner ih =>
    have cases_ : r = .attName ∨ (body r).naming = true := by
      revert naming
      cases r <;> decide
    rcases cases_ with rfl | naming
    · exact ⟨⟨c.offset,d'.offset⟩,by simp [Cursor.branch]⟩
    · obtain ⟨name,member⟩ := ih naming rfl
      exact ⟨name,List.mem_append_left _ member⟩
  | andThen _ _ ihFirst ihSecond =>
    rw [Expr.naming,Bool.or_eq_true] at naming
    rcases naming with first | second
    · obtain ⟨name,member⟩ := ihFirst first rfl
      exact ⟨name,List.mem_append_left _ member⟩
    · obtain ⟨name,member⟩ := ihSecond second same
      exact ⟨name,List.mem_append_right _ member⟩
  | orElse _ _ ih | nextYes _ _ ih =>
    rw [Expr.naming,Bool.and_eq_true] at naming
    exact ih naming.1 same
  | orElseSecond _ _ _ ih | nextNo _ _ ih =>
    rw [Expr.naming,Bool.and_eq_true] at naming
    exact ih naming.2 same
  | attempt _ ih => exact ih naming same
  | done | token | trivia | noTrivia | escape | run | optional | optionalNone | manyNone
  | manyMore => simp [Expr.naming] at naming
  | reject | noToken | noEscape | noRun | callBroken | callRests | andThenBroken | andThenRests
  | andThenGivesUp | optionalRests | manyRests | manyStops => cases same

theorem pair_of_name (h : Trail e c (.complete d) T) (paired : e.paired = true)
    (member : (.nonTerminal .attName,name) ∈ T) :
    ∃ pair, (.nonTerminal .attVal,pair) ∈ T ∧ pair.contains name = true := by
  -- A name in one of two parts is in a pair of that part.
  have left {T U : List Entry}
      (h : ∃ pair, (.nonTerminal .attVal,pair) ∈ T ∧ pair.contains name = true) :
      ∃ pair, (.nonTerminal .attVal,pair) ∈ T ++ U ∧ pair.contains name = true :=
    h.imp fun _ h => h.imp_left (List.mem_append_left _)
  have right {T U : List Entry}
      (h : ∃ pair, (.nonTerminal .attVal,pair) ∈ U ∧ pair.contains name = true) :
      ∃ pair, (.nonTerminal .attVal,pair) ∈ T ++ U ∧ pair.contains name = true :=
    h.imp fun _ h => h.imp_left (List.mem_append_right _)
  generalize same : Ending.complete d = ending at h
  induction h generalizing d with
  | @call r c d' T inner ih =>
    by_cases isPair : r = .attVal
    · subst isPair
      refine ⟨⟨c.offset,d'.offset⟩,by simp [Cursor.branch],?_⟩
      have inT : (.nonTerminal .attName,name) ∈ T := by simpa [Cursor.branch] using member
      have := inner.bounds _ inT
      exact Span.contains_iff.mpr ⟨this.1,this.2.2⟩
    · have notName : r ≠ .attName := by
        rintro rfl
        simp [Expr.paired] at paired
      have inT : (.nonTerminal .attName,name) ∈ T := by
        simpa [Cursor.branch,notName.symm] using member
      have cases_ : (body r).paired = true ∨ r.holds (.nonTerminal .attName) = false := by
        revert paired isPair notName
        cases r <;> decide
      rcases cases_ with paired | nameless
      · exact left (ih paired inT rfl)
      · simp [holds_of_body (inner.holds _ inT)] at nameless
  | andThen _ _ ihFirst ihSecond =>
    rw [Expr.paired,Bool.and_eq_true] at paired
    rcases List.mem_append.mp member with first | second
    · exact left (ihFirst paired.1 first rfl)
    · exact right (ihSecond paired.2 second same)
  | manyMore _ _ ihFirst ihSecond =>
    rcases List.mem_append.mp member with first | second
    · exact left (ihFirst paired first rfl)
    · exact right (ihSecond paired second same)
  | orElse _ _ ih | nextYes _ _ ih =>
    rw [Expr.paired,Bool.and_eq_true] at paired
    exact ih paired.1 member same
  | orElseSecond _ _ _ ih | nextNo _ _ ih =>
    rw [Expr.paired,Bool.and_eq_true] at paired
    exact ih paired.2 member same
  | optional _ _ ih | attempt _ ih => exact ih paired member same
  | done | token | trivia | noTrivia | escape | run | optionalNone | manyNone =>
    simp [Cursor.leaf] at member
  | reject | noToken | noEscape | noRun | callBroken | callRests | andThenBroken | andThenRests
  | andThenGivesUp | optionalRests | manyRests | manyStops => cases same

theorem attVal_cases (h : Trail (body .attVal) c (.complete d) T) :
    (∃ t e U, Trail e (c.advance 1) (.complete d) U ∧ e.paired = true ∧ e.naming = true ∧
      T = c.leaf t 1 :: U) ∨
    ∃ U, Trail assignment (c.advance 1) (.complete d) U ∧
      T = c.leaf .attrChars 1 :: c.branch .attName (c.advance 1) :: U := by
  cases h with
  | nextYes _ h =>
    cases h with
    | andThen mark rest =>
      cases mark with
      | token => exact .inl ⟨_,_,_,rest,rfl,rfl,rfl⟩
  | nextNo _ h =>
    cases h with
    | nextYes _ h =>
      cases h with
      | andThen mark rest =>
        cases mark with
        | token => exact .inl ⟨_,_,_,rest,rfl,rfl,rfl⟩
    | nextNo _ h =>
      cases h with
      | andThen name rest =>
        cases name with
        | call inner =>
          cases inner with
          | token => exact .inr ⟨_,rest,rfl⟩

theorem parts_of_andThen {a b : Expr} (h : Trail (.andThen a b) c (.complete d) T) :
    ∃ m U V, Trail a c (.complete m) U ∧ Trail b m (.complete d) V ∧ T = U ++ V := by
  cases h with
  | andThen first second => exact ⟨_,_,_,first,second,rfl⟩

end Trail

end Grammar

open Grammar

namespace Outline

variable {full : Text} {T : List Entry} {pair name : Span}

theorem exists_name_in (x : Outline full T) (isPair : (.nonTerminal .attVal,pair) ∈ T) :
    ∃ name, (.nonTerminal .attName,name) ∈ T ∧ pair.contains name = true := by
  obtain ⟨p⟩ := x.placed isPair rfl
  obtain ⟨name,member⟩ := p.trail.exists_name rfl
  exact ⟨name,p.mem_of_inner member,p.contains_of_inner member⟩

theorem name_mem_inner (x : Outline full T) (p : Placed x.expr x.start T .attVal pair)
    (isName : (.nonTerminal .attName,name) ∈ T) (contains : pair.contains name = true) :
    (.nonTerminal .attName,name) ∈ p.inner := by
  rw [Span.contains_iff] at contains
  have := x.proper isName rfl
  exact p.mem_inner_of_start x.trail x.inside isName rfl rfl (by simp) contains.1
    (this.trans_le contains.2)

/-- What stands behind the mark of a negated or grouped pair starts after the pair does. -/
theorem start_lt_of_mark (x : Outline full T) (p : Placed x.expr x.start T .attVal pair)
    {e : Expr} {t : Terminal} {U : List Entry} {y : Entry}
    (rest : Trail e (p.start.advance 1) (.complete p.stop) U) (split : p.inner = p.start.leaf t 1 :: U)
    (member : y ∈ U) : pair.start < y.2.start := by
  have mark := x.proper (p.mem_of_inner (y := p.start.leaf t 1) (by simp [split])) rfl
  have := (rest.bounds y member).1
  rw [← p.start_eq]
  exact mark.trans_le this

theorem name_ne_pair (x : Outline full T) (isPair : (.nonTerminal .attVal,pair) ∈ T)
    (isName : (.nonTerminal .attName,name) ∈ T) : name ≠ pair := by
  rintro rfl
  obtain ⟨p⟩ := x.placed isPair rfl
  have inInner := x.name_mem_inner p isName (by simp)
  rcases p.trail.attVal_cases with ⟨t,e,U,rest,-,-,split⟩ | ⟨U,rest,split⟩
  · have inU : (.nonTerminal .attName,name) ∈ U := by simpa [split,Cursor.leaf] using inInner
    exact Nat.lt_irrefl _ (x.start_lt_of_mark p rest split inU)
  · have longer := rest.offset_lt (by decide) rfl ((p.inside x.inside).advance 1)
    simp only [split,Cursor.leaf,Cursor.branch,List.mem_cons,Prod.mk.injEq,reduceCtorEq,false_and,
      false_or,true_and] at inInner
    rcases inInner with same | inU
    · have := p.stop_eq.trans (congrArg Span.stop same)
      simp only at this
      omega
    · simpa using rest.holds _ inU

theorem strictlyContains_name (x : Outline full T) (isPair : (.nonTerminal .attVal,pair) ∈ T)
    (isName : (.nonTerminal .attName,name) ∈ T) (contains : pair.contains name = true) :
    pair.strictlyContains name = true := by
  rw [Span.strictlyContains_iff]
  exact ⟨x.name_ne_pair isPair isName,Span.contains_iff.mp contains⟩

theorem leafPair_of_assignment (x : Outline full T) (isPair : (.nonTerminal .attVal,pair) ∈ T)
    (p : Placed x.expr x.start T .attVal pair) {U : List Entry}
    (rest : Trail assignment (p.start.advance 1) (.complete p.stop) U)
    (split : p.inner = p.start.leaf .attrChars 1 ::
      p.start.branch .attName (p.start.advance 1) :: U) : LeafPair T pair := by
  refine ⟨isPair,fun inner member => Bool.eq_false_iff.mpr fun holds => ?_⟩
  have inInner := p.mem_inner x.trail x.inside member rfl holds
  have inU : (.nonTerminal .attVal,inner) ∈ U := by
    simpa [split,Cursor.leaf,Cursor.branch] using inInner
  simpa using rest.holds _ inU

theorem not_leafPair_of_mark (x : Outline full T) (p : Placed x.expr x.start T .attVal pair)
    {e : Expr} {t : Terminal} {U : List Entry}
    (rest : Trail e (p.start.advance 1) (.complete p.stop) U) (paired : e.paired = true)
    (naming : e.naming = true) (split : p.inner = p.start.leaf t 1 :: U) : ¬LeafPair T pair := by
  intro leaf
  obtain ⟨name,member⟩ := rest.exists_name naming
  obtain ⟨inner,isInner,-⟩ := rest.pair_of_name paired member
  have later := x.start_lt_of_mark p rest split isInner
  have member : (.nonTerminal .attVal,inner) ∈ p.inner := by simp [split,isInner]
  have within := p.contains_of_inner member
  have alone := leaf.alone inner (p.mem_of_inner member)
  refine absurd ?_ (Bool.eq_false_iff.mp alone)
  rw [Span.strictlyContains_iff]
  exact ⟨fun same => by simp [same] at later,Span.contains_iff.mp within⟩

theorem name_unique (x : Outline full T) (leaf : LeafPair T pair) {other : Span}
    (isName : (.nonTerminal .attName,name) ∈ T) (contains : pair.contains name = true)
    (isOther : (.nonTerminal .attName,other) ∈ T) (holds : pair.contains other = true) :
    name = other := by
  obtain ⟨p⟩ := x.placed leaf.matched rfl
  have inInner := x.name_mem_inner p isName contains
  have otherInner := x.name_mem_inner p isOther holds
  rcases p.trail.attVal_cases with ⟨t,e,U,rest,paired,naming,split⟩ | ⟨U,rest,split⟩
  · exact absurd leaf (x.not_leafPair_of_mark p rest paired naming split)
  · have only (name : Span) (inInner : (.nonTerminal .attName,name) ∈ p.inner) :
        name = ⟨p.start.offset,(p.start.advance 1).offset⟩ := by
      simp only [split,Cursor.leaf,Cursor.branch,List.mem_cons,Prod.mk.injEq,reduceCtorEq,false_and,
        false_or,true_and] at inInner
      refine inInner.resolve_right fun inU => ?_
      simpa using rest.holds _ inU
    rw [only name inInner,only other otherInner]

theorem exists_leafPair (x : Outline full T) (isPair : (.nonTerminal .attVal,pair) ∈ T)
    (isName : (.nonTerminal .attName,name) ∈ T) (contains : pair.contains name = true) :
    ∃ leaf, LeafPair T leaf ∧ pair.contains leaf = true ∧ leaf.contains name = true := by
  induction length : pair.stop - pair.start using Nat.strong_induction_on generalizing pair with
  | _ n ih =>
  obtain ⟨p⟩ := x.placed isPair rfl
  have inInner := x.name_mem_inner p isName contains
  rcases p.trail.attVal_cases with ⟨t,e,U,rest,paired,-,split⟩ | ⟨U,rest,split⟩
  · have inU : (.nonTerminal .attName,name) ∈ U := by simpa [split,Cursor.leaf] using inInner
    obtain ⟨inner,isInner,holds⟩ := rest.pair_of_name paired inU
    have later := x.start_lt_of_mark p rest split isInner
    have member : (.nonTerminal .attVal,inner) ∈ p.inner := by simp [split,isInner]
    have within := Span.contains_iff.mp (p.contains_of_inner member)
    have proper := x.proper (p.mem_of_inner member) rfl
    simp only at later within proper
    obtain ⟨leaf,isLeaf,around,holds⟩ :=
      ih _ (by omega) (p.mem_of_inner member) holds rfl
    rw [Span.contains_iff] at around
    exact ⟨leaf,isLeaf,Span.contains_iff.mpr ⟨by omega,by omega⟩,holds⟩
  · exact ⟨pair,x.leafPair_of_assignment isPair p rest split,by simp,contains⟩

end Outline

end CorpusQuery
