import CorpusQuery.Proofs.Pairs

/-! What closed structures hold: their name, and pairs that are opened where the structure begins. -/
namespace CorpusQuery

namespace Grammar

open Grammar.Expr

def attributes : Expr := .many (steps [.trivia,.call .attVal])

@[simp] theorem attributes_holds_lt : attributes.holds (.terminal .lt) = false := rfl

@[simp] theorem attributes_holds_gt : attributes.holds (.terminal .gt) = false := rfl

/-- The trail of a structure: its name between marks, then its pairs, then marks again. -/
structure StructureParts (c : Cursor) (T : List Entry) where
  front : List Entry
  own : Span
  pairs : List Entry
  back : List Entry
  split : T = c.leaf .lt 1 :: (front ++ (.nonTerminal .attName,own) :: (pairs ++ back))
  marks : ∀ x ∈ front ++ back, ∃ t, x.1 = .terminal t
  plain : ∀ x ∈ front, Zone.isBracket x.1 = false
  closes : ∃ gt, (.terminal .gt,gt) ∈ back
  pairsStart : Cursor
  pairsStop : Cursor
  trail : Trail attributes pairsStart (.complete pairsStop) pairs

namespace Trail

variable {e : Expr} {c d : Cursor} {ending : Ending} {T : List Entry}

theorem only_terminals (h : Trail e c ending T) (noRule : ∀ r, e.holds (.nonTerminal r) = false) :
    ∀ x ∈ T, ∃ t, x.1 = .terminal t := by
  rintro ⟨t | r,span⟩ member
  · exact ⟨t,rfl⟩
  · simpa [noRule r] using h.holds _ member

theorem not_isBracket (h : Trail e c ending T) (lt : e.holds (.terminal .lt) = false)
    (gt : e.holds (.terminal .gt) = false) : ∀ x ∈ T, Zone.isBracket x.1 = false := by
  rintro ⟨s,span⟩ member
  have holds := h.holds _ member
  have notLt : s ≠ .terminal .lt := by
    rintro rfl
    simp [lt] at holds
  have notGt : s ≠ .terminal .gt := by
    rintro rfl
    simp [gt] at holds
  simp [Zone.isBracket,notLt,notGt]

theorem exists_gt (h : Trail (steps [.trivia,markIfAny .slash,mark .gt]) c (.complete d) T) :
    ∃ gt, (.terminal .gt,gt) ∈ T := by
  obtain ⟨_,_,_,-,fromSlash,rfl⟩ := h.parts_of_andThen
  obtain ⟨n,_,_,-,fromGt,rfl⟩ := fromSlash.parts_of_andThen
  obtain ⟨_,_,_,closes,-,rfl⟩ := fromGt.parts_of_andThen
  cases closes with
  | token => exact ⟨⟨n.offset,(n.advance 1).offset⟩,by simp [Cursor.leaf]⟩

theorem structureParts (h : Trail (body .structureTag) c (.complete d) T) :
    Nonempty (StructureParts c T) := by
  obtain ⟨_,_,_,opens,fromSpace,rfl⟩ := h.parts_of_andThen
  obtain ⟨_,W,_,space,fromSlash,rfl⟩ := fromSpace.parts_of_andThen
  obtain ⟨n,S,_,slash,fromName,rfl⟩ := fromSlash.parts_of_andThen
  obtain ⟨m,_,_,name,fromPairs,rfl⟩ := fromName.parts_of_andThen
  obtain ⟨f,U,R,pairs,closes,rfl⟩ := fromPairs.parts_of_andThen
  cases opens with
  | token =>
    cases name with
    | call inner =>
      cases inner with
      | token =>
        refine ⟨⟨W ++ S ++ [n.leaf .attrChars 1],⟨n.offset,(n.advance 1).offset⟩,U,R,
          by simp [Cursor.branch],?_,?_,closes.exists_gt,_,_,pairs⟩⟩
        · intro x member
          simp only [List.mem_append,List.mem_singleton] at member
          rcases member with ((space_ | slash_) | rfl) | closes_
          · exact space.only_terminals (fun _ => rfl) x space_
          · exact slash.only_terminals (fun r => by cases r <;> rfl) x slash_
          · exact ⟨_,rfl⟩
          · exact closes.only_terminals (fun r => by cases r <;> rfl) x closes_
        · intro x member
          simp only [List.mem_append,List.mem_singleton] at member
          rcases member with (space_ | slash_) | rfl
          · exact space.not_isBracket rfl rfl x space_
          · exact slash.not_isBracket rfl rfl x slash_
          · rfl

end Trail

end Grammar

open Grammar

def Grammar.Placed.opening {e : Expr} {c : Cursor} {T : List Entry} {span : Span}
    (p : Placed e c T .structureTag span) : Span := ⟨p.start.offset,(p.start.advance 1).offset⟩

namespace Grammar.StructureParts

variable {full : Text} {T : List Entry} {span name pair : Span} {x : Outline full T}
  {p : Placed x.expr x.start T .structureTag span}

theorem fromLt (s : StructureParts p.start p.inner) : T = p.before ++ (.terminal .lt,p.opening) ::
    (s.front ++ (.nonTerminal .attName,s.own) :: (s.pairs ++ s.back) ++
      (.nonTerminal .structureTag,span) :: p.after) := by
  conv_lhs => rw [p.split,s.split]
  simp [Cursor.leaf,Placed.opening]

theorem fromOwn (s : StructureParts p.start p.inner) :
    T = (p.before ++ (.terminal .lt,p.opening) :: s.front) ++ (.nonTerminal .attName,s.own) ::
      (s.pairs ++ s.back ++ (.nonTerminal .structureTag,span) :: p.after) := by
  conv_lhs => rw [p.split,s.split]
  simp [Cursor.leaf,Placed.opening]

theorem rule_cases (s : StructureParts p.start p.inner) {r : NonTerminal}
    (member : (.nonTerminal r,pair) ∈ p.inner) :
    (r = .attName ∧ pair = s.own) ∨ (.nonTerminal r,pair) ∈ s.pairs := by
  have notMark (inMarks : (.nonTerminal r,pair) ∈ s.front ++ s.back) : False := by
    obtain ⟨t,same⟩ := s.marks _ inMarks
    simp at same
  rw [s.split] at member
  simp only [Cursor.leaf,List.mem_cons,List.mem_append,Prod.mk.injEq,reduceCtorEq,false_and,
    false_or,Symbol.nonTerminal.injEq] at member
  rcases member with front | same | pairs | back
  · exact (notMark (List.mem_append_left _ front)).elim
  · exact .inl same
  · exact .inr pairs
  · exact (notMark (List.mem_append_right _ back)).elim

theorem mem_own (s : StructureParts p.start p.inner) : (.nonTerminal .attName,s.own) ∈ p.inner := by
  simp [s.split]

theorem mem_pairs (s : StructureParts p.start p.inner) {y : Entry} (member : y ∈ s.pairs) :
    y ∈ p.inner := by
  simp [s.split,member]

theorem mem_opening (s : StructureParts p.start p.inner) : (.terminal .lt,p.opening) ∈ T :=
  p.mem_of_inner (by simp [s.split,Cursor.leaf,Placed.opening])

theorem behind_opening (s : StructureParts p.start p.inner) {y : Entry} (member : y ∈ p.inner)
    (closed : y.1.closed = true) (apart : y.1.holds (.terminal .lt) = false)
    (other : y ≠ p.start.leaf .lt 1) : p.opening.stop ≤ y.2.start := by
  refine x.behind s.fromLt (z := y) (List.mem_append_left _ ?_) closed apart
  rw [s.split] at member
  exact (List.mem_cons.mp member).resolve_left other

theorem start_lt (s : StructureParts p.start p.inner) {y : Entry} (member : y ∈ p.inner)
    (closed : y.1.closed = true) (apart : y.1.holds (.terminal .lt) = false)
    (other : y ≠ p.start.leaf .lt 1) : span.start < y.2.start := by
  have := x.proper s.mem_opening rfl
  have := s.behind_opening member closed apart other
  rw [← p.start_eq]
  exact Nat.lt_of_lt_of_le ‹_› ‹_›

theorem name_cases (s : StructureParts p.start p.inner)
    (member : (.nonTerminal .attName,name) ∈ p.inner) : name = s.own ∨
      s.own.stop ≤ name.start ∧ (.nonTerminal .attName,name) ∈ s.pairs := by
  rcases s.rule_cases member with ⟨-,same⟩ | inPairs
  · exact .inl same
  · exact .inr ⟨x.behind s.fromOwn (z := (.nonTerminal .attName,name)) (by simp [inPairs]) rfl rfl,
      inPairs⟩

theorem firstName (s : StructureParts p.start p.inner) : FirstName T p.opening s.own := by
  have isOwn := p.mem_of_inner s.mem_own
  refine ⟨isOwn,s.behind_opening s.mem_own rfl rfl (by simp [Cursor.leaf]),
    fun other member behind => ?_⟩
  by_contra earlier
  have opening := x.proper s.mem_opening rfl
  have ends := (Span.contains_iff.mp (p.contains_of_inner s.mem_own)).2
  have proper := x.proper isOwn rfl
  have starts : span.start ≤ other.start := by
    rw [← p.start_eq]
    exact opening.le.trans behind
  simp only at ends proper
  have inInner := p.mem_inner_of_start x.trail x.inside member rfl rfl (by simp) starts
    (show other.start < span.stop by omega)
  rcases s.name_cases inInner with rfl | ⟨later,-⟩ <;> omega

theorem holds_own (s : StructureParts p.start p.inner) : span.strictlyContains s.own = true := by
  have later := s.start_lt s.mem_own rfl rfl (by simp [Cursor.leaf])
  rw [Span.strictlyContains_iff]
  refine ⟨fun same => ?_,Span.contains_iff.mp (p.contains_of_inner s.mem_own)⟩
  simp [same] at later

theorem pair_ends (s : StructureParts p.start p.inner) {y z : Entry} (member : y ∈ s.pairs)
    (later : z ∈ s.back) (closed : z.1.closed = true) (apart : z.1.holds y.1 = false) :
    y.2.stop ≤ z.2.start := by
  obtain ⟨first,last,split⟩ := List.append_of_mem member
  have fromPair : T = (p.before ++ (.terminal .lt,p.opening) :: s.front ++
      (.nonTerminal .attName,s.own) :: first) ++ y ::
        (last ++ (s.back ++ (.nonTerminal .structureTag,span) :: p.after)) := by
    conv_lhs => rw [s.fromOwn,split]
    simp
  exact x.behind fromPair (by simp [later]) closed apart

theorem openedAt (s : StructureParts p.start p.inner) (isPair : (.nonTerminal .attVal,pair) ∈ T)
    (holds : span.strictlyContains pair = true) : OpenedAt T p.opening pair := by
  have inInner := p.mem_inner x.trail x.inside isPair rfl holds
  have inPairs : (.nonTerminal .attVal,pair) ∈ s.pairs :=
    (s.rule_cases inInner).resolve_left (by simp)
  refine ⟨s.mem_opening,s.behind_opening inInner rfl rfl (by simp [Cursor.leaf]),
    fun kind bracket isBracket member ends => ?_⟩
  have bracketed : Zone.isBracket (.terminal kind) = true := by
    rcases isBracket with rfl | rfl <;> rfl
  have opening := x.proper s.mem_opening rfl
  have proper := x.proper member rfl
  by_cases before : bracket.start < span.start
  · have := p.earlier (p.mem_before x.trail member rfl rfl before)
    rw [← p.start_eq] at this
    exact this.trans opening.le
  · have within := (Span.strictlyContains_iff.mp holds).2.2
    have pairProper := x.proper isPair rfl
    simp only at proper pairProper
    have inInner := p.mem_inner_of_start x.trail x.inside member rfl rfl (by simp)
      (Nat.le_of_not_lt before) (show bracket.start < span.stop by omega)
    rw [s.split] at inInner
    simp only [Cursor.leaf,List.mem_cons,List.mem_append,Prod.mk.injEq,reduceCtorEq,false_and,
      false_or] at inInner
    rcases inInner with ⟨-,same⟩ | front | pairs | back
    · exact same ▸ Nat.le_refl _
    · simp [s.plain _ front] at bracketed
    · have held := s.trail.holds _ pairs
      rcases isBracket with rfl | rfl <;> simp at held
    · exact absurd (s.pair_ends inPairs back rfl rfl) (by simp only; omega)

theorem exists_gt (s : StructureParts p.start p.inner) : ∃ gt, (.terminal .gt,gt) ∈ T ∧
    s.own.stop ≤ gt.start ∧ gt.stop ≤ span.stop := by
  obtain ⟨gt,inBack⟩ := s.closes
  have inInner : (.terminal .gt,gt) ∈ p.inner := by simp [s.split,inBack]
  refine ⟨gt,p.mem_of_inner inInner,?_,(Span.contains_iff.mp (p.contains_of_inner inInner)).2⟩
  exact x.behind s.fromOwn (z := (.terminal .gt,gt)) (by simp [inBack]) rfl rfl

theorem holds_pair (s : StructureParts p.start p.inner) (isPair : (.nonTerminal .attVal,pair) ∈ T)
    (starts : span.start < pair.stop) (ends : pair.start < span.stop) :
    span.strictlyContains pair = true := by
  by_cases before : pair.start < span.start
  · have := p.earlier (p.mem_before x.trail isPair rfl rfl before)
    simp only at this
    omega
  · have inInner := p.mem_inner_of_start x.trail x.inside isPair rfl rfl (by simp)
      (Nat.le_of_not_lt before) ends
    have later := s.start_lt inInner rfl rfl (by simp [Cursor.leaf])
    rw [Span.strictlyContains_iff]
    exact ⟨fun same => by simp [same] at later,Span.contains_iff.mp (p.contains_of_inner inInner)⟩

end Grammar.StructureParts

/-- A closed structure: its `<`, name and `>`, its pairs, and the names in them. -/
structure Shape (T : List Entry) (span lt own : Span) : Prop where
  opens : (.terminal .lt,lt) ∈ T
  start : lt.start = span.start
  firstName : FirstName T lt own
  holdsOwn : span.strictlyContains own = true
  pairs : ∀ pair, (.nonTerminal .attVal,pair) ∈ T → span.strictlyContains pair = true →
    OpenedAt T lt pair
  names : ∀ name, (.nonTerminal .attName,name) ∈ T → span.strictlyContains name = true →
    name = own ∨ own.stop ≤ name.start ∧ ∃ pair, (.nonTerminal .attVal,pair) ∈ T ∧
      span.strictlyContains pair = true ∧ pair.contains name = true
  overlaps : ∀ pair, (.nonTerminal .attVal,pair) ∈ T → span.start < pair.stop →
    pair.start < span.stop → span.strictlyContains pair = true
  closes : ∃ gt, (.terminal .gt,gt) ∈ T ∧ own.stop ≤ gt.start ∧ gt.stop ≤ span.stop

namespace Outline

variable {full : Text} {T : List Entry} {span : Span}

theorem shape (x : Outline full T) (isStructure : (.nonTerminal .structureTag,span) ∈ T) :
    ∃ lt own, Shape T span lt own := by
  obtain ⟨p⟩ := x.placed isStructure rfl
  obtain ⟨s⟩ := p.trail.structureParts
  refine ⟨p.opening,s.own,s.mem_opening,p.start_eq,s.firstName,s.holds_own,
    fun pair => s.openedAt,fun name isName holds => ?_,fun pair => s.holds_pair,s.exists_gt⟩
  have inInner := p.mem_inner x.trail x.inside isName rfl holds
  refine (s.name_cases inInner).imp_right fun ⟨later,inPairs⟩ => ⟨later,?_⟩
  obtain ⟨pair,member,around⟩ := s.trail.pair_of_name rfl inPairs
  have inInner := s.mem_pairs member
  have isPair := p.mem_of_inner inInner
  have within := Span.contains_iff.mp (p.contains_of_inner inInner)
  have proper := x.proper isPair rfl
  exact ⟨pair,isPair,s.holds_pair isPair (by simp only at *; omega) (by simp only at *; omega),around⟩

end Outline

end CorpusQuery
