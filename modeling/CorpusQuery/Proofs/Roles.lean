import CorpusQuery.Proofs.Zones

/-! The roles of names. A pair is structural when the last bracket before it begins a structure; the
first name after that bracket is the structure's, and the name in the pair is an attribute of it.
In other pairs the name is an attribute of positions. -/
namespace CorpusQuery

section Definitions

variable (T : List Entry)

structure LeafPair (pair : Span) : Prop where
  matched : (.nonTerminal .attVal,pair) ∈ T
  alone : ∀ inner, (.nonTerminal .attVal,inner) ∈ T → pair.strictlyContains inner = false

/-- Of the `<` and `>` before a pair, the nearest is the `<` at `lt`. -/
structure OpenedAt (lt pair : Span) : Prop where
  opens : (.terminal .lt,lt) ∈ T
  before : lt.stop ≤ pair.start
  nearest : ∀ kind bracket, kind = .lt ∨ kind = .gt → (.terminal kind,bracket) ∈ T →
    bracket.stop ≤ pair.start → bracket.stop ≤ lt.stop

/-- The first name after the `<` at `lt`. -/
structure FirstName (lt name : Span) : Prop where
  matched : (.nonTerminal .attName,name) ∈ T
  behind : lt.stop ≤ name.start
  first : ∀ other, (.nonTerminal .attName,other) ∈ T → lt.stop ≤ other.start →
    name.start ≤ other.start

end Definitions

open Grammar

/-- Entries that a trail from outside structures has read. -/
structure Outline (full : Text) (T : List Entry) where
  expr : Expr
  start : Cursor
  ending : Ending
  trail : Trail expr start ending T
  inside : start.In full
  zone : (expr.zone .outside).isSome = true

def Reading.outline {full : Text} {start : StartRule} (x : Reading full start) :
    Outline full x.path where
  expr := start.expr
  start := ⟨0,tokenize full⟩
  ending := x.ending
  trail := x.trail
  inside := Cursor.in_tokenize full
  zone := by cases start <;> decide

namespace Outline

variable {full : Text} {T : List Entry} {r : NonTerminal} {span pair lt : Span}

theorem placed (x : Outline full T) (member : (.nonTerminal r,span) ∈ T) (closed : r.closed = true) :
    Nonempty (Placed x.expr x.start T r span) := x.trail.placed closed member

theorem proper (x : Outline full T) {y : Entry} (member : y ∈ T) (closed : y.1.closed = true) :
    y.2.start < y.2.stop := x.trail.proper x.inside member closed

/-- Of two closed symbols one lies before the other, or one holds the other. -/
theorem apart (x : Outline full T) {y z : Entry} (inY : y ∈ T) (inZ : z ∈ T)
    (closedY : y.1.closed = true) (closedZ : z.1.closed = true)
    (notHeld : y.1.holds z.1 = false) (notHolds : z.1.holds y.1 = false) :
    y = z ∨ y.2.stop ≤ z.2.start ∨ z.2.stop ≤ y.2.start := by
  by_cases same : y = z
  · exact .inl same
  let Apart (y z : Entry) : Prop := y.1.closed = true → z.1.closed = true →
    y.1.holds z.1 = false → z.1.holds y.1 = false → y.2.stop ≤ z.2.start ∨ z.2.stop ≤ y.2.start
  have : Std.Symm Apart := ⟨fun y z h a b c d => (h b a d c).symm⟩
  have all : T.Pairwise Apart := x.trail.ordered.imp fun h _ closed _ notHolds =>
    (h closed).imp_right fun held => by simp [notHolds] at held
  exact .inr (all.forall inY inZ same closedY closedZ notHeld notHolds)

theorem behind (x : Outline full T) {A B : List Entry} {y z : Entry} (split : T = A ++ y :: B)
    (member : z ∈ B) (closed : z.1.closed = true) (apart : z.1.holds y.1 = false) :
    y.2.stop ≤ z.2.start := by
  have ordered := x.trail.ordered
  rw [split,List.pairwise_append] at ordered
  have := (List.pairwise_cons.mp ordered.2.1).1 z member closed
  exact this.resolve_right fun held => by simp [apart] at held

theorem ahead (x : Outline full T) {A B : List Entry} {t : Terminal} {y : Entry}
    (split : T = A ++ (.terminal t,span) :: B) (member : y ∈ A) : y.2.stop ≤ span.start := by
  have ordered := x.trail.ordered
  rw [split,List.pairwise_append] at ordered
  have := ordered.2.2 y member (.terminal t,span) (by simp) rfl
  exact this.resolve_right fun held => by simp [Symbol.holds] at held

theorem mem_before_iff (x : Outline full T) (p : Placed x.expr x.start T r span) {t : Terminal}
    (member : (.terminal t,lt) ∈ T) : (.terminal t,lt) ∈ p.before ↔ lt.stop ≤ span.start := by
  refine ⟨p.earlier,fun ends => p.mem_before x.trail member rfl rfl ?_⟩
  exact (x.proper member rfl).trans_le ends

/-- A structure that began before a rule that is read outside structures has ended before it. -/
theorem exists_gt (x : Outline full T) (p : Placed x.expr x.start T r span)
    (outside : Zone.outside.run p.before = .outside) (opens : (.terminal .lt,lt) ∈ p.before) :
    ∃ gt, (.terminal .gt,gt) ∈ p.before ∧ lt.stop ≤ gt.start := by
  have describes := Zone.describes_run p.before
  rw [outside] at describes
  rcases describes with noBracket | ⟨A,gt,B,split,tail⟩
  · exact absurd (noBracket _ opens) (by simp [Zone.isBracket])
  · have inA : (.terminal .lt,lt) ∈ A := by
      rw [split] at opens
      simp only [List.mem_append,List.mem_cons,Prod.mk.injEq,Symbol.terminal.injEq,reduceCtorEq,
        false_and,false_or] at opens
      exact opens.resolve_right fun inB => by simpa [Zone.isBracket] using tail _ inB
    have whole : T = A ++ (.terminal .gt,gt) :: (B ++ (p.inner ++ (.nonTerminal r,span) :: p.after)) := by
      conv_lhs => rw [p.split,split]
      simp
    exact ⟨gt,by simp [split],x.ahead whole inA⟩

theorem not_openedAt_of_outside (x : Outline full T) (p : Placed x.expr x.start T r span)
    (outside : Zone.outside.run p.before = .outside) (within : span.start ≤ pair.start)
    (before : lt.stop ≤ span.start) : ¬OpenedAt T lt pair := by
  intro h
  obtain ⟨gt,closes,behind⟩ := x.exists_gt p outside ((x.mem_before_iff p h.opens).mpr before)
  have := h.nearest .gt gt (.inr rfl) (p.mem_of_before closes) ((p.earlier closes).trans within)
  have := x.proper (p.mem_of_before closes) rfl
  simp only at this
  omega

theorem openedAt_of_named (x : Outline full T) (p : Placed x.expr x.start T .attVal pair)
    (named : Zone.outside.run p.before = .named) : ∃ lt own, OpenedAt T lt pair ∧
      FirstName T lt own ∧ own.stop ≤ pair.start := by
  have describes := Zone.describes_run p.before
  rw [named] at describes
  obtain ⟨A,lt,B,own,C,split,middle,tail⟩ := describes
  have fromLt : T = A ++ (.terminal .lt,lt) ::
      (B ++ (.nonTerminal .attName,own) :: (C ++ (p.inner ++ (.nonTerminal .attVal,pair) :: p.after))) := by
    conv_lhs => rw [p.split,split]
    simp
  have fromOwn : T = (A ++ (.terminal .lt,lt) :: B) ++ (.nonTerminal .attName,own) ::
      (C ++ (p.inner ++ (.nonTerminal .attVal,pair) :: p.after)) := by
    conv_lhs => rw [fromLt]
    simp
  have ltBefore : (.terminal .lt,lt) ∈ p.before := by simp [split]
  have ownBefore : (.nonTerminal .attName,own) ∈ p.before := by simp [split]
  have ltMember := p.mem_of_before ltBefore
  have ownMember := p.mem_of_before ownBefore
  have ownProper := x.proper ownMember rfl
  have ownEnds : own.stop ≤ pair.start := p.earlier ownBefore
  refine ⟨lt,own,⟨ltMember,p.earlier ltBefore,fun kind bracket isBracket member ends => ?_⟩,
    ⟨ownMember,?_,fun other member behind => ?_⟩,ownEnds⟩
  · have bracketed : Zone.isBracket (.terminal kind) = true := by
      rcases isBracket with rfl | rfl <;> rfl
    have inBefore := (x.mem_before_iff p member).mpr ends
    rw [split] at inBefore
    simp only [List.mem_append,List.mem_cons,Prod.mk.injEq] at inBefore
    rcases inBefore with (inA | ⟨-,rfl⟩ | inB) | ⟨name,-⟩ | inC
    · exact (x.ahead fromLt inA).trans (x.proper ltMember rfl).le
    · exact Nat.le_refl _
    · simpa [bracketed] using middle _ inB
    · simp at name
    · simpa [bracketed] using tail _ inC
  · exact x.behind fromLt (z := (.nonTerminal .attName,own)) (by simp) rfl rfl
  · by_contra earlier
    have inBefore := p.mem_before x.trail member rfl rfl
      (show other.start < pair.start by simp only at ownProper; omega)
    have proper := x.proper member rfl
    rw [split] at inBefore
    simp only [List.mem_append,List.mem_cons,Prod.mk.injEq] at inBefore
    rcases inBefore with (inA | ⟨name,-⟩ | inB) | ⟨-,rfl⟩ | inC
    · have := x.ahead fromLt inA
      have := x.proper ltMember rfl
      simp only at *
      omega
    · simp at name
    · exact (middle _ inB).2 rfl
    · omega
    · have := x.behind fromOwn (List.mem_append_left _ inC) rfl rfl
      simp only at *
      omega

/-- A pair stands in no open structure, or after the name of one. -/
theorem pair_cases (x : Outline full T) (member : (.nonTerminal .attVal,pair) ∈ T) :
    (∀ lt, ¬OpenedAt T lt pair) ∨ ∃ lt own, OpenedAt T lt pair ∧ FirstName T lt own ∧
      own.stop ≤ pair.start := by
  obtain ⟨p⟩ := x.placed member rfl
  have entered := p.enters.zone x.zone
  cases zone : Zone.outside.run p.before with
  | outside =>
    exact .inl fun lt h => x.not_openedAt_of_outside p zone (Nat.le_refl _) h.before h
  | opened => simp [zone,Zone.afterRule] at entered
  | named => exact .inr (x.openedAt_of_named p zone)

theorem not_openedAt_of_position (x : Outline full T) (member : (.nonTerminal .position,span) ∈ T)
    (isPair : (.nonTerminal .attVal,pair) ∈ T) (inside : span.contains pair = true) :
    ¬OpenedAt T lt pair := by
  obtain ⟨p⟩ := x.placed member rfl
  have entered := p.enters.zone x.zone
  have outside : Zone.outside.run p.before = .outside := by
    by_contra h
    simp [Zone.afterRule,h] at entered
  rw [Span.contains_iff] at inside
  intro h
  by_cases before : lt.start < span.start
  · have inBefore := p.mem_before x.trail h.opens rfl rfl before
    exact x.not_openedAt_of_outside p outside inside.1 (p.earlier inBefore) h
  · have proper := x.proper h.opens rfl
    have inInner := p.mem_inner_of_start x.trail x.inside h.opens rfl rfl (by simp)
      (Nat.le_of_not_lt before) (by
        have := h.before
        have := x.proper h.opens rfl
        have := x.proper isPair rfl
        simp only at *
        omega)
    simpa [NonTerminal.holds,NonTerminal.inPair] using p.holds_of_inner inInner

theorem name_eq (x : Outline full T) {name other : Span} (isName : (.nonTerminal .attName,name) ∈ T)
    (isOther : (.nonTerminal .attName,other) ∈ T) (same : name.start = other.start) :
    name = other := by
  have proper := x.proper isName rfl
  have properOther := x.proper isOther rfl
  simp only at proper properOther
  rcases x.apart isName isOther rfl rfl rfl rfl with eq | before | after
  · exact congrArg Prod.snd eq
  · simp only at before
    omega
  · simp only at after
    omega

theorem firstName_unique (x : Outline full T) {name other : Span} (h : FirstName T lt name)
    (h' : FirstName T lt other) : name = other :=
  x.name_eq h.matched h'.matched (Nat.le_antisymm (h.first other h'.matched h'.behind)
    (h'.first name h.matched h.behind))

theorem openedAt_unique (x : Outline full T) {lt' : Span} (h : OpenedAt T lt pair)
    (h' : OpenedAt T lt' pair) : lt = lt' := by
  have proper := x.proper h.opens rfl
  have proper' := x.proper h'.opens rfl
  have le := h'.nearest .lt lt (.inl rfl) h.opens h.before
  have ge := h.nearest .lt lt' (.inl rfl) h'.opens h'.before
  simp only at proper proper'
  rcases x.apart h.opens h'.opens rfl rfl rfl rfl with eq | before | after
  · exact congrArg Prod.snd eq
  · simp only at before
    omega
  · simp only at after
    omega

theorem ne_own (x : Outline full T) {own name : Span} (isPair : (.nonTerminal .attVal,pair) ∈ T)
    (opened : OpenedAt T lt pair) (first : FirstName T lt own)
    (isName : (.nonTerminal .attName,name) ∈ T) (contains : pair.contains name = true) :
    name ≠ own := by
  rintro rfl
  rcases x.pair_cases isPair with unopened | ⟨lt',own',opened',first',ends⟩
  · exact absurd opened (unopened lt)
  · obtain rfl := x.openedAt_unique opened opened'
    obtain rfl := x.firstName_unique first first'
    have proper := x.proper isName rfl
    rw [Span.contains_iff] at contains
    simp only at proper
    omega

theorem opening_unique (x : Outline full T) {lt' : Span} (isLt : (.terminal .lt,lt) ∈ T)
    (isOther : (.terminal .lt,lt') ∈ T) (same : lt.start = lt'.start) : lt = lt' := by
  have proper := x.proper isLt rfl
  have proper' := x.proper isOther rfl
  simp only at proper proper'
  rcases x.apart isLt isOther rfl rfl rfl rfl with eq | before | after
  · exact congrArg Prod.snd eq
  · simp only at before
    omega
  · simp only at after
    omega

/-- No structure begins or ends in a pair, so pairs in it are opened where it is. -/
theorem openedAt_iff (x : Outline full T) {inner : Span}
    (isPair : (.nonTerminal .attVal,pair) ∈ T) (isInner : (.nonTerminal .attVal,inner) ∈ T)
    (contains : pair.contains inner = true) : OpenedAt T lt inner ↔ OpenedAt T lt pair := by
  obtain ⟨p⟩ := x.placed isPair rfl
  rw [Span.contains_iff] at contains
  have innerProper := x.proper isInner rfl
  simp only at innerProper
  have ends_iff {kind : Terminal} {bracket : Span} (isBracket : kind = .lt ∨ kind = .gt)
      (member : (.terminal kind,bracket) ∈ T) :
      bracket.stop ≤ inner.start ↔ bracket.stop ≤ pair.start := by
    refine ⟨fun ends => ?_,fun ends => ends.trans contains.1⟩
    have proper := x.proper member rfl
    simp only at proper
    by_cases before : bracket.start < pair.start
    · exact p.earlier (p.mem_before x.trail member rfl rfl before)
    · have inInner := p.mem_inner_of_start x.trail x.inside member rfl rfl (by simp)
        (Nat.le_of_not_lt before) (show bracket.start < pair.stop by omega)
      have held := p.holds_of_inner inInner
      rcases isBracket with rfl | rfl <;> simp [NonTerminal.holds,NonTerminal.inPair] at held
  constructor
  · intro h
    exact ⟨h.opens,(ends_iff (.inl rfl) h.opens).mp h.before,fun kind bracket isBracket member ends =>
      h.nearest kind bracket isBracket member ((ends_iff isBracket member).mpr ends)⟩
  · intro h
    exact ⟨h.opens,(ends_iff (.inl rfl) h.opens).mpr h.before,fun kind bracket isBracket member ends =>
      h.nearest kind bracket isBracket member ((ends_iff isBracket member).mp ends)⟩

end Outline

theorem Grammar.Trail.attName_cases {c d : Cursor} {T : List Entry}
    (h : Trail (body .attName) c (.complete d) T) :
    c.isAt .ident = true ∧ d = c.advance 1 ∧ T = [c.leaf .attrChars 1] := by
  cases h with
  | token at_ => exact ⟨at_,rfl,rfl⟩

theorem StartRule.isNameChar_ending (start : StartRule) :
    ∀ c ∈ start.ending, isNameChar c = false := by
  cases start with
  | query =>
    intro c member
    rw [List.mem_singleton.mp member]
    decide
  | _ => exact List.forall_mem_nil _

/-- A text that ends with a character of no ending does not reach into an appended one. -/
theorem StartRule.split_of_last (start : StartRule) {query before part rest : Text}
    (whole : query ++ start.ending = before ++ part ++ rest) (nonempty : part ≠ [])
    (last : part.getLast nonempty ∉ start.ending) : ∃ after, query = before ++ part ++ after := by
  rcases List.append_eq_append_iff.mp whole with ⟨more,ends,ending⟩ | ⟨after,split,-⟩
  · by_cases empty : more = []
    · exact ⟨[],by simp [ends,empty]⟩
    have same := congrArg List.getLast? ends
    rw [List.getLast?_append_of_ne_nil _ nonempty,List.getLast?_append_of_ne_nil _ empty,
      List.getLast?_eq_some_getLast nonempty,List.getLast?_eq_some_getLast empty,Option.some.injEq] at same
    rw [same,ending] at last
    exact absurd (List.mem_append_left _ (List.getLast_mem empty)) last
  · exact ⟨after,split⟩

/-- A text that ends with a name does not reach into an appended ending. -/
theorem StartRule.split_of_append (start : StartRule) {query before name rest : Text}
    (whole : query ++ start.ending = before ++ name ++ rest) (nonempty : name ≠ [])
    (named : ∀ c ∈ name, isNameChar c = true) : ∃ after, query = before ++ name ++ after := by
  refine start.split_of_last whole nonempty fun isEnding => ?_
  have isName := named _ (List.getLast_mem nonempty)
  rw [start.isNameChar_ending _ isEnding] at isName
  exact Bool.false_ne_true isName

theorem Cursor.Reaches.mem_rest {t : Text} {c : Cursor} (h : Cursor.Reaches ⟨0,tokenize t⟩ c)
    {token : Token} (member : token ∈ c.rest) : token ∈ tokenize t := by
  obtain ⟨n,rfl⟩ := h
  rw [rest_advance] at member
  exact List.mem_of_mem_drop member

/-- Every name is a text of the query: an ending that is read with the query is no part of it. -/
theorem Reading.exists_text {query : Text} {start : StartRule}
    (x : Reading (query ++ start.ending) start) {name : Span}
    (isName : (.nonTerminal .attName,name) ∈ x.path) :
    ∃ text, query.slice? name.start name.stop = some text := by
  obtain ⟨p⟩ := x.outline.placed isName rfl
  obtain ⟨before,place,offset⟩ := (p.inside x.outline.inside).place
  obtain ⟨at_,stops,-⟩ := p.trail.attName_cases
  obtain ⟨token,rest,split,ident⟩ := Cursor.rest_of_isAt at_
  have inTokens := p.enters.bounds.1.mem_rest (split ▸ List.mem_cons_self)
  have whole : query ++ start.ending = before ++ token.text ++ rest.flatMap Token.text := by
    simpa [Cursor.text,split] using place
  obtain ⟨after,rfl⟩ := start.split_of_append whole (Token.text_ne_nil inTokens)
    (Token.isNameChar_of_ident inTokens ident)
  have stop := p.stop_eq
  rw [stops,Cursor.offset_advance,split] at stop
  refine ⟨token.text,?_⟩
  rw [← p.start_eq,← stop,offset]
  simpa using Text.slice?_middle before token.text after

end CorpusQuery
