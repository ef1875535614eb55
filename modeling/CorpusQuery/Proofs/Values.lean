import CorpusQuery.Proofs.Pairs

/-! The values of attributes: each is a text of the query between quotation marks, and ends the pair
that it stands in. -/
namespace CorpusQuery

theorem Terminal.eq_of_ofMark {c mark : Char} (known : ofMark mark ≠ .unknown)
    (same : ofMark c = ofMark mark) : c = mark := by
  revert known same
  unfold ofMark
  split <;> split <;> simp

theorem Token.text_of_mark {t : Text} {token : Token} {mark : Char} (member : token ∈ tokenize t)
    (known : Terminal.ofMark mark ≠ .unknown) (isMark : token.kind = .ofMark mark) :
    token.text = [mark] := by
  have noMark : ∀ kind ∈ [Terminal.whitespace,.number,.text,.notEq,.kwWithin,.kwContaining,.kwMeet,
      .kwUnion,.ident], kind ≠ .ofMark mark := by
    unfold Terminal.ofMark
    split <;> decide
  have noName (name : Text) : Terminal.ofName name ≠ .ofMark mark := by
    unfold Terminal.ofName
    split_ifs <;> exact noMark _ (by decide)
  fun_induction tokenize t with
  | case1 => simp at member
  | case2 c rest ih =>
    rcases List.mem_cons.mp member with rfl | later
    · cases how : opening c rest <;> simp only [first,how] at isMark
      case mark => rw [first,tail,how,Terminal.eq_of_ofMark known isMark]
      case name => exact absurd isMark (noName _)
      all_goals exact absurd isMark (noMark _ (by decide))
    · exact ih later

namespace Grammar

open Grammar.Expr

/-- A value is a quotation mark, what stands in it, and a quotation mark. -/
theorem Trail.regExp_cases {c d : Cursor} {T : List Entry}
    (h : Trail (body .regExp) c (.complete d) T) :
    ∃ m, c.isAt .quote = true ∧ (c.advance 1).Reaches m ∧ m.isAt .quote = true ∧ d = m.advance 1 ∧
      m.leaf .quote 1 ∈ T ∧ ∀ x ∈ T, x.1 ≠ .nonTerminal .regExp := by
  have holds (x : Entry) (member : x ∈ T) : x.1 ≠ .nonTerminal .regExp := by
    intro isValue
    have := h.holds x member
    rw [isValue] at this
    revert this
    decide
  obtain ⟨_,_,_,quote,rest,rfl⟩ := h.parts_of_andThen
  obtain ⟨m,_,_,content,ending,rfl⟩ := rest.parts_of_andThen
  obtain ⟨_,_,_,last,done,rfl⟩ := ending.parts_of_andThen
  cases quote with
  | token at_ =>
    cases last with
    | token at' =>
      cases done
      refine ⟨m,at_,content.reach,at',rfl,?_,holds⟩
      simp

/-- What is assigned to a name is a value, which comes last. -/
theorem Trail.assignment_cases {c d : Cursor} {T : List Entry}
    (h : Trail assignment c (.complete d) T) {value : Span}
    (member : (.nonTerminal .regExp,value) ∈ T) : value.stop = d.offset := by
  obtain ⟨_,_,_,space,rest,rfl⟩ := h.parts_of_andThen
  obtain ⟨_,_,_,sign,later,rfl⟩ := rest.parts_of_andThen
  obtain ⟨_,_,_,space',last,rfl⟩ := later.parts_of_andThen
  obtain ⟨_,_,_,call,done,rfl⟩ := last.parts_of_andThen
  cases done with
  | done =>
    rcases List.mem_append.mp member with inSpace | inRest
    · simpa [Expr.holds] using space.holds _ inSpace
    rcases List.mem_append.mp inRest with inSign | inRest
    · simpa [Expr.holds,mark] using sign.holds _ inSign
    rcases List.mem_append.mp inRest with inSpace | inRest
    · simpa [Expr.holds] using space'.holds _ inSpace
    cases call with
    | call quoted =>
      obtain ⟨_,-,-,-,-,-,others⟩ := quoted.regExp_cases
      simp only [List.append_nil,List.mem_append,List.mem_singleton,Cursor.branch] at inRest
      rcases inRest with inValue | same
      · exact absurd rfl (others _ inValue)
      · rw [(Prod.mk.inj same).2]

end Grammar

namespace Outline

open Grammar

variable {full : Text} {T : List Entry} {pair name value : Span}

/-- A pair that holds no other begins with its name and ends with its value. -/
theorem leaf_ends (x : Outline full T) (leaf : LeafPair T pair)
    (isName : (.nonTerminal .attName,name) ∈ T) (named : pair.contains name = true)
    (isValue : (.nonTerminal .regExp,value) ∈ T) (valued : pair.contains value = true) :
    pair.start = name.start ∧ pair.stop = value.stop := by
  obtain ⟨p⟩ := x.placed leaf.matched rfl
  have nameInner := x.name_mem_inner p isName named
  have valueInner : (.nonTerminal .regExp,value) ∈ p.inner := by
    rw [Span.contains_iff] at valued
    have := x.proper isValue rfl
    exact p.mem_inner_of_start x.trail x.inside isValue rfl rfl (by simp) valued.1
      (this.trans_le valued.2)
  rcases p.trail.attVal_cases with ⟨t,e,U,rest,paired,naming,split⟩ | ⟨U,rest,split⟩
  · exact absurd leaf (x.not_leafPair_of_mark p rest paired naming split)
  · simp only [split,Cursor.leaf,Cursor.branch,List.mem_cons,Prod.mk.injEq,reduceCtorEq,
      Symbol.nonTerminal.injEq,false_and,false_or,true_and] at nameInner valueInner
    constructor
    · rcases nameInner with rfl | inU
      · exact p.start_eq.symm
      · simpa using rest.holds _ inU
    · rw [← p.stop_eq,rest.assignment_cases valueInner]

end Outline

theorem Cursor.Reaches.text_of_mark {t : Text} {c : Cursor} (h : Cursor.Reaches ⟨0,tokenize t⟩ c)
    (mark : Char) (known : Terminal.ofMark mark ≠ .unknown) (at_ : c.isAt (.ofMark mark) = true) :
    c.text = mark :: (c.advance 1).text ∧
      (c.advance 1).offset = c.offset + mark.utf8Size := by
  obtain ⟨token,rest,split,isMark⟩ := rest_of_isAt at_
  have text := Token.text_of_mark (h.mem_rest (split ▸ List.mem_cons_self)) known isMark
  constructor
  · rw [c.text_eq 1,split]
    simp [text]
  · rw [offset_advance,split]
    simp [text]

/-- A value is a text of the query between quotation marks, and ends with a terminal. -/
theorem Reading.quoted {query : Text} {start : StartRule}
    (x : Reading (query ++ start.ending) start) {value : Span}
    (isValue : (.nonTerminal .regExp,value) ∈ x.path) :
    (∃ before within after, query = before ++ ('"' :: within ++ ['"']) ++ after ∧
      value.start = Text.byteLength before ∧
      value.stop = Text.byteLength (before ++ ('"' :: within ++ ['"']))) ∧
    ∃ place, (.terminal .quote,place) ∈ x.path ∧ place.stop = value.stop := by
  obtain ⟨p⟩ := x.outline.placed isValue rfl
  obtain ⟨m,first,reaches,last,stops,isLast,-⟩ := p.trail.regExp_cases
  have fromStart := p.enters.bounds.1
  have toEnd := fromStart.trans ((Cursor.reaches_advance _ 1).trans reaches)
  obtain ⟨opens,next⟩ := fromStart.text_of_mark '"' (by decide) first
  obtain ⟨closes,ends⟩ := toEnd.text_of_mark '"' (by decide) last
  obtain ⟨before,place,offset⟩ := (p.inside x.outline.inside).place
  obtain ⟨n,rfl⟩ := reaches
  constructor
  · have content := (p.start.advance 1).text_eq n
    have upTo := (p.start.advance 1).offset_advance n
    revert content upTo
    generalize ((p.start.advance 1).rest.take n).flatMap Token.text = within
    intro content upTo
    have whole : query ++ start.ending = before ++ ('"' :: within ++ ['"']) ++ p.stop.text := by
      apply place.trans
      rw [opens,content,closes,stops]
      simp
    have notEnding : '"' ∉ start.ending := by cases start <;> decide
    obtain ⟨after,split⟩ := start.split_of_last whole (by simp) (by simpa using notEnding)
    refine ⟨before,within,after,split,?_,?_⟩
    · rw [← p.start_eq,offset]
    · rw [← p.stop_eq,stops,ends,upTo,next,offset]
      simp [Char.utf8Size]
      omega
  · refine ⟨_,p.mem_of_inner isLast,?_⟩
    rw [← p.stop_eq,stops]

end CorpusQuery
