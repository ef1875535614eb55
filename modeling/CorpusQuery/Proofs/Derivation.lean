import CorpusQuery.Grammar
import Mathlib.Data.List.Chain
import Mathlib.Tactic.Common

/-! The documented grammar, read as an ordinary grammar: choices are not ordered, and a repetition
may end anywhere. It derives the same as the bodies of the rules when these are read so, too. -/
namespace CorpusQuery

/-- A side of a grammar. -/
inductive Form where
  | empty
  /-- Derives nothing at all. -/
  | never
  /-- A token of one kind. -/
  | kind (k : Terminal)
  /-- A token of any but these kinds. -/
  | other (kinds : List Terminal)
  /-- A token of one kind that is the last of the input. -/
  | last (k : Terminal)
  | rule (r : NonTerminal)
  | seq (first second : Form)
  | alt (first second : Form)
  | opt (form : Form)
  | star (form : Form)

namespace Form

def any : Form := .other []

def blank : Form := .opt (.kind .whitespace)

def all (forms : List Form) : Form := forms.foldr .seq .empty

def plus (form : Form) : Form := .seq form (.star form)

/-- A backslash with the token after it, a token of another kind than `stop`, or a backslash at the
end of the input. -/
def element (stop : Terminal) : Form :=
  .alt (all [.kind .backslash,any]) (.alt (.other [stop,.backslash]) (.last .backslash))

end Form

/-- `form` derives the tokens of the first list that stand before the second one. -/
inductive Derives (grammar : NonTerminal → Form) : Form → List Terminal → List Terminal → Prop where
  | empty : Derives grammar .empty w w
  | kind : Derives grammar (.kind k) (k :: w) w
  | other : k ∉ kinds → Derives grammar (.other kinds) (k :: w) w
  | last : Derives grammar (.last k) [k] []
  | rule : Derives grammar (grammar r) w v → Derives grammar (.rule r) w v
  | seq : Derives grammar a w u → Derives grammar b u v → Derives grammar (.seq a b) w v
  | altFirst : Derives grammar a w v → Derives grammar (.alt a b) w v
  | altSecond : Derives grammar b w v → Derives grammar (.alt a b) w v
  | optNone : Derives grammar (.opt a) w w
  | optSome : Derives grammar a w v → Derives grammar (.opt a) w v
  | starNil : Derives grammar (.star a) w w
  | starCons : Derives grammar a w u → Derives grammar (.star a) u v →
      Derives grammar (.star a) w v

open Form in
/-- The documented grammar. -/
def production : NonTerminal → Form
  | .query => all [blank,.rule .sequence,.star (all [blank,.rule .withinOrContaining]),blank,
      .kind .semicolon]
  | .withinOrContaining => all [.opt (all [.kind .not,blank]),
      .alt (.kind .kwWithin) (.kind .kwContaining),blank,.rule .withinContainingPart]
  | .withinContainingPart => .rule .sequence
  | .sequence => .seq (.rule .seq) (.star (all [blank,.kind .pipe,blank,.rule .seq]))
  | .seq => .seq (.rule .repetition) (.star (all [blank,.rule .repetition]))
  | .repetition => .seq (.rule .atomQuery) (.opt (.rule .repOpt))
  | .atomQuery => .alt (.rule .position) <| .alt (.rule .regExp) <| .alt (.rule .structureTag) <|
      all [.kind .lParen,blank,.alt (.rule .meetOp) (.alt (.rule .unionOp) (.rule .sequence)),blank,
        .kind .rParen]
  | .meetOp => all [.kind .kwMeet,blank,.rule .position,blank,.rule .position,
      .opt (all [blank,.kind .number,blank,.kind .number])]
  | .unionOp => all [.kind .kwUnion,blank,.rule .position,blank,.rule .position]
  | .repOpt => .alt (.kind .star) <| .alt (.kind .plus) <| .alt (.kind .question) <|
      all [.kind .lBrace,blank,.kind .number,blank,
        .opt (all [.kind .comma,blank,.opt (.kind .number)]),blank,.kind .rBrace]
  | .position => all [.kind .lBracket,blank,.opt (.rule .attValList),blank,.kind .rBracket]
  | .attValList => .seq (.rule .attValAnd) (.star (all [blank,.kind .pipe,blank,.rule .attValAnd]))
  | .attValAnd => .seq (.rule .attVal) (.star (all [blank,.kind .amp,blank,.rule .attVal]))
  | .attVal => .alt (all [.kind .not,blank,.rule .attVal]) <|
      .alt (all [.kind .lParen,blank,.rule .attValList,blank,.kind .rParen]) <|
      all [.rule .attName,blank,.alt (.kind .notEq) (.kind .eq),blank,.rule .regExp]
  | .attName => .kind .ident
  | .regExp => all [.kind .quote,.opt (.rule .regExpRaw),.kind .quote]
  | .regExpRaw => plus (element .quote)
  | .structureTag => all [.kind .lt,blank,.opt (.kind .slash),blank,.rule .attName,
      .star (all [blank,.rule .attVal]),blank,.opt (.kind .slash),blank,.kind .gt]
  | .phraseQuery => .seq (.rule .phraseWord) (.star (all [blank,.rule .phraseWord]))
  | .phraseWord => plus (element .whitespace)

open Form in
def Grammar.Expr.form : Grammar.Expr → Form
  | .done => empty
  | .reject _ => never
  | .token k _ => kind k
  | .trivia => blank
  | .escape => alt (all [kind .backslash,any]) (last .backslash)
  | .run stop => plus (other [stop,.backslash])
  | .call r => rule r
  | .andThen first second => seq first.form second.form
  | .orElse first second => alt first.form second.form
  | .optional body => opt body.form
  | .attempt body => body.form
  | .many body => star body.form
  | .next _ yes no => alt yes.form no.form

def bodyForm (r : NonTerminal) : Form := (Grammar.body r).form

namespace Derives

variable {grammar : NonTerminal → Form} {a b f g : Form} {w u v : List Terminal} {k : Terminal}

@[simp] theorem empty_iff : Derives grammar .empty w v ↔ v = w :=
  ⟨fun h => by cases h; rfl,fun same => same ▸ .empty⟩

@[simp] theorem never_iff : Derives grammar .never w v ↔ False :=
  ⟨fun h => by (cases h),False.elim⟩

@[simp] theorem kind_iff : Derives grammar (.kind k) w v ↔ w = k :: v :=
  ⟨fun h => by cases h; rfl,fun same => same ▸ .kind⟩

@[simp] theorem seq_iff :
    Derives grammar (.seq a b) w v ↔ ∃ u, Derives grammar a w u ∧ Derives grammar b u v :=
  ⟨fun h => by cases h with | seq first second => exact ⟨_,first,second⟩,
    fun ⟨_,first,second⟩ => .seq first second⟩

@[simp] theorem alt_iff :
    Derives grammar (.alt a b) w v ↔ Derives grammar a w v ∨ Derives grammar b w v := by
  constructor
  · intro h
    cases h with
    | altFirst h => exact .inl h
    | altSecond h => exact .inr h
  · exact fun h => h.elim .altFirst .altSecond

@[simp] theorem opt_iff : Derives grammar (.opt a) w v ↔ v = w ∨ Derives grammar a w v := by
  constructor
  · intro h
    cases h with
    | optNone => exact .inl rfl
    | optSome h => exact .inr h
  · rintro (rfl | h)
    · exact .optNone
    · exact .optSome h

theorem blank_iff : Derives grammar .blank w v ↔ v = w ∨ w = .whitespace :: v := by
  simp [Form.blank]

@[simp] theorem all_nil_iff : Derives grammar (.all []) w v ↔ v = w := empty_iff

@[simp] theorem all_cons_iff {forms : List Form} : Derives grammar (.all (f :: forms)) w v ↔
    ∃ u, Derives grammar f w u ∧ Derives grammar (.all forms) u v := seq_iff

theorem starAppend (first : Derives grammar (.star a) w u) (second : Derives grammar (.star a) u v) :
    Derives grammar (.star a) w v := by
  generalize same : Form.star a = f at first
  induction first with
  | starNil =>
    cases same
    exact second
  | starCons item _ _ ih =>
    cases same
    exact .starCons item (ih second rfl)
  | empty | kind | other | last | rule | seq | altFirst | altSecond | optNone | optSome => cases same

theorem starMono (step : ∀ w v, Derives grammar a w v → Derives grammar (.star b) w v)
    (h : Derives grammar (.star a) w v) : Derives grammar (.star b) w v := by
  generalize same : Form.star a = f at h
  induction h with
  | starNil => exact .starNil
  | starCons item _ _ ih =>
    cases same
    exact (step _ _ item).starAppend (ih rfl)
  | empty | kind | other | last | rule | seq | altFirst | altSecond | optNone | optSome => cases same

theorem starOne (h : Derives grammar a w v) : Derives grammar (.star a) w v :=
  .starCons h .starNil

/-- What is derived stands before the rest. -/
theorem suffix (h : Derives grammar f w v) : v <:+ w := by
  induction h with
  | empty | optNone | starNil => exact List.suffix_rfl
  | kind | other | last => exact List.suffix_cons ..
  | rule _ ih | altFirst _ ih | altSecond _ ih | optSome _ ih => exact ih
  | seq _ _ ihFirst ihSecond | starCons _ _ ihFirst ihSecond => exact ihSecond.trans ihFirst

end Derives

def Spread (w : List Terminal) : Prop :=
  w.IsChain fun a b => ¬(a = .whitespace ∧ b = .whitespace)

theorem Spread.of_suffix {w v : List Terminal} (spread : Spread w) (h : v <:+ w) : Spread v :=
  List.IsChain.suffix spread h

theorem Spread.tail {k : Terminal} {w : List Terminal} (spread : Spread (k :: w)) : Spread w :=
  List.IsChain.tail spread

theorem Derives.spread {grammar : NonTerminal → Form} {f : Form} {w v : List Terminal}
    (h : Derives grammar f w v) (spread : Spread w) : Spread v := spread.of_suffix h.suffix

theorem Spread.head_ne {w : List Terminal} (spread : Spread (.whitespace :: w)) :
    w.head? ≠ some .whitespace := by
  cases w with
  | nil => simp
  | cons k rest =>
    rw [Spread,List.isChain_cons_cons] at spread
    simpa using spread.1

section Rules

variable {grammar : NonTerminal → Form} {w u v : List Terminal}

open Derives Grammar Grammar.Expr

theorem blank_refl (w : List Terminal) : Derives grammar .blank w w := .optNone

/-- Where no tokens of white space meet, optional white space twice is the same as once. -/
theorem blank_blank (spread : Spread w) (first : Derives grammar .blank w u)
    (second : Derives grammar .blank u v) : Derives grammar .blank w v := by
  rw [blank_iff] at *
  rcases first with rfl | rfl
  · exact second
  · rcases second with rfl | rfl
    · exact .inr rfl
    · simpa using spread.head_ne

/-- White space may stand after a mark that is missing, as other white space does before it. -/
theorem blank_markIfAny_iff (spread : Spread w) (k : Terminal) (rest : Form) :
    Derives grammar (.seq .blank (.seq (markIfAny k).form rest)) w v ↔
      Derives grammar (.seq .blank (.seq (.opt (.kind k)) (.seq .blank rest))) w v := by
  simp only [markIfAny,steps,mark,form,seq_iff,alt_iff,opt_iff,empty_iff,kind_iff,List.foldr_cons,
    List.foldr_nil]
  constructor
  · rintro ⟨u,before,x,(⟨_,marked,_,after,_,rfl,rfl⟩ | rfl),ends⟩
    · exact ⟨_,before,_,.inr marked,_,after,ends⟩
    · exact ⟨_,before,_,.inl rfl,_,blank_refl _,ends⟩
  · rintro ⟨u,before,x,(rfl | marked),y,after,ends⟩
    · exact ⟨y,blank_blank spread before after,y,.inr rfl,ends⟩
    · exact ⟨u,before,y,.inl ⟨x,marked,y,after,y,rfl,rfl⟩,ends⟩

/-- Braces: the bounds of a repetition. -/
theorem braces_iff (spread : Spread w) :
    Derives grammar (.all [.kind .lBrace,.blank,.kind .number,.blank,
      (markIfAny .comma (markIfAny .number)).form,.kind .rBrace]) w v ↔
    Derives grammar (.all [.kind .lBrace,.blank,.kind .number,.blank,
      .opt (.all [.kind .comma,.blank,.opt (.kind .number)]),.blank,.kind .rBrace]) w v := by
  simp only [markIfAny,steps,mark,form,all_cons_iff,all_nil_iff,seq_iff,alt_iff,opt_iff,empty_iff,
    kind_iff,List.foldr_cons,List.foldr_nil]
  constructor
  · rintro ⟨_,rfl,u,before,_,rfl,y,after,z,inner,ends⟩
    refine ⟨_,rfl,_,before,_,rfl,y,after,?_⟩
    rcases inner with ⟨_,comma,x,space,_,(⟨_,number,_,last,_,rfl,rfl⟩ | rfl),rfl⟩ | rfl
    · exact ⟨_,.inr ⟨_,comma,x,space,_,.inr number,rfl⟩,_,last,ends⟩
    · exact ⟨_,.inr ⟨_,comma,_,space,_,.inl rfl,rfl⟩,_,blank_refl _,ends⟩
    · exact ⟨_,.inl rfl,_,blank_refl _,ends⟩
  · rintro ⟨_,rfl,u,before,p,rfl,y,after,z,inner,x,last,ends⟩
    have spreadAfter : Spread p := (before.spread spread.tail).tail
    refine ⟨_,rfl,_,before,_,rfl,?_⟩
    rcases inner with rfl | ⟨q,rfl,r,space,_,(rfl | number),rfl⟩
    · exact ⟨x,blank_blank spreadAfter after last,x,.inr rfl,ends⟩
    · have spreadInner : Spread q := (after.spread spreadAfter).tail
      exact ⟨_,after,x,.inl ⟨q,rfl,x,blank_blank spreadInner space last,x,.inr rfl,rfl⟩,ends⟩
    · exact ⟨_,after,x,.inl ⟨q,rfl,r,space,x,.inl ⟨_,number,x,last,x,rfl,rfl⟩,rfl⟩,ends⟩

theorem repOpt_iff (spread : Spread w) :
    Derives grammar (bodyForm .repOpt) w v ↔ Derives grammar (production .repOpt) w v := by
  change Derives grammar (.alt _ (.alt _ (.alt _ _))) w v ↔
    Derives grammar (.alt _ (.alt _ (.alt _ _))) w v
  simp only [alt_iff]
  exact or_congr Iff.rfl (or_congr Iff.rfl (or_congr Iff.rfl (braces_iff spread)))

theorem seq_congr {a b b' : Form} (spread : Spread w)
    (same : ∀ u, Spread u → (Derives grammar b u v ↔ Derives grammar b' u v)) :
    Derives grammar (.seq a b) w v ↔ Derives grammar (.seq a b') w v := by
  rw [seq_iff,seq_iff]
  exact exists_congr fun u => and_congr_right fun first => same u (first.spread spread)

theorem structureTag_iff (spread : Spread w) : Derives grammar (bodyForm .structureTag) w v ↔
    Derives grammar (production .structureTag) w v :=
  -- A slash may stand in two places.
  seq_congr spread fun _ spread => (blank_markIfAny_iff spread .slash _).trans <|
    seq_congr spread fun _ spread => seq_congr spread fun _ spread =>
      seq_congr spread fun _ spread => seq_congr spread fun _ spread =>
        seq_congr spread fun _ spread => blank_markIfAny_iff spread .slash (.all [.kind .gt])

/-- An escape or a run is one element of a regular expression or more, and each element is one. -/
theorem plus_element_of_form (stop : Terminal)
    (h : Derives grammar (Expr.orElse .escape (.run stop)).form w v) :
    Derives grammar (.plus (.element stop)) w v := by
  have other : ∀ w v, Derives grammar (.other [stop,.backslash]) w v →
      Derives grammar (.element stop) w v := fun w v h => .altSecond (.altFirst h)
  cases h with
  | altFirst h =>
    cases h with
    | altFirst h => exact .seq (.altFirst h) .starNil
    | altSecond h => exact .seq (.altSecond (.altSecond h)) .starNil
  | altSecond h =>
    cases h with
    | seq first rest => exact .seq (other _ _ first) (rest.starMono fun w v h => (other w v h).starOne)

theorem form_of_element {stop : Terminal} (h : Derives grammar (.element stop) w v) :
    Derives grammar (Expr.orElse .escape (.run stop)).form w v := by
  cases h with
  | altFirst h => exact .altFirst (.altFirst h)
  | altSecond h =>
    cases h with
    | altFirst h => exact .altSecond (.seq h .starNil)
    | altSecond h => exact .altFirst (.altSecond h)

theorem elements_iff (stop : Terminal) : Derives grammar (elements stop).form w v ↔
    Derives grammar (.plus (.element stop)) w v := by
  constructor
  · rintro (_ | _ | _ | _ | _ | ⟨first,rest⟩)
    cases first with
    | altFirst first =>
      cases plus_element_of_form stop first with
      | seq one more =>
        refine .seq one (more.starAppend (rest.starMono fun w v h => ?_))
        cases plus_element_of_form stop h with
        | seq one more => exact .starCons one more
    | altSecond never => cases never
  · intro h
    cases h with
    | seq one more =>
      exact .seq (.altFirst (form_of_element one)) (more.starMono fun w v h =>
        (form_of_element h).starOne)

theorem phraseWord_append (first : Derives bodyForm (.rule .phraseWord) w u)
    (second : Derives bodyForm (.rule .phraseWord) u v) :
    Derives bodyForm (.rule .phraseWord) w v := by
  have word {w v : List Terminal} : Derives bodyForm (.rule .phraseWord) w v ↔
      Derives bodyForm (.plus (.element .whitespace)) w v :=
    ⟨fun h => by cases h with | rule h => exact (elements_iff .whitespace).mp h,
      fun h => .rule ((elements_iff .whitespace).mpr h)⟩
  rw [word] at *
  cases first with
  | seq one more =>
    cases second with
    | seq other others => exact .seq one (more.starAppend (.starCons other others))

/-- Words with white space between them where there is some. -/
theorem phraseQuery_of_words (first : Derives bodyForm (.rule .phraseWord) w u)
    (rest : Derives bodyForm (.star (.all [.blank,.rule .phraseWord])) u v) :
    Derives bodyForm (bodyForm .phraseQuery) w v := by
  suffices ∃ x, Derives bodyForm (.rule .phraseWord) w x ∧
      Derives bodyForm (.star (.all [.kind .whitespace,.rule .phraseWord])) x v from
    let ⟨_,word,words⟩ := this
    .seq word words
  generalize same : Form.star (.all [.blank,.rule .phraseWord]) = f at rest
  induction rest generalizing w with
  | starNil => exact ⟨_,first,.starNil⟩
  | starCons item _ _ ih =>
    cases same
    simp only [all_cons_iff,all_nil_iff,blank_iff] at item
    obtain ⟨x,(rfl | rfl),_,word,rfl⟩ := item
    · exact ih (phraseWord_append first word) rfl
    · obtain ⟨y,longer,words⟩ := ih word rfl
      exact ⟨_,first,.starCons (.seq .kind (.seq longer .empty)) words⟩
  | empty | kind | other | last | rule | seq | altFirst | altSecond | optNone | optSome => cases same

theorem words_of_phraseQuery (h : Derives grammar (bodyForm .phraseQuery) w v) :
    Derives grammar (production .phraseQuery) w v := by
  rcases h with _ | _ | _ | _ | _ | ⟨word,words⟩
  refine .seq word (words.starMono fun w v h => .starOne ?_)
  rcases h with _ | _ | _ | _ | _ | ⟨white,word⟩
  exact .seq (.optSome white) word

/-- The body of every other rule derives what is documented. -/
theorem bodyForm_iff {r : NonTerminal} (notPhrase : r ≠ .phraseQuery) (spread : Spread w) :
    Derives grammar (bodyForm r) w v ↔ Derives grammar (production r) w v := by
  cases r with
  | query | withinContainingPart | sequence | seq | attValList | attValAnd | attVal | attName =>
    exact Iff.rfl
  | withinOrContaining | repetition =>
    simp [bodyForm,body,production,markIfAny,steps,mark,form,or_comm]
  | atomQuery => simp [bodyForm,body,production,steps,mark,form,grouped]
  | unionOp => simp [bodyForm,body,production,steps,mark,form,positionPair]
  | meetOp =>
    simp [bodyForm,body,production,steps,mark,form,positionPair]
    grind
  | repOpt => exact repOpt_iff spread
  | position | regExp => simp [bodyForm,body,production,steps,mark,form]
  | structureTag => exact structureTag_iff spread
  | regExpRaw => exact elements_iff .quote
  | phraseWord => exact elements_iff .whitespace
  | phraseQuery => exact absurd rfl notPhrase

end Rules

/-- A derivation is replayed in a grammar of which each rule derives what its form does. -/
theorem Derives.replay {grammar other : NonTerminal → Form} {f : Form} {w v : List Terminal}
    (h : Derives grammar f w v)
    (rules : ∀ r w v, Spread w → Derives other (grammar r) w v → Derives other (other r) w v)
    (spread : Spread w) : Derives other f w v := by
  induction h with
  | empty => exact .empty
  | kind => exact .kind
  | other notIn => exact .other notIn
  | last => exact .last
  | rule _ ih => exact .rule (rules _ _ _ spread (ih spread))
  | seq first _ ihFirst ihSecond => exact .seq (ihFirst spread) (ihSecond (first.spread spread))
  | altFirst _ ih => exact .altFirst (ih spread)
  | altSecond _ ih => exact .altSecond (ih spread)
  | optNone => exact .optNone
  | optSome _ ih => exact .optSome (ih spread)
  | starNil => exact .starNil
  | starCons first _ ihFirst ihSecond =>
    exact .starCons (ihFirst spread) (ihSecond (first.spread spread))

/-- The bodies of the rules and the documented grammar derive the same, where no tokens of white
space meet. -/
theorem derives_production_iff {f : Form} {w v : List Terminal} (spread : Spread w) :
    Derives production f w v ↔ Derives bodyForm f w v := by
  constructor
  · refine fun h => h.replay (fun r w v spread h => ?_) spread
    by_cases phrase : r = .phraseQuery
    · subst phrase
      cases h with
      | seq word words => exact phraseQuery_of_words word words
    · exact (bodyForm_iff phrase spread).mpr h
  · refine fun h => h.replay (fun r w v spread h => ?_) spread
    by_cases phrase : r = .phraseQuery
    · exact phrase ▸ words_of_phraseQuery (phrase ▸ h)
    · exact (bodyForm_iff phrase spread).mp h

end CorpusQuery
