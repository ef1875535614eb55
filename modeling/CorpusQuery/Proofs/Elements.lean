import CorpusQuery.Proofs.FirstSets

/-! Regular expressions and the words of phrases are made of elements. The tokens leave no choice
which element comes next, so reading them as far as they go loses no derivation. -/
namespace CorpusQuery

open Grammar

section Elements

variable {stop : Terminal} {w v u : List Terminal}

theorem element_iff : Derives bodyForm (.element stop) w v ↔
    (∃ k, w = .backslash :: k :: v) ∨ (∃ k, w = k :: v ∧ k ≠ stop ∧ k ≠ .backslash) ∨
      w = [.backslash] ∧ v = [] := by
  constructor
  · rintro (_ | _ | _ | _ | _ | _ | pair | single)
    · simp only [Derives.all_cons_iff,Derives.all_nil_iff,Derives.kind_iff] at pair
      obtain ⟨x,rfl,_,any,rfl⟩ := pair
      cases any with
      | other => exact .inl ⟨_,rfl⟩
    · cases single with
      | altFirst single =>
        cases single with
        | @other kinds k w notIn =>
          simp only [List.mem_cons,List.not_mem_nil,or_false,not_or] at notIn
          exact .inr (.inl ⟨k,rfl,notIn⟩)
      | altSecond last =>
        cases last
        exact .inr (.inr ⟨rfl,rfl⟩)
  · rintro (⟨k,rfl⟩ | ⟨k,rfl,notStop,notEscape⟩ | ⟨rfl,rfl⟩)
    · exact .altFirst (.seq .kind (.seq (.other (by simp)) .empty))
    · exact .altSecond (.altFirst (.other (by simp [notStop,notEscape])))
    · exact .altSecond (.altSecond .last)

/-- The elements of a regular expression follow from its tokens. -/
theorem element_unique (first : Derives bodyForm (.element stop) w v)
    (second : Derives bodyForm (.element stop) w u) : v = u := by
  rw [element_iff] at first second
  grind

def Stuck (stop : Terminal) (w : List Terminal) : Prop :=
  ∀ v, ¬Derives bodyForm (.element stop) w v

theorem stuck_nil (stop : Terminal) : Stuck stop [] := by
  intro v h
  rw [element_iff] at h
  simp at h

theorem stuck_cons (notEscape : stop ≠ .backslash) (w : List Terminal) :
    Stuck stop (stop :: w) := by
  intro v h
  rw [element_iff] at h
  grind

theorem star_element_unique (first : Derives bodyForm (.star (.element stop)) w v)
    (second : Derives bodyForm (.star (.element stop)) w u) (stuck : Stuck stop u) :
    Derives bodyForm (.star (.element stop)) v u := by
  generalize same : Form.star (.element stop) = f at first
  induction first with
  | starNil =>
    cases same
    exact second
  | starCons item _ _ ih =>
    cases same
    cases second with
    | starNil => exact absurd item (stuck _)
    | starCons item' rest => exact ih (element_unique item' item ▸ rest) rfl
  | empty | kind | other | last | rule | seq | altFirst | altSecond | optNone | optSome => cases same

theorem star_of_stuck (stuck : Stuck stop w) (h : Derives bodyForm (.star (.element stop)) w v) :
    v = w := by
  cases h with
  | starNil => rfl
  | starCons item => exact absurd item (stuck _)

end Elements

namespace Grammar.Trail

variable {stop : Terminal} {c : Cursor} {ending : Ending} {T : List Entry}

/-- Where neither an escape nor a run is read, no element comes next. -/
theorem element_cases (h : Trail (.orElse .escape (.run stop)) c ending T) :
    (∃ d, ending = .complete d) ∨ ending = .broken none c ∧ T = [] ∧ Stuck stop c.kinds := by
  cases h with
  | orElse first stops =>
    cases first with
    | escape => exact .inl ⟨_,rfl⟩
    | noEscape => simp at stops
  | orElseSecond first second =>
    cases second with
    | run => exact .inl ⟨_,rfl⟩
    | noRun zero =>
      refine .inr ⟨rfl,rfl,fun v element => ?_⟩
      cases first with
      | noEscape dark =>
        have notEscape : c.kinds.head? ≠ some .backslash := fun head => by
          simp [Cursor.isAt_iff_head?.mpr head] at dark
        rcases element_iff.mp element with ⟨k,split⟩ | ⟨k,split,notStop,notBackslash⟩ | ⟨split,-⟩
        · simp [split] at notEscape
        · cases tokens : c.rest with
          | nil => simp [Cursor.kinds,tokens] at split
          | cons token rest =>
            have kind : token.kind = k := by
              have := congrArg List.head? split
              simpa [Cursor.kinds,tokens] using this
            simp [Recognizer.runLength,tokens,kind,notStop,notBackslash] at zero
        · simp [split] at notEscape

theorem many_element (h : Trail (.many (.orElse .escape (.run stop))) c ending T) :
    ∃ d, ending = .complete d ∧ Stuck stop d.kinds := by
  refine h.many_completes (fun _ => True) (fun d => Stuck stop d.kinds) ?_ trivial
  intro c ending T _ first
  rcases first.element_cases with ⟨d,complete⟩ | ⟨broken,empty,stuck⟩
  · exact .inl ⟨d,complete,trivial⟩
  · exact .inr ⟨⟨c,broken⟩,by simp [empty],stuck⟩

theorem elements_cases (h : Trail (Expr.elements stop) c ending T) :
    (∃ d, ending = .complete d ∧ Stuck stop d.kinds) ∨
      ending = .broken none c ∧ T = [] ∧ Stuck stop c.kinds := by
  have first_cases {ending : Ending} {T : List Entry}
      (h : Trail (.orElse (.orElse .escape (.run stop)) (.reject [.regExpChars])) c ending T) :
      (∃ d, ending = .complete d) ∨ ending = .broken none c ∧ T = [] ∧ Stuck stop c.kinds := by
    cases h with
    | orElse first stops =>
      refine first.element_cases.imp_right fun h => ?_
      simp [h.1] at stops
    | orElseSecond first second =>
      cases second
      rcases first.element_cases with ⟨d,complete⟩ | h
      · cases complete
      · exact .inr h
  cases h with
  | andThen _ second => exact .inl second.many_element
  | andThenBroken first =>
    rcases first_cases first with ⟨d,complete⟩ | h
    · cases complete
    · exact .inr h
  | andThenRests first | andThenGivesUp first =>
    rcases first_cases first with ⟨d,complete⟩ | ⟨broken,-,-⟩
    · cases complete
    · cases broken

/-- A rule that reads elements reads them as far as they go, past where a derivation may end. -/
theorem elements_of_derives {r : NonTerminal} (reads : body r = Expr.elements stop)
    (rests : ∀ k, r.rests k = false) (h : Trail (.call r) c ending T) {x : List Terminal}
    (derives : Derives bodyForm (.rule r) c.kinds x) :
    ∃ d, ending = .complete d ∧ Stuck stop d.kinds ∧
      Derives bodyForm (.star (.element stop)) x d.kinds := by
  have form : bodyForm r = (Expr.elements stop).form := congrArg Expr.form reads
  have plus {v : List Terminal} (h : Derives bodyForm (bodyForm r) c.kinds v) :
      ∃ u, Derives bodyForm (.element stop) c.kinds u ∧
        Derives bodyForm (.star (.element stop)) u v := by
    rw [form,elements_iff] at h
    exact Derives.seq_iff.mp h
  cases derives with
  | rule derives =>
    obtain ⟨u,item,items⟩ := plus derives
    cases h with
    | call inner =>
      have read := inner.derives
      rw [reads] at inner
      rcases inner.elements_cases with ⟨d,same,stuck⟩ | ⟨broken,-,-⟩
      · cases same
        obtain ⟨u',item',items'⟩ := plus read
        have here : u' = u := element_unique item' item
        exact ⟨_,rfl,stuck,star_element_unique items (here ▸ items') stuck⟩
      · cases broken
    | callBroken inner =>
      rw [reads] at inner
      rcases inner.elements_cases with ⟨d,complete,-⟩ | ⟨-,-,stuck⟩
      · cases complete
      · exact absurd item (stuck _)
    | callRests _ waits =>
      obtain ⟨k,waits⟩ := waits
      simp [rests] at waits

/-- Where a first part always completes, the second one goes on. -/
theorem second_of_complete {a b : Expr} {P : Cursor → Prop} (h : Trail (.andThen a b) c ending T)
    (first : ∀ ending U, Trail a c ending U → ∃ m, ending = .complete m ∧ P m) :
    ∃ m U, P m ∧ Trail b m ending U := by
  cases h with
  | andThen read second =>
    obtain ⟨m,same,holds⟩ := first _ _ read
    cases same
    exact ⟨_,_,holds,second⟩
  | andThenBroken read | andThenRests read | andThenGivesUp read =>
    obtain ⟨m,same,-⟩ := first _ _ read
    cases same

theorem token_of_kinds {kind tag : Terminal} {w : List Terminal} (same : c.kinds = kind :: w)
    (h : Trail (.token kind tag) c ending T) : ∃ m, ending = .complete m ∧ m.kinds = w := by
  have at_ : c.isAt kind = true := Cursor.isAt_iff_head?.mpr (by rw [same]; rfl)
  cases h with
  | token => exact ⟨_,rfl,(List.cons.inj ((Cursor.kinds_of_isAt at_).symm.trans same)).2⟩
  | noToken notAt => simp [at_] at notAt

theorem quoted_of_derives {v : List Terminal}
    (h : Trail (.next [.quote] .done (.optional (.call .regExpRaw))) c ending T)
    (derives : c.kinds = .quote :: v ∨ Derives bodyForm (.rule .regExpRaw) c.kinds (.quote :: v)) :
    ∃ m, ending = .complete m ∧ m.kinds = .quote :: v := by
  have stuck (v : List Terminal) : Stuck .quote (.quote :: v) := stuck_cons (by simp) v
  have inside {ending : Ending} {T : List Entry} (h : Trail (.call .regExpRaw) c ending T)
      (raw : Derives bodyForm (.rule .regExpRaw) c.kinds (.quote :: v)) :
      ∃ m, ending = .complete m ∧ m.kinds = .quote :: v := by
    obtain ⟨d,complete,-,items⟩ := h.elements_of_derives rfl (fun _ => rfl) raw
    exact ⟨d,complete,star_of_stuck (stuck v) items⟩
  cases h with
  | nextYes at_ h =>
    cases h
    refine ⟨_,rfl,derives.resolve_right fun raw => ?_⟩
    -- No element of a value starts with a quotation mark.
    obtain ⟨rest,split⟩ : ∃ rest, c.kinds = .quote :: rest := by
      rw [Cursor.kind?_eq_head?] at at_
      cases split : c.kinds with
      | nil => simp [split] at at_
      | cons k rest => exact ⟨rest,by simpa [split,eq_comm] using at_⟩
    rw [split] at raw
    cases raw with
    | rule raw =>
      have raw := (elements_iff .quote).mp raw
      cases raw with
      | seq item => exact stuck rest _ item
  | nextNo notAt h =>
    have raw := derives.resolve_left fun split => by
      simp [Cursor.kind?_eq_head?,split] at notAt
    cases h with
    | optional first => exact inside first raw
    | optionalNone first | optionalRests first =>
      obtain ⟨m,complete,-⟩ := inside first raw
      cases complete

theorem regExp_of_derives (h : Trail (body .regExp) c ending T) {v : List Terminal}
    (derives : Derives bodyForm (bodyForm .regExp) c.kinds v) :
    ∃ d, ending = .complete d ∧ v = d.kinds := by
  obtain ⟨u,opens,value⟩ : ∃ u, c.kinds = .quote :: u ∧
      (u = .quote :: v ∨ Derives bodyForm (.rule .regExpRaw) u (.quote :: v)) := by
    simpa [bodyForm,body,Expr.steps,Expr.mark,Expr.form,eq_comm] using derives
  obtain ⟨m,_,rfl,h⟩ := h.second_of_complete fun _ _ => token_of_kinds opens
  obtain ⟨m,_,closes,h⟩ := h.second_of_complete fun _ _ h => h.quoted_of_derives value
  obtain ⟨m,_,rfl,h⟩ := h.second_of_complete fun _ _ => token_of_kinds closes
  cases h
  exact ⟨_,rfl,rfl⟩

end Grammar.Trail

namespace Grammar

def spacedWord : Expr := Expr.steps [Expr.mark .whitespace,.call .phraseWord]

namespace Trail

variable {c : Cursor} {ending : Ending} {T : List Entry} {u x : List Terminal}

theorem phraseWord_of_derives (h : Trail (.call .phraseWord) c ending T)
    (derives : Derives bodyForm (.rule .phraseWord) c.kinds x) (stuck : Stuck .whitespace x) :
    ∃ d, ending = .complete d ∧ d.kinds = x := by
  obtain ⟨d,complete,-,items⟩ := h.elements_of_derives rfl (fun _ => rfl) derives
  exact ⟨d,complete,star_of_stuck stuck items⟩

theorem spacedWord_of_derives (h : Trail spacedWord c ending T)
    (derives : Derives bodyForm spacedWord.form c.kinds x) (stuck : Stuck .whitespace x) :
    ∃ d, ending = .complete d ∧ d.kinds = x := by
  obtain ⟨u,white,word⟩ : ∃ u, c.kinds = .whitespace :: u ∧
      Derives bodyForm (.rule .phraseWord) u x := by
    simpa [spacedWord,Expr.steps,Expr.mark,Expr.form] using derives
  obtain ⟨m,_,rfl,h⟩ := h.second_of_complete fun _ _ => token_of_kinds white
  obtain ⟨m,_,rfl,h⟩ := h.second_of_complete fun _ _ h => h.phraseWord_of_derives word stuck
  cases h
  exact ⟨_,rfl,rfl⟩

/-- Words are followed by white space, or by nothing, where white space at most is left after them. -/
theorem stuck_of_words (rest : Derives bodyForm (Expr.many spacedWord).form x u)
    (ends : u = [] ∨ u = [.whitespace]) : Stuck .whitespace x := by
  cases rest with
  | starNil =>
    rcases ends with rfl | rfl
    · exact stuck_nil _
    · exact stuck_cons (by simp) []
  | starCons item _ =>
    obtain ⟨y,rfl,-⟩ : ∃ y, x = .whitespace :: y ∧ Derives bodyForm (.rule .phraseWord) y _ := by
      simpa [spacedWord,Expr.steps,Expr.mark,Expr.form] using item
    exact stuck_cons (by simp) y

theorem words_of_derives (h : Trail (.many spacedWord) c ending T) (spaced : c.Spaced)
    (derives : Derives bodyForm (Expr.many spacedWord).form c.kinds u)
    (ends : u = [] ∨ u = [.whitespace]) : ∃ d, ending = .complete d ∧ d.kinds = u := by
  have sound : spacedWord.predictive = true := by decide
  refine h.many_completes
    (fun d => d.Spaced ∧ Derives bodyForm (Expr.many spacedWord).form d.kinds u)
    (fun d => d.kinds = u) ?_ ⟨spaced,derives⟩
  rintro c ending T ⟨spaced,derives⟩ first
  generalize same : c.kinds = w at derives
  cases derives with
  | starNil =>
    -- Where nothing is left to derive, nothing but white space can be read.
    have blank : Blank T := by
      by_contra dark
      obtain ⟨k,ahead,-⟩ := first.starts spaced sound dark (by decide)
      rw [← ahead?_kinds,same] at ahead
      rcases ends with rfl | rfl <;> simp [ahead?] at ahead
    cases ending with
    | complete d => exact absurd (first.blankable_of_blank sound blank) (by decide)
    | broken resting f =>
      cases resting with
      | none => exact .inr ⟨⟨f,rfl⟩,blank,rfl⟩
      | some d => exact absurd blank first.not_blank_of_rests
  | starCons item rest =>
    subst same
    obtain ⟨d,rfl,here⟩ := first.spacedWord_of_derives item (stuck_of_words rest ends)
    exact .inl ⟨d,rfl,first.reach.spaced spaced,here ▸ rest⟩

theorem phraseQuery_of_derives (h : Trail (body .phraseQuery) c ending T) (spaced : c.Spaced)
    (derives : Derives bodyForm (bodyForm .phraseQuery) c.kinds u)
    (ends : u = [] ∨ u = [.whitespace]) : ∃ d, ending = .complete d ∧ d.kinds = u := by
  obtain ⟨x,word,words⟩ := Derives.seq_iff.mp derives
  obtain ⟨m,_,⟨spaced,here⟩,h⟩ := h.second_of_complete (P := fun m => m.Spaced ∧ m.kinds = x)
    fun ending _ first => by
      obtain ⟨d,complete,here⟩ := first.phraseWord_of_derives word (stuck_of_words words ends)
      exact ⟨d,complete,(complete ▸ first).reach.spaced spaced,here⟩
  exact h.words_of_derives spaced (here ▸ words) ends

end Trail

end Grammar

end CorpusQuery
