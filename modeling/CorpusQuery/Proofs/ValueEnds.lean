import CorpusQuery.Proofs.Diagnosis
import CorpusQuery.Proofs.Elements
import CorpusQuery.Proofs.EscapedText

/-! Where a quoted value ends: at the first quotation mark with an even number of backslashes before it. A
phrase has no end but that of the text. So highlighting leaves some text of a value over if such a mark is in
it, and never any text of a phrase. -/
namespace CorpusQuery

open Grammar

def Cursor.AtLast (c : Cursor) : Prop := c.rest = [] ∨ c.isAt .whitespace = true ∧ (c.advance 1).rest = []

theorem Stuck.next {stop : Terminal} {c : Cursor} (stuck : Stuck stop c.kinds) :
    c.rest = [] ∨ c.isAt stop = true := by
  cases split : c.rest with
  | nil => exact .inl rfl
  | cons token rest =>
    refine .inr (by_contra fun other => ?_)
    have kinds : c.kinds = token.kind :: rest.map Token.kind := by simp [Cursor.kinds,split]
    have differs : token.kind ≠ stop := by simpa [Cursor.isAt_iff_head?,kinds] using other
    rw [kinds] at stuck
    by_cases escapes : token.kind = .backslash
    · rw [escapes] at stuck
      cases rest with
      | nil => exact stuck [] (element_iff.mpr (.inr (.inr ⟨rfl,rfl⟩)))
      | cons next rest => exact stuck _ (element_iff.mpr (.inl ⟨next.kind,rfl⟩))
    · exact stuck _ (element_iff.mpr (.inr (.inl ⟨_,rfl,differs,escapes⟩)))

namespace Grammar

namespace Trail

variable {e : Expr} {c : Cursor} {ending : Ending} {T : List Entry} {t : Text} {stop : Terminal}

/-! ### Trails that do not rest -/

section NoRest

variable {P Q : Cursor → List Entry → Prop}

theorem second_or_broken {a b : Expr} (h : Trail (.andThen a b) c ending T)
    (first : ∀ ending U, Trail a c ending U → (∃ m, ending = .complete m ∧ P m U) ∨
      ∃ f, ending = .broken none f ∧ Q f U) :
    (∃ m U V, T = U ++ V ∧ P m U ∧ Trail b m ending V) ∨ ∃ f, ending = .broken none f ∧ Q f T := by
  cases h with
  | andThen read second =>
    rcases first _ _ read with ⟨_,same,holds⟩ | ⟨_,broken,-⟩
    · cases same
      exact .inl ⟨_,_,_,rfl,holds,second⟩
    · cases broken
  | andThenBroken read =>
    rcases first _ _ read with ⟨_,complete,-⟩ | ⟨_,same,holds⟩
    · cases complete
    · cases same
      exact .inr ⟨_,rfl,holds⟩
  | andThenRests read | andThenGivesUp read =>
    rcases first _ _ read with ⟨_,complete,-⟩ | ⟨_,broken,-⟩
    · cases complete
    · cases broken

theorem of_call {r : NonTerminal} {P : Cursor → Prop} (h : Trail (.call r) c ending T)
    (inner : ∀ ending U, Trail (body r) c ending U → (∃ d, ending = .complete d ∧ P d) ∨
      ∃ f, ending = .broken none f ∧ Q f U) :
    (∃ d, ending = .complete d ∧ P d) ∨ ∃ f, ending = .broken none f ∧ Q f T := by
  cases h with
  | call read =>
    rcases inner _ _ read with complete | ⟨_,broken,-⟩
    · exact .inl complete
    · cases broken
  | callBroken read => exact inner _ _ read
  | callRests read =>
    rcases inner _ _ read with ⟨_,complete,-⟩ | ⟨_,broken,-⟩
    · cases complete
    · cases broken

theorem token_cases {kind tag : Terminal} (h : Trail (.token kind tag) c ending T) :
    (∃ m, ending = .complete m ∧ m = c.advance 1 ∧ c.isAt kind = true ∧ T = [c.leaf tag 1]) ∨
      ∃ f, ending = .broken none f ∧ f = c ∧ c.isAt kind = false ∧ T = [] := by
  cases h with
  | token at_ => exact .inl ⟨_,rfl,rfl,at_,rfl⟩
  | noToken notAt => exact .inr ⟨_,rfl,rfl,notAt,rfl⟩

theorem trivia_cases (h : Trail .trivia c ending T) :
    ∃ d, ending = .complete d ∧ (d = c ∧ c.isAt .whitespace = false ∨
      d = c.advance 1 ∧ c.isAt .whitespace = true) := by
  cases h with
  | trivia at_ => exact ⟨_,rfl,.inr ⟨rfl,at_⟩⟩
  | noTrivia notAt => exact ⟨_,rfl,.inl ⟨rfl,notAt⟩⟩

theorem call_elements {r : NonTerminal} (reads : body r = Expr.elements stop)
    (h : Trail (.call r) c ending T) : (∃ d, ending = .complete d ∧ Stuck stop d.kinds) ∨
      ∃ f, ending = .broken none f ∧ f = c ∧ T = [] ∧ Stuck stop f.kinds := by
  refine h.of_call (Q := fun f U => f = c ∧ U = [] ∧ Stuck stop f.kinds) fun _ _ inner => ?_
  rw [reads] at inner
  exact inner.elements_cases.imp_right fun broken => ⟨c,broken.1,rfl,broken.2⟩

end NoRest

/-! ### Values -/

theorem stuck_of_regExpRaw (h : Trail StartRule.regExpRaw.expr c ending T) :
    Stuck .quote ending.reach.kinds := by
  obtain ⟨m,_,-,h⟩ := h.second_of_complete fun _ _ => trivia_cases
  rcases h.second_or_broken fun _ _ value => value.call_elements rfl with
    ⟨d,_,_,-,stuck,space⟩ | ⟨f,rfl,-,-,stuck⟩
  · obtain ⟨_,rfl,⟨rfl,-⟩ | ⟨-,white⟩⟩ := space.trivia_cases
    · exact stuck
    · rcases stuck.next with empty | quote
      · obtain ⟨_,_,split,-⟩ := Cursor.rest_of_isAt white
        simp [empty] at split
      · simp [Cursor.isAt_iff,Cursor.isAt_iff.mp white] at quote
  · exact stuck

theorem content_cases (h : Trail (.next [.quote] .done (.optional (.call .regExpRaw))) c ending T) :
    ∃ d, ending = .complete d ∧ Stuck .quote d.kinds := by
  cases h with
  | nextYes at_ h =>
    cases h
    refine ⟨c,rfl,?_⟩
    have isQuote : c.isAt .quote = true := by
      cases kind : c.kind? with
      | none => simp [kind] at at_
      | some k =>
        rw [Cursor.isAt_iff,kind]
        simpa [kind] using at_
    rw [Cursor.kinds_of_isAt isQuote]
    exact stuck_cons (by decide) _
  | nextNo _ h =>
    cases h with
    | optional value stops =>
      rcases value.call_elements rfl with complete | ⟨_,broken,-⟩
      · exact complete
      · simp [broken] at stops
    | optionalNone value =>
      rcases value.call_elements rfl with ⟨_,complete,-⟩ | ⟨_,-,rfl,-,stuck⟩
      · cases complete
      · exact ⟨_,rfl,stuck⟩
    | optionalRests value dark =>
      rcases value.call_elements rfl with ⟨_,complete,-⟩ | ⟨_,-,-,rfl,-⟩
      · cases complete
      · simp at dark

/-- A quoted value is read up to a quotation mark, or up to the end of the tokens. -/
theorem regExp_read (h : Trail (body .regExp) c ending T) (at_ : c.isAt .quote = true)
    (from_ : Cursor.Reaches ⟨0,tokenize t⟩ c) : ∃ d, (c.advance 1).ReadsEscaped d ∧ c.Reaches d ∧
      (d.isAt .quote = true ∧ ending = .complete (d.advance 1) ∨
        d.rest = [] ∧ ending = .broken none d) := by
  rcases h.second_or_broken fun _ _ => token_cases with ⟨_,_,_,-,⟨rfl,-⟩,h⟩ | ⟨_,-,-,notAt,-⟩
  · have onward := Cursor.reaches_advance c 1
    obtain ⟨d,_,⟨reads,reaches,stuck⟩,h⟩ := h.second_of_complete
      (P := fun d => (c.advance 1).ReadsEscaped d ∧ c.Reaches d ∧ Stuck .quote d.kinds)
      fun _ _ content => by
        obtain ⟨d,rfl,stuck⟩ := content.content_cases
        exact ⟨d,rfl,content.readsEscaped rfl (from_.trans onward),onward.trans content.reach,stuck⟩
    refine ⟨d,reads,reaches,?_⟩
    rcases h.second_or_broken fun _ _ => token_cases with
      ⟨_,_,_,-,⟨rfl,isQuote,-⟩,done⟩ | ⟨_,rfl,rfl,notQuote,-⟩
    · cases done
      exact .inl ⟨isQuote,rfl⟩
    · exact .inr ⟨stuck.next.resolve_right (by simp [notQuote]),rfl⟩
  · simp [at_] at notAt

theorem call_regExp (h : Trail (.call .regExp) c ending T) (at_ : c.isAt .quote = true)
    (from_ : Cursor.Reaches ⟨0,tokenize t⟩ c) : ∃ d, (c.advance 1).ReadsEscaped d ∧ c.Reaches d ∧
      (d.isAt .quote = true ∧ ending = .complete (d.advance 1) ∨
        d.rest = [] ∧ ending = .broken none d) := by
  cases h with
  | call inner | callBroken inner => exact inner.regExp_read at_ from_
  | callRests _ rests =>
    obtain ⟨_,rests⟩ := rests
    cases rests

/-! ### Phrases -/

theorem spacedWord_cases (h : Trail spacedWord c ending T) (spaced : c.Spaced) :
    (∃ d, ending = .complete d ∧ Stuck .whitespace d.kinds) ∨
      (∃ f, ending = .broken none f) ∧ Blank T ∧
        (c.isAt .whitespace = true → (c.advance 1).rest = []) := by
  rcases h.second_or_broken fun _ _ => token_cases with
    ⟨_,_,_,rfl,⟨rfl,white,rfl⟩,more⟩ | ⟨_,rfl,-,notAt,rfl⟩
  · rcases more.second_or_broken fun _ _ word => word.call_elements rfl with
      ⟨d,_,_,-,stuck,done⟩ | ⟨_,rfl,rfl,rfl,stuck⟩
    · cases done
      exact .inl ⟨d,rfl,stuck⟩
    · refine .inr ⟨⟨_,rfl⟩,by simp [Blank],fun _ => stuck.next.resolve_right ?_⟩
      simp [spaced.not_isAt_advance white]
  · exact .inr ⟨⟨_,rfl⟩,by simp,by simp [notAt]⟩

theorem words_cases (h : Trail (.many spacedWord) c ending T) (spaced : c.Spaced)
    (stuck : Stuck .whitespace c.kinds) : ∃ d, ending = .complete d ∧ d.AtLast := by
  refine h.many_completes (fun d => d.Spaced ∧ Stuck .whitespace d.kinds) Cursor.AtLast ?_
    ⟨spaced,stuck⟩
  rintro c ending T ⟨spaced,stuck⟩ first
  rcases first.spacedWord_cases spaced with ⟨d,rfl,stuck⟩ | ⟨broken,blank,last⟩
  · exact .inl ⟨d,rfl,first.reach.spaced spaced,stuck⟩
  · exact .inr ⟨broken,blank,stuck.next.imp_right fun white => ⟨white,last white⟩⟩

theorem phraseQuery_cases (h : Trail (.call .phraseQuery) c ending T) (spaced : c.Spaced) :
    (∃ d, ending = .complete d ∧ d.AtLast) ∨
      ∃ f, ending = .broken none f ∧ f = c ∧ Stuck .whitespace f.kinds := by
  refine h.of_call (Q := fun f _ => f = c ∧ Stuck .whitespace f.kinds) fun _ _ inner => ?_
  rcases inner.second_or_broken (P := fun d _ => d.Spaced ∧ Stuck .whitespace d.kinds)
    fun _ _ word => (word.call_elements rfl).imp_left fun ⟨d,complete,stuck⟩ =>
      ⟨d,complete,(complete ▸ word.reach.spaced spaced :),stuck⟩ with
    ⟨_,_,_,-,⟨onward,stuck⟩,more⟩ | ⟨f,broken,same,-,stuck⟩
  · exact .inl (more.words_cases onward stuck)
  · exact .inr ⟨f,broken,same,stuck⟩

theorem rest_of_phraseQuery (h : Trail StartRule.phraseQuery.expr c ending T) (spaced : c.Spaced) :
    ending.reach.rest = [] := by
  obtain ⟨m,_,⟨onward,notAt⟩,h⟩ := h.second_of_complete
    (P := fun m => m.Spaced ∧ m.isAt .whitespace = false) fun _ _ space => by
      obtain ⟨_,rfl,⟨rfl,notAt⟩ | ⟨rfl,white⟩⟩ := space.trivia_cases
      · exact ⟨_,rfl,spaced,notAt⟩
      · exact ⟨_,rfl,spaced.advance 1,spaced.not_isAt_advance white⟩
  rcases h.second_or_broken fun _ _ phrase => phrase.phraseQuery_cases onward with
    ⟨d,_,_,-,last,space⟩ | ⟨_,rfl,rfl,stuck⟩
  · obtain ⟨_,rfl,⟨rfl,notAt⟩ | ⟨rfl,white⟩⟩ := space.trivia_cases
    · exact last.resolve_right (by simp [notAt])
    · rcases last with empty | ⟨-,empty⟩
      · simp [empty]
      · exact empty
  · exact stuck.next.resolve_right (by simp [notAt])

end Trail

/-- What comes of a value that is entered at a quotation mark: it is read up to the first mark behind that
which is not escaped, with that mark, or it fails for want of one. -/
inductive ReadsValue (t : Text) (c : Cursor) (o : Outcome) : Prop where
  | closed : o.matched = true → t.FirstQuoteAt (c.offset + 1) n → c.Reaches o.cursor →
      o.cursor.offset = n + 1 → ReadsValue t c o
  | unclosed : o.matched = false → t.NoQuoteFrom (c.offset + 1) → o.cursor = c → ReadsValue t c o

/-- A value begins behind a quotation mark, so no backslash stands right before it. -/
theorem even_before_value {t : Text} {c : Cursor} (from_ : Cursor.Reaches ⟨0,tokenize t⟩ c)
    (at_ : c.isAt .quote = true) : ∃ front, t = front ++ (c.advance 1).text ∧
      (c.advance 1).offset = Text.byteLength front ∧ Even (Text.backslashes front) := by
  obtain ⟨opens,next⟩ := from_.text_of_mark '"' (by decide) at_
  obtain ⟨front,split,offset⟩ := (from_.inside (Cursor.in_tokenize t)).place
  refine ⟨front ++ ['"'],by simpa [opens] using split,by simp [next,offset],?_⟩
  rw [Text.backslashes_concat (by decide)]
  exact Even.zero

theorem readsValue_recognize {t : Text} {c : Cursor} (from_ : Cursor.Reaches ⟨0,tokenize t⟩ c)
    (at_ : c.isAt .quote = true) : ReadsValue t c (recognize .regExp c) := by
  have runs := runs_recognize .regExp c
  obtain ⟨x⟩ := runs.explained rfl (from_.spaced (Cursor.spaced_tokenize t))
  obtain ⟨d,reads,reaches,ends⟩ := x.trail.call_regExp at_ from_
  obtain ⟨front,place,start,even⟩ := even_before_value from_ at_
  have next := (from_.text_of_mark '"' (by decide) at_).2
  have stops := x.stops
  rcases ends with ⟨isQuote,complete⟩ | ⟨empty,broken⟩
  · obtain ⟨closes,last⟩ := (from_.trans reaches).text_of_mark '"' (by decide) isQuote
    have first := reads.firstQuoteAt place start even closes
    rw [complete] at stops
    cases matched : (recognize .regExp c).matched with
    | false => simp [matched] at stops
    | true =>
      have same : (recognize .regExp c).cursor = d.advance 1 := by simpa [matched,eq_comm] using stops
      refine .closed matched (next ▸ first) ?_ ?_
      · exact same ▸ reaches.trans (Cursor.reaches_advance d 1)
      · exact same ▸ last
  · have never := reads.noQuoteFrom place start even (by simp [Cursor.text,empty])
    rw [broken] at stops
    cases matched : (recognize .regExp c).matched with
    | true => simp [matched] at stops
    | false => exact .unclosed matched (next ▸ never) (runs.stays matched (.inr rfl))

end Grammar

/-! ### Start rules -/

/-- How far a start rule reads a text: the end of the rightmost terminal in the trace. -/
def StartRule.reach (start : StartRule) (t : Text) : Nat :=
  ((SpanTable.Builder.start t).run (parse t start).events).1.reach

theorem valueEnds_reach (t : Text) : t.ValueEnds 0 (StartRule.regExpRaw.reach t) := by
  obtain ⟨x⟩ := reading t .regExpRaw
  rw [StartRule.reach,x.reach_eq]
  have reads := x.trail.readsEscaped rfl (.refl _)
  have stuck := x.trail.stuck_of_regExpRaw
  have inside := x.trail.reach.inside (Cursor.in_tokenize t)
  have whole : t = [] ++ Cursor.text ⟨0,tokenize t⟩ := (Token.flatMap_text_tokenize t).symm
  have even : Even (Text.backslashes []) := Even.zero
  rcases stuck.next with empty | isQuote
  · have atEnd : x.ending.reach.text = [] := by simp [Cursor.text,empty]
    obtain ⟨before,split,offset⟩ := inside.place
    rw [offset,← List.append_nil before,← atEnd,← split]
    exact .never (reads.noQuoteFrom whole rfl even atEnd)
  · exact .quote (reads.firstQuoteAt whole rfl even (x.trail.reach.text_of_mark '"' (by decide) isQuote).1)

theorem reach_phraseQuery (t : Text) : StartRule.phraseQuery.reach t = t.byteLength := by
  obtain ⟨x⟩ := reading t .phraseQuery
  rw [StartRule.reach,x.reach_eq]
  have empty := x.trail.rest_of_phraseQuery (Cursor.spaced_tokenize t)
  obtain ⟨before,split,offset⟩ := (x.trail.reach.inside (Cursor.in_tokenize t)).place
  rw [offset,split]
  simp [Cursor.text,empty]

/-! ### Highlighting -/

namespace Highlighter

open Markup Html

/-- HTML has text in it that is marked as unrecognized. -/
def MarksUnrecognized (html : Text) : Prop :=
  ∃ p ∈ Html.read html, p.hasClass "sh-unrecognized" = true

/-- What marks text as unrecognized is a fragment of its own. -/
theorem marksUnrecognized_html (m : Markup) :
    MarksUnrecognized (Markup.html m) ↔ ∃ title t, Fragment.unrecognized title t ∈ m := by
  rw [MarksUnrecognized,Markup.read_html]
  constructor
  · rintro ⟨p,member,isClass⟩
    obtain ⟨i,at_⟩ := List.mem_iff_getElem?.mp member
    obtain ⟨front,f,back,_,split,same,-⟩ := split_of_hasClass at_ (by decide) isClass
    have inMarkup : f ∈ m := by simp [split]
    cases f with
    | unrecognized title t => exact ⟨title,t,inMarkup⟩
    | styled style t => exact absurd (Fragment.plain_styled style t _ same) (by decide)
    | opening w => cases w <;> simp [Fragment.cssClass?] at same
    | closing | lineBreak => cases same
  · rintro ⟨title,t,member⟩
    exact ⟨_,List.mem_flatMap.mpr ⟨_,member,List.mem_cons_self⟩,hasClass_self _ _⟩

theorem splitWord_ne_nil {t : Text} (nonempty : t ≠ []) : (splitWord t).1 ++ (splitWord t).2.1 ≠ [] := by
  intro empty
  have whole := splitWord_append t
  have shorter := length_splitWord_lt nonempty
  rw [empty,List.nil_append] at whole
  rw [whole] at shorter
  exact absurd shorter (Nat.lt_irrefl _)

/-- The first of some passes skips text if its pass left some over. -/
theorem skipped_eq_nil_iff (h : Highlighter) (v : Vocabulary) (depth : Nat) (start : StartRule)
    (fallbacks : List StartRule) (t : Text) {p : Passage} {later : List Passage}
    (split : h.passages v depth start fallbacks t = p :: later) :
    p.skipped = [] ↔ remainder t p.pass.consumed = [] := by
  unfold passages at split
  simp only at split
  split at split
  next empty =>
    obtain ⟨rfl,-⟩ := List.cons.inj split
    simp [empty]
  next empty =>
    cases fallbacks with
    | nil =>
      obtain ⟨rfl,-⟩ := List.cons.inj split
      rfl
    | cons next more =>
      obtain ⟨rfl,-⟩ := List.cons.inj split
      exact iff_of_false (splitWord_ne_nil empty) empty

theorem Passage.skippedMarkup_of_ne_nil {p : Passage} (first : p.depth = 0) (nonempty : p.skipped ≠ [])
    (w : Wording) : ∃ title, p.skippedMarkup w = [.unrecognized title p.skipped] := by
  rw [skippedMarkup,if_neg nonempty,if_pos first]
  exact ⟨_,rfl⟩

theorem remainder_eq_nil_iff (t : Text) (start : StartRule) (o : DecorateOptions) :
    remainder t (pass t start o).consumed = [] ↔ t.byteLength ≤ (pass t start o).consumed := by
  have size := congrArg Text.byteLength (pass_text t start o)
  rw [Text.byteLength_append,← (pass_split t start o).2] at size
  rw [← Text.byteLength_eq_zero_iff]
  omega

theorem exists_first (h : Highlighter) (v : Vocabulary) (start : StartRule) (fallbacks : List StartRule)
    (t : Text) : ∃ (first : Passage) (later : List Passage),
      h.passages v 0 start fallbacks t = first :: later ∧ first.depth = 0 ∧
      first.pass = pass t start (h.options v 0) ∧
      (first.skipped = [] ↔ t.byteLength ≤ first.pass.consumed) ∧
      ∀ p ∈ later, ∀ f ∈ p.markup h.wording, f.Plain := by
  obtain ⟨skipped,later,passages,-,behind⟩ := h.passages_eq_cons v 0 start fallbacks t
  have left := h.skipped_eq_nil_iff _ _ _ _ _ passages
  rw [remainder_eq_nil_iff] at left
  exact ⟨_,later,passages,rfl,rfl,left,fun p isLater =>
    plain_of_later (behind p isLater).1 (behind p isLater).2⟩

theorem marksUnrecognized_render (h : Highlighter) (query : Text) (v : Option Vocabulary) :
    MarksUnrecognized (Markup.html (h.render query v).markup) ↔
      (pass query h.startRules.first (h.options (v.getD .permissive) 0)).consumed <
        query.byteLength := by
  rw [marksUnrecognized_html]
  by_cases empty : query = []
  · subst empty
    simp [render,allPassages]
  obtain ⟨first,later,passages,isFirst,isPass,left,plain⟩ :=
    h.exists_first (v.getD .permissive) h.startRules.first h.startRules.fallbacks query
  rw [← Nat.not_le,← isPass,← left]
  simp only [render,allPassages,empty,if_false,passages,List.flatMap_cons,Passage.markup,
    List.mem_append]
  constructor
  · rintro ⟨title,t,(inPass | inSkipped) | inLater⟩ unskipped
    · exact not_unrecognized_of_pass _ _ _ _ (isPass ▸ inPass) rfl
    · simp [Passage.skippedMarkup,unskipped] at inSkipped
    · obtain ⟨p,isLater,inMarkup⟩ := List.mem_flatMap.mp inLater
      exact absurd (plain p isLater _ inMarkup _ rfl) (by decide)
  · intro nonempty
    obtain ⟨title,mark⟩ := first.skippedMarkup_of_ne_nil isFirst nonempty h.wording
    exact ⟨title,first.skipped,.inl (.inr (mark ▸ List.mem_singleton_self _))⟩

theorem consumed_of_bare {start : StartRule} (t : Text) (o : DecorateOptions) (bare : start.ending = []) :
    (pass t start o).consumed = min (start.reach t) t.byteLength := by
  simp only [pass,StartRule.reach,bare,List.append_nil]

end Highlighter

theorem Text.ValueEnds.lt_iff {t : Text} {n : Nat} (ends : t.ValueEnds 0 n) :
    n < t.byteLength ↔ ∃ m, t.QuoteAt m := by
  cases ends with
  | quote first =>
    obtain ⟨before,after,rfl,rfl,-⟩ := first.1
    refine iff_of_true ?_ ⟨_,first.1⟩
    have := '"'.utf8Size_pos
    simp only [byteLength_append,byteLength_cons]
    omega
  | never endless =>
    refine iff_of_false (Nat.lt_irrefl _) ?_
    rintro ⟨m,isQuote⟩
    exact endless m (Nat.zero_le m) isQuote

/-- What the end of a value means for a text: for the start rules that read values and phrases, for a value
in it that is quoted, and for what is marked as unrecognized. -/
structure Text.ReadToItsEnd (t : Text) : Prop where
  raw : t.ValueEnds 0 (StartRule.regExpRaw.reach t)
  quoted : ∀ c, Cursor.Reaches ⟨0,tokenize t⟩ c → c.isAt .quote = true →
    ReadsValue t c (recognize .regExp c)
  phrase : StartRule.phraseQuery.reach t = t.byteLength
  lemmas : ∀ h : Highlighter, h.startRules = Dialect.lemmaEquivalent.startRules → ∀ v,
    Highlighter.MarksUnrecognized (Markup.html (h.render t v).markup) ↔ ∃ n, t.QuoteAt n
  words : ∀ h : Highlighter, h.startRules = Dialect.wordForm.startRules → ∀ v,
    ¬Highlighter.MarksUnrecognized (Markup.html (h.render t v).markup)

/-- Values end where a reader of their characters takes them to end. -/
theorem values_end (t : Text) : t.ReadToItsEnd where
  raw := valueEnds_reach t
  quoted := fun _ from_ at_ => readsValue_recognize from_ at_
  phrase := reach_phraseQuery t
  lemmas := by
    intro h rules v
    have ends := valueEnds_reach t
    have raw : h.startRules.first = .regExpRaw := congrArg StartRules.first rules
    rw [Highlighter.marksUnrecognized_render,raw,Highlighter.consumed_of_bare _ _ rfl,← ends.lt_iff]
    omega
  words := by
    intro h rules v
    have phrase : h.startRules.first = .phraseQuery := congrArg StartRules.first rules
    rw [Highlighter.marksUnrecognized_render,phrase,Highlighter.consumed_of_bare _ _ rfl,
      reach_phraseQuery]
    omega

end CorpusQuery
