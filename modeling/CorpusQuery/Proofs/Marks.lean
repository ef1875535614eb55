import CorpusQuery.Proofs.Callers
import CorpusQuery.Proofs.Chunks
import CorpusQuery.Proofs.Visits
import CorpusQuery.Proofs.Wrapping

/-! What the decorations of a query are put round: tooltips round names that are known, and marks for
editing round the values of tag attributes. Names and values lie apart, and each begins with a terminal
of the query. -/
namespace CorpusQuery

/-- The title of a name says as what it is known. -/
inductive Titled (source : Text) (v : Vocabulary) (w : Wording) (name : Span) : String → Prop where
  | attribute : Known source v.hasAttribute name → Titled source v w name w.attributeName
  | structureName : Known source v.hasStructure name → Titled source v w name w.structureName
  | structureAttribute : Known source (v.hasStructureAttribute owner) name →
      Titled source v w name w.structureAttribute

/-- A decoration is what it says to be: the tooltip of a known name, or a mark with the place of a value,
whose pair has the name of a tag attribute. -/
inductive Decoration.Announces (T : List Entry) (source : Text) (v : Vocabulary) (w : Wording) :
    Decoration → Prop where
  | name : (.nonTerminal .attName,name) ∈ T → Titled source v w name title →
      Announces T source v w (.wrap name (.tooltip title.toList))
  | value : LeafPair T pair → (.nonTerminal .attName,name) ∈ T → pair.contains name = true →
      Known source v.isTagAttribute name → (.nonTerminal .regExp,value) ∈ T →
      pair.contains value = true → Announces T source v w (.wrap value (.clickable "tag".toList
        (source.charsBefore value.start) (source.charsBefore value.stop)))
  | lineBreak : Announces T source v w (.lineBreak offset)

def Notes.Announced (n : Notes) (T : List Entry) (source : Text) (v : Vocabulary) (w : Wording) :
    Prop := ∀ d ∈ n.decorations, d.Announces T source v w

/-- A decoration is put round a name or a value, or breaks a line. -/
def Decoration.Marks (T : List Entry) : Decoration → Prop
  | .wrap span (.tooltip _) => (.nonTerminal .attName,span) ∈ T
  | .wrap span (.clickable ..) => (.nonTerminal .regExp,span) ∈ T
  | .lineBreak _ => True

def Notes.Marked (n : Notes) (T : List Entry) : Prop := ∀ d ∈ n.decorations, d.Marks T

theorem Decoration.Announces.marks {T : List Entry} {source : Text} {v : Vocabulary} {w : Wording}
    {d : Decoration} (h : d.Announces T source v w) : d.Marks T := by
  cases h with
  | name isName => exact isName
  | value _ _ _ _ isValue => exact isValue
  | lineBreak => trivial

namespace Notes

variable {n : Notes} {T : List Entry} {table : SpanTable} {v : Vocabulary} {w : Wording}
  {span pair own : Span} {text : Text}

theorem Announced.decorate {source : Text} {d : Decoration} (h : n.Announced T source v w)
    (announces : d.Announces T source v w) : (n.decorate d).Announced T source v w := by
  intro e member
  rcases List.mem_append.mp member with old | new
  · exact h e old
  · rwa [List.mem_singleton.mp new]

theorem Announced.check {source : Text} {known : Bool} {title : String} {p : Problem}
    (h : n.Announced T source v w) (isName : (.nonTerminal .attName,span) ∈ T)
    (titled : known = true → Titled source v w span title) :
    (n.check known span title p).Announced T source v w := by
  cases known with
  | true => exact h.decorate (.name isName (titled rfl))
  | false => exact h

theorem Announced.structureAttribute (h : n.Announced T table.source v w)
    (isName : (.nonTerminal .attName,span) ∈ T) :
    (n.structureAttribute table v w text span).Announced T table.source v w := by
  unfold Notes.structureAttribute
  split
  next => exact h
  next hasText => exact h.check isName fun known => .structureAttribute ⟨hasText,known⟩

section Registers

variable (registers : table.Registers T)

include registers

theorem mem_of_head {r : NonTerminal} (head : (table.nested pair r).head? = some span) :
    (.nonTerminal r,span) ∈ T ∧ pair.contains span = true := by
  obtain ⟨member,within⟩ := registers.mem_nested.mp (List.mem_of_head? head)
  exact ⟨member,Span.contains_iff.mpr (Span.strictlyContains_iff.mp within).2⟩

theorem Announced.tagValue {name : Span} (h : n.Announced T table.source v w)
    (leaf : LeafPair T pair) (head : (table.nested pair .attName).head? = some name)
    (hasText : table.text? name = some text) :
    (n.tagValue table v pair text).Announced T table.source v w := by
  obtain ⟨isName,named⟩ := mem_of_head registers head
  unfold Notes.tagValue
  split
  next isTag =>
    split
    next value first =>
      obtain ⟨isValue,within⟩ := mem_of_head registers first
      exact h.decorate (.value leaf isName named ⟨hasText,isTag⟩ isValue within)
    next => exact h
  next => exact h

theorem Announced.attributePair (h : n.Announced T table.source v w)
    (isPair : (.nonTerminal .attVal,pair) ∈ T) :
    (n.attributePair table v w pair).Announced T table.source v w := by
  unfold Notes.attributePair
  split
  · exact h
  simp only
  split
  · exact h
  next alone =>
    have leaf : LeafPair T pair := (registers.nested_pairs_eq_nil isPair).mp (not_not.mp alone)
    split
    next => exact h
    next head =>
      split
      next => exact h
      next text hasText =>
        have checked := Announced.check (n := n.handle [pair]) (p := .noAttribute text) h
          (mem_of_head registers head).1 fun known => .attribute ⟨hasText,known⟩
        exact Announced.tagValue registers checked leaf head hasText

theorem Announced.structureTag (h : n.Announced T table.source v w) :
    (n.structureTag table v w span).Announced T table.source v w := by
  have mem_names {name : Span} (member : name ∈ table.nested span .attName) :
      (.nonTerminal .attName,name) ∈ T := (registers.mem_nested.mp member).1
  unfold Notes.structureTag
  simp only
  split
  next => exact h
  next own others names =>
    split
    next => exact h
    next text hasText =>
      rw [names] at mem_names
      have start : ((n.handle (table.nested span .attVal)).structureName v w own text).Announced
          T table.source v w :=
        Announced.check (n := n.handle _) h (mem_names (by simp))
          fun known => .structureName ⟨hasText,known⟩
      refine List.foldlRecOn (motive := fun m : Notes => m.Announced T table.source v w) others _
        start ?_
      intro m announced name member
      exact announced.structureAttribute (mem_names (List.mem_cons_of_mem _ member))

theorem Announced.openStructurePair (h : n.Announced T table.source v w)
    (isOwn : (.nonTerminal .attName,own) ∈ T) :
    (n.openStructurePair table v w own pair).Announced T table.source v w := by
  unfold Notes.openStructurePair
  split
  · exact h
  simp only
  have entered : ∀ seen : Bool, (if seen = true then n.handle [pair] else
      { n.handle [pair] with openStructures := own :: (n.handle [pair]).openStructures }).Announced
        T table.source v w := by
    intro seen
    cases seen <;> exact h
  revert entered
  generalize (n.handle [pair]).openStructures.contains own = seen
  intro entered
  split
  next => exact entered seen
  next text hasText =>
    have named : ∀ m : Notes, m.Announced T table.source v w →
        (if seen = true then m else m.structureName v w own text).Announced T table.source v w := by
      intro m announced
      cases seen
      · exact announced.check isOwn fun known => .structureName ⟨hasText,known⟩
      · exact announced
    split
    next => exact named _ (entered seen)
    next head => exact (named _ (entered seen)).structureAttribute (mem_of_head registers head).1

theorem mem_of_openStructure? (found : table.openStructure? pair = some own) :
    (.nonTerminal .attName,own) ∈ T := by
  unfold SpanTable.openStructure? at found
  simp only at found
  split at found
  · have member := List.mem_of_head? found
    rw [Span.mem_sort,List.mem_filter,registers.mem_spansOf] at member
    exact member.1
  · cases found

theorem Announced.visit {r : NonTerminal} (h : n.Announced T table.source v w)
    (isEntry : (.nonTerminal r,span) ∈ T) :
    (n.visit table v w r span).Announced T table.source v w := by
  cases r with
  | position =>
    refine List.foldlRecOn (motive := fun m : Notes => m.Announced T table.source v w) _ _ h ?_
    intro m announced pair member
    exact Announced.attributePair registers announced (registers.mem_nested.mp member).1
  | structureTag => exact Announced.structureTag registers h
  | attVal =>
    simp only [Notes.visit]
    split
    next found => exact Announced.openStructurePair registers h (mem_of_openStructure? registers found)
    next => exact Announced.attributePair registers h isEntry
  | _ => exact h

omit registers in
theorem Announced.wrapLines {source : Text} (h : n.Announced T source v w) :
    (n.wrapLines table span).Announced T source v w := by
  unfold Notes.wrapLines
  split
  · exact h
  · intro d member
    simp only [List.mem_append] at member
    rcases member with (old | atPosition) | atEnd
    · exact h d old
    · simp only [List.mem_filterMap,Option.ite_none_right_eq_some,Option.some.injEq] at atPosition
      obtain ⟨_,-,-,rfl⟩ := atPosition
      exact .lineBreak
    · split at atEnd
      · rw [List.mem_singleton.mp atEnd]
        exact .lineBreak
      · simp at atEnd

end Registers

end Notes

/-- What holds of no notes, and is kept when a symbol of the table is visited and when a sequence of it is
broken into lines, holds of the notes of a table. -/
theorem SpanTable.notes_induction {table : SpanTable} {o : DecorateOptions} {P : Notes → Prop}
    (start : P {})
    (visits : ∀ n v r span, o.vocabulary = some v → (r,span) ∈ table.nonTerminals → P n →
      P (n.visit table v o.wording r span))
    (wraps : ∀ n span, o.wrapLines = true → (.sequence,span) ∈ table.nonTerminals → P n →
      P (n.wrapLines table span)) :
    P (table.notes o) := by
  have keeps (n : Notes) {entry : NonTerminal × Span} (isEntry : entry ∈ table.nonTerminals)
      (h : P n) : P (table.decorateSymbol o n entry) := by
    have wrapped (m : Notes) (h : P m) : P (if o.wrapLines && entry.1 == .sequence then
        m.wrapLines table entry.2 else m) := by
      split
      next both =>
        obtain ⟨breaks,isSequence⟩ := Bool.and_eq_true_iff.mp both
        exact wraps m entry.2 breaks (beq_iff_eq.mp isSequence ▸ isEntry) h
      next => exact h
    unfold decorateSymbol
    apply wrapped
    split
    next v known => exact visits n v entry.1 entry.2 known isEntry h
    next => exact h
  exact List.foldlRecOn (motive := P) _ _ start fun n h _ member =>
    keeps n (List.mem_reverse.mp member) h

theorem SpanTable.Registers.announced {table : SpanTable} {T : List Entry}
    (registers : table.Registers T) (o : DecorateOptions) :
    (table.notes o).Announced T table.source (o.vocabulary.getD .permissive) o.wording := by
  refine SpanTable.notes_induction
    (P := (·.Announced T table.source (o.vocabulary.getD .permissive) o.wording)) ?_ ?_ ?_
  · simp [Notes.Announced]
  · intro n v r span known isEntry h
    rw [known,Option.getD_some] at h ⊢
    exact h.visit registers ((registers.rules r span).mp isEntry)
  · intro n span _ _ h
    exact h.wrapLines

theorem SpanTable.Registers.marked {table : SpanTable} {T : List Entry}
    (registers : table.Registers T) (o : DecorateOptions) : (table.notes o).Marked T :=
  fun d member => (registers.announced o d member).marks

open Grammar

theorem StartRule.offset_lt (start : StartRule) {query : Text} {c : Cursor} {kind : Terminal}
    (reached : Cursor.Reaches ⟨0,tokenize (query ++ start.ending)⟩ c) (at_ : c.isAt kind = true)
    (other : kind ≠ .semicolon) : c.offset < query.byteLength := by
  obtain ⟨before,place,offset⟩ := (reached.inside (Cursor.in_tokenize _)).place
  obtain ⟨token,rest,split,isKind⟩ := Cursor.rest_of_isAt at_
  have inTokens := reached.mem_rest (split ▸ List.mem_cons_self)
  by_contra past
  have onlyEnding : ∀ ch ∈ c.text, ch ∈ start.ending := by
    rcases List.append_eq_append_iff.mp place with ⟨more,-,ends⟩ | ⟨more,ends,same⟩
    · intro ch inText
      rw [ends]
      exact List.mem_append_right _ inText
    · rw [offset,ends,Text.byteLength_append] at past
      have empty : more = [] := (Text.byteLength_eq_zero_iff more).mp (by omega)
      simp [same,empty]
  refine other (isKind ▸ Token.kind_of_semicolons inTokens fun ch inText => ?_)
  have isEnding := onlyEnding ch (by simp [Cursor.text,split,inText])
  cases start <;> simp_all [StartRule.ending,StartRule.requiresTerminator,StartRule.terminator]

theorem Reading.exists_terminal {query : Text} {start : StartRule}
    (x : Reading (query ++ start.ending) start) {r : NonTerminal} {span : Span}
    (kind : r = .attName ∨ r = .regExp) (member : (.nonTerminal r,span) ∈ x.path) :
    ∃ t place, (.terminal t,place) ∈ x.path ∧ place.start = span.start ∧
      place.start < query.byteLength := by
  have closed : r.closed = true := by rcases kind with rfl | rfl <;> rfl
  obtain ⟨p⟩ := x.outline.placed member closed
  have first : ∃ kind t, kind ≠ .semicolon ∧ p.start.isAt kind = true ∧
      p.start.leaf t 1 ∈ p.inner := by
    rcases kind with rfl | rfl
    · obtain ⟨at_,-,split⟩ := p.trail.attName_cases
      exact ⟨.ident,.attrChars,by simp,at_,by simp [split]⟩
    · obtain ⟨_,_,_,opens,-,split⟩ := p.trail.parts_of_andThen
      rw [split]
      cases opens with
      | token at_ => exact ⟨.quote,.quote,by simp,at_,by simp⟩
  obtain ⟨kind,t,other,at_,inInner⟩ := first
  refine ⟨t,_,p.mem_of_inner inInner,p.start_eq,?_⟩
  exact start.offset_lt p.enters.bounds.1 at_ other

end CorpusQuery
