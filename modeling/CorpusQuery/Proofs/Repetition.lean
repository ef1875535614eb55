import CorpusQuery.Proofs.Accounting
import CorpusQuery.Proofs.Hint
import CorpusQuery.Proofs.Marks

/-! The names that are wrapped in more than one tooltip: in a structure that is not closed, those
that stand first in a negated pair or in a list in parentheses. All others have one at most. -/
namespace CorpusQuery

/-- The chunks of a table lie end to end, and every name and value begins with one. -/
structure Shown (table : SpanTable) (T : List Entry) : Prop where
  contiguous : Contiguous 0 table.chunks
  starts : ∀ r span, r = .attName ∨ r = .regExp → (.nonTerminal r,span) ∈ T →
    ∃ chunk ∈ table.chunks, chunk.start = span.start

namespace Shown

open Layout

variable {full : Text} {table : SpanTable} {T : List Entry} {decorations : List Decoration}
  {name : Span}

theorem exists_rule {span : Span} {w : Wrapper} (marks : (Decoration.wrap span w).Marks T) :
    ∃ r, (r = .attName ∨ r = .regExp) ∧ (.nonTerminal r,span) ∈ T := by
  cases w with
  | tooltip => exact ⟨.attName,.inl rfl,marks⟩
  | clickable => exact ⟨.regExp,.inr rfl,marks⟩

theorem gapAt_lt (h : Shown table T) (x : Outline full T) {span : Span} {r : NonTerminal}
    (kind : r = .attName ∨ r = .regExp) (member : (.nonTerminal r,span) ∈ T) :
    gapAt table.chunks span.start < gapAt table.chunks span.stop := by
  obtain ⟨chunk,isChunk,start⟩ := h.starts r span kind member
  have closed : r.closed = true := by rcases kind with rfl | rfl <;> rfl
  have proper := x.proper member closed
  exact Layout.gapAt_lt h.contiguous.sorted isChunk start.ge (start ▸ proper)

theorem apart (x : Outline full T) {span other : Span} {r s : NonTerminal}
    (kind : r = .attName ∨ r = .regExp) (member : (.nonTerminal r,span) ∈ T)
    (kind' : s = .attName ∨ s = .regExp) (member' : (.nonTerminal s,other) ∈ T) :
    span = other ∨ span.stop ≤ other.start ∨ other.stop ≤ span.start := by
  have apart : (NonTerminal.closed r = true ∧ NonTerminal.closed s = true) ∧
      r.holds (.nonTerminal s) = false ∧ s.holds (.nonTerminal r) = false := by
    rcases kind with rfl | rfl <;> rcases kind' with rfl | rfl <;> decide
  exact (x.apart member member' apart.1.1 apart.1.2 apart.2.1 apart.2.2).imp_left (congrArg Prod.snd)

theorem separate (h : Shown table T) (x : Outline full T)
    (marked : ∀ d ∈ decorations, d.Marks T) : Separate table.chunks decorations where
  proper := by
    rintro ⟨span,w⟩ member
    obtain ⟨r,kind,isRule⟩ := exists_rule (marked _ (mem_wraps.mp member).1)
    exact h.gapAt_lt x kind isRule
  apart := by
    rintro ⟨span,w⟩ member ⟨other,w'⟩ member'
    obtain ⟨r,kind,isRule⟩ := exists_rule (marked _ (mem_wraps.mp member).1)
    obtain ⟨s,kind',isRule'⟩ := exists_rule (marked _ (mem_wraps.mp member').1)
    rcases apart x kind isRule kind' isRule' with rfl | before | after
    · exact .inl ⟨rfl,rfl⟩
    · exact .inr (.inl (gapAt_mono _ before))
    · exact .inr (.inr (gapAt_mono _ after))

/-- In a layout, the tooltips round a name are those that decorations put round it. -/
theorem tooltipsAt_layout (h : Shown table T) (x : Outline full T)
    (marked : ∀ d ∈ decorations, d.Marks T) (isName : (.nonTerminal .attName,name) ∈ T) :
    Markup.tooltipsAt (layout table.chunks decorations) name.start =
      decorations.countP (·.isTooltip name) := by
  obtain ⟨chunk,isChunk,start⟩ := h.starts .attName name (.inl rfl) isName
  obtain ⟨front,back,split⟩ := List.append_of_mem isChunk
  have contiguous := split ▸ h.contiguous
  have offset : name.start = Text.byteLength (front.flatMap Chunk.text) := by
    rw [← start,contiguous.start_eq,Nat.zero_add]
  have gap : gapAt table.chunks name.start = front.length := by
    rw [split,← start]
    exact gapAt_start contiguous.sorted
  have perm := (h.separate x marked).wrappersAt_layout split (h.contiguous.text_ne_nil isChunk)
  rw [← offset] at perm
  unfold Markup.tooltipsAt
  rw [perm.countP_eq,List.countP_map,around,List.countP_filter,wraps,List.countP_filterMap]
  refine List.countP_congr fun d member => ?_
  rcases d with ⟨span,title | _⟩ | _
  · have isSpan : (.nonTerminal .attName,span) ∈ T := marked _ member
    have proper : span.isEmpty = false := by
      have := x.proper isSpan rfl
      simp only at this
      simp only [Span.isEmpty,Span.length,beq_eq_false_iff_ne]
      omega
    have nameLt := h.gapAt_lt x (.inl rfl) isName
    simp only [proper,Bool.false_eq_true,if_false,Option.map_some,Option.getD_some,Function.comp_apply,
      Bool.true_and,decide_eq_true_eq,Decoration.isTooltip,beq_iff_eq]
    constructor
    · rintro ⟨begins,ends⟩
      rcases apart x (.inl rfl) isSpan (.inl rfl) isName with same | before | after
      · exact same
      · have := gapAt_mono table.chunks before
        omega
      · have := gapAt_mono table.chunks after
        omega
    · rintro rfl
      exact ⟨gap.le,gap ▸ nameLt⟩
  · by_cases empty : span.isEmpty = true <;> simp [Decoration.isTooltip,empty]
  · simp [Decoration.isTooltip]

theorem start_lt (h : Shown table T) (isName : (.nonTerminal .attName,name) ∈ T)
    (decorations : List Decoration) :
    name.start < (Markup.plainText (layout table.chunks decorations)).byteLength := by
  obtain ⟨chunk,isChunk,start⟩ := h.starts .attName name (.inl rfl) isName
  obtain ⟨front,back,split⟩ := List.append_of_mem isChunk
  have offset := (split ▸ h.contiguous).start_eq
  have pos := (Text.byteLength_eq_zero_iff _).not.mpr (h.contiguous.text_ne_nil isChunk)
  rw [plainText_layout,split,List.flatMap_append,List.flatMap_cons,Text.byteLength_append,
    Text.byteLength_append]
  omega

end Shown

theorem Reading.shown {query : Text} {start : StartRule}
    (x : Reading (query ++ start.ending) start) :
    Shown (SpanTable.ofEvents query (parse (query ++ start.ending) start).events) x.path := by
  obtain ⟨middle,left,-,shows_⟩ := x.shows
  refine ⟨shows_.contiguous,fun r span kind member => ?_⟩
  obtain ⟨t,place,isTerminal,start,inQuery⟩ := x.exists_terminal kind member
  rw [← start]
  exact shows_.starts _ (Entry.mem_terminals.mpr isTerminal) inQuery

theorem Repeated.congr {T U : List Entry} {source : Text} {v : Vocabulary} {name : Span}
    (same : ∀ x, x ∈ T ↔ x ∈ U) (h : Repeated T source v name) : Repeated U source v name := by
  obtain @⟨lt,pair,own,ownText,openPair,notLeaf,isOwn,first,hasOwn,known⟩ := h
  have openPair' : OpenPair U lt pair := ⟨(same _).mp openPair.matched,openPair.opened.congr same,
    fun span isStructure => openPair.unclosed span ((same _).mpr isStructure)⟩
  have first' : FirstIn U pair name := ⟨(same _).mp first.matched,first.inside,
    fun other isOther => first.first other ((same _).mpr isOther)⟩
  exact .intro openPair' (fun leaf => notLeaf (leaf.congr fun x => (same x).symm))
    (isOwn.congr same) first' hasOwn known

namespace Highlighter

theorem markup_render (h : Highlighter) {query : Text} (v : Option Vocabulary) (nonempty : query ≠ []) :
    ∃ rest, (h.render query v).markup = (pass query h.startRules.first
      (h.options (v.getD .permissive) 0)).rendering.markup ++ rest := by
  have head := h.head?_passages (v.getD .permissive) 0 h.startRules.first h.startRules.fallbacks query
  obtain ⟨passage,isHead,isPass⟩ := Option.map_eq_some_iff.mp head
  obtain ⟨later,passages⟩ := List.head?_eq_some_iff.mp isHead
  refine ⟨passage.skippedMarkup h.wording ++ later.flatMap (·.markup h.wording),?_⟩
  simp only [render,allPassages,nonempty,if_false,passages,List.flatMap_cons,Passage.markup,isPass,
    List.append_assoc]

def firstTable (h : Highlighter) (query : Text) : SpanTable :=
  SpanTable.ofEvents query (parse (query ++ h.startRules.first.ending) h.startRules.first).events

theorem markup_pass (h : Highlighter) (query : Text) (o : DecorateOptions) :
    (pass query h.startRules.first o).rendering.markup =
      layout (h.firstTable query).chunks ((h.firstTable query).notes o).decorations := rfl

/-- The tooltips round a name are those that the visit of the symbols puts there. -/
theorem tooltipsAt_render (h : Highlighter) {query : Text} (v : Option Vocabulary) {name : Span}
    (x : Reading (query ++ h.startRules.first.ending) h.startRules.first)
    (isName : (.nonTerminal .attName,name) ∈ x.path) :
    Markup.tooltipsAt (h.render query v).markup name.start =
      ((h.firstTable query).notes (h.options (v.getD .permissive) 0)).tooltips name := by
  obtain ⟨t,place,-,start,inQuery⟩ := x.exists_terminal (.inl rfl) isName
  have nonempty : query ≠ [] := by
    rintro rfl
    simp at inQuery
  have shown : Shown (h.firstTable query) x.path := x.shown
  obtain ⟨rest,markup⟩ := h.markup_render v nonempty
  rw [markup,markup_pass,Markup.tooltipsAt,
    Markup.wrappersAt_append_of_lt _ _ (shown.start_lt isName _)]
  exact shown.tooltipsAt_layout x.outline ((x.registers query).marked _) isName

theorem repeated_of_matched {h : Highlighter} {query : Text} {v : Vocabulary} {name : Span}
    (x : Reading (query ++ h.startRules.first.ending) h.startRules.first) :
    Repeated (h.matched query) query v name ↔ Repeated x.path query v name :=
  ⟨.congr (h.mem_matched_iff x),.congr fun y => (h.mem_matched_iff x y).symm⟩

theorem one_lt_tooltipsAt (h : Highlighter) {query : Text} (v : Option Vocabulary) {name : Span}
    (isName : (.nonTerminal .attName,name) ∈ h.matched query) :
    1 < Markup.tooltipsAt (h.render query v).markup name.start ↔
      Repeated (h.matched query) query (v.getD .permissive) name := by
  obtain ⟨x⟩ := reading (query ++ h.startRules.first.ending) h.startRules.first
  rw [h.mem_matched_iff x] at isName
  have legible : Legible (h.firstTable query) x.path := x.legible
  have source : (h.firstTable query).source = query := x.source_eq query
  rw [repeated_of_matched x,h.tooltipsAt_render v x isName,legible.one_lt_tooltips_iff rfl isName,
    source]

/-- A name is wrapped in more than one tooltip just when, in a structure that is not closed, it is
the first in a pair that holds others, and the structure has that attribute. -/
theorem one_lt_tooltipsAt_iff (h : Highlighter) (query : Text) (v : Option Vocabulary)
    (name : Span) : ((.nonTerminal .attName,name) ∈ h.matched query ∧
      1 < Markup.tooltipsAt (h.render query v).markup name.start) ↔
    Repeated (h.matched query) query (v.getD .permissive) name := by
  constructor
  · rintro ⟨isName,more⟩
    exact (h.one_lt_tooltipsAt v isName).mp more
  · intro again
    have isName : (.nonTerminal .attName,name) ∈ h.matched query := by
      obtain ⟨_,_,_,first⟩ := again
      exact first.matched
    exact ⟨isName,(h.one_lt_tooltipsAt v isName).mpr again⟩

/-- What the first pass matches in a structure that is not closed and has a negated pair. -/
def negated : List Entry :=
  [(.terminal .lt,⟨0,1⟩),(.terminal .attrChars,⟨1,2⟩),(.nonTerminal .attName,⟨1,2⟩),
    (.terminal .whitespace,⟨2,3⟩),(.terminal .not,⟨3,4⟩),(.terminal .attrChars,⟨4,5⟩),
    (.nonTerminal .attName,⟨4,5⟩),(.terminal .eq,⟨5,6⟩),(.terminal .quote,⟨6,7⟩),
    (.terminal .quote,⟨7,8⟩),(.nonTerminal .regExp,⟨6,8⟩),(.nonTerminal .attVal,⟨4,8⟩),
    (.nonTerminal .attVal,⟨3,8⟩)]

theorem matched_negated :
    (ofDialect .basicExpression).matched "<s !a=\"\"".toList = negated := by
  unfold matched parse StartRule.recognizer
  rw [Grammar.recognize_eq]
  decide +kernel

theorem repeated_negated : Repeated negated "<s !a=\"\"".toList .permissive ⟨4,5⟩ := by
  have openPair : OpenPair negated ⟨0,1⟩ ⟨3,8⟩ := by
    have nearest : ∀ x ∈ negated, x.1 = .terminal .lt ∨ x.1 = .terminal .gt → x.2.stop ≤ 3 →
        x.2.stop ≤ 1 := by decide
    have unclosed : ∀ x ∈ negated, x.1 ≠ .nonTerminal .structureTag := by decide
    refine ⟨by decide,⟨by decide,by decide,fun kind bracket isBracket member ends => ?_⟩,?_⟩
    · exact nearest _ member (isBracket.imp (congrArg _) (congrArg _)) ends
    · exact fun span isStructure => absurd rfl (unclosed _ isStructure)
  have notLeaf : ¬LeafPair negated ⟨3,8⟩ := by
    intro leaf
    have holds := leaf.alone ⟨4,8⟩ (by decide)
    revert holds
    decide
  have isOwn : FirstName negated ⟨0,1⟩ ⟨1,2⟩ :=
    ⟨by decide,Nat.le_refl _,fun _ _ behind => behind⟩
  have firstIn : FirstIn negated ⟨3,8⟩ ⟨4,5⟩ := by
    have first : ∀ x ∈ negated, x.1 = .nonTerminal .attName → 3 ≤ x.2.start → 4 ≤ x.2.start := by
      decide
    refine ⟨by decide,by decide,fun other isName inside => first _ isName rfl ?_⟩
    exact (Span.contains_iff.mp inside).1
  have hasOwn : Text.slice? "<s !a=\"\"".toList 1 2 = some ['s'] := by decide
  have hasName : Text.slice? "<s !a=\"\"".toList 4 5 = some ['a'] := by decide
  exact .intro openPair notLeaf isOwn firstIn hasOwn ⟨hasName,rfl⟩

/-- So the name in such a pair is wrapped twice. -/
theorem tooltips_negated : (.nonTerminal .attName,⟨4,5⟩) ∈
    (ofDialect .basicExpression).matched "<s !a=\"\"".toList ∧
    1 < Markup.tooltipsAt ((ofDialect .basicExpression).render "<s !a=\"\"".toList none).markup 4 := by
  have isName : (.nonTerminal .attName,⟨4,5⟩) ∈
      (ofDialect .basicExpression).matched "<s !a=\"\"".toList := by
    rw [matched_negated]
    decide
  exact ⟨isName,(one_lt_tooltipsAt _ none isName).mpr (matched_negated ▸ repeated_negated)⟩

end Highlighter

end CorpusQuery
