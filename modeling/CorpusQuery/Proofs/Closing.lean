import CorpusQuery.Proofs.Arrangement
import CorpusQuery.Proofs.Bracketed
import CorpusQuery.Proofs.ProblemLines
import CorpusQuery.Proofs.Unstructured

/-! Closing a position. An accepted list of pairs in brackets is shown as it is without the closing bracket,
and then the bracket; and it has the problems of the list alone. -/
namespace CorpusQuery

open Grammar

section Entries

variable {list : List Entry} {s : Symbol} {r : NonTerminal} {span : Span} {n : Nat}

theorem mem_opened (other : s ≠ .terminal .lBracket) :
    (s,span) ∈ opened list ↔ ∃ inner, (s,inner) ∈ list ∧ inner.shift 1 = span := by
  simp [opened,Entry.shift,other]

theorem not_mem_closing (ofPairs : r ∈ NonTerminal.ofPairs) : (.nonTerminal r,span) ∉ closing n := by
  simp only [NonTerminal.ofPairs,List.mem_cons,List.not_mem_nil,or_false] at ofPairs
  rcases ofPairs with rfl | rfl | rfl <;> simp [closing]

theorem lt_not_mem_closing : (.terminal .lt,span) ∉ closing n := by simp [closing]

theorem mem_closing_whole (whole : r = .sequence ∨ r = .position) :
    (.nonTerminal r,span) ∈ closing n ↔ span = ⟨0,n + 1⟩ := by
  rcases whole with rfl | rfl <;> simp [closing]

theorem terminals_closing (n : Nat) : Entry.terminals (closing n) =
    [(⟨n,n + 1⟩,.rBracket),(⟨n + 1,n + 2⟩,.semicolon)] := rfl

end Entries

namespace Reading

variable {t : Text} (x : Reading t .attValList) {s : Symbol} {span : Span} {n : Nat}

include x in
theorem not_mem_path (never : StartRule.attValList.expr.holds s = false) : (s,span) ∉ x.path := by
  intro member
  have holds := x.trail.holds _ member
  simp [never] at holds

include x in
/-- What a list of pairs cannot hold is not there behind a bracket. -/
theorem not_mem_opened (other : s ≠ .terminal .lBracket)
    (never : StartRule.attValList.expr.holds s = false) : (s,span) ∉ opened x.path := by
  intro member
  obtain ⟨inner,inPath,-⟩ := (mem_opened other).mp member
  exact x.not_mem_path never inPath

theorem samePairs_opened : SamePairs 1 x.path (opened x.path) where
  rules r ofPairs span := mem_opened (by simp)
  unstructured lt := x.not_mem_path (by decide)
  unstructured' lt := x.not_mem_opened (by simp) (by decide)

theorem samePairs_closed : SamePairs 1 x.path (opened x.path ++ closing n) where
  rules r ofPairs span := by
    rw [List.mem_append,or_iff_left (not_mem_closing ofPairs),mem_opened (by simp)]
  unstructured := x.samePairs_opened.unstructured
  unstructured' lt member :=
    (List.mem_append.mp member).elim (x.samePairs_opened.unstructured' lt) lt_not_mem_closing

theorem mem_closed_iff (whole : r = .sequence ∨ r = .position) :
    (.nonTerminal r,span) ∈ opened x.path ++ closing n ↔ span = ⟨0,n + 1⟩ := by
  rw [List.mem_append,mem_closing_whole whole]
  refine or_iff_right (x.not_mem_opened (by simp) ?_)
  rcases whole with rfl | rfl <;> decide

theorem flat_opened {table : SpanTable} : Flat table (opened x.path) where
  unstructured := x.samePairs_opened.unstructured'
  unbroken _ _ member := absurd member (x.not_mem_opened (by simp) (by decide))

theorem flat_closed {table : SpanTable} (registers : table.Registers (opened x.path ++ closing n))
    (size : table.source.byteLength = n + 1) : Flat table (opened x.path ++ closing n) where
  unstructured := x.samePairs_closed.unstructured'
  unbroken notes span member := by
    obtain rfl := (x.mem_closed_iff (.inl rfl)).mp member
    have positions : table.nested ⟨0,n + 1⟩ .position = [] := by
      refine List.eq_nil_iff_forall_not_mem.mpr fun inner nested => ?_
      obtain ⟨isPosition,holds⟩ := registers.mem_nested.mp nested
      obtain rfl := (x.mem_closed_iff (.inr rfl)).mp isPosition
      simp [Span.strictlyContains] at holds
    unfold Notes.wrapLines
    split
    · rfl
    · simp [positions,size]

end Reading

theorem Reading.stop_le {t : Text} (x : Reading t .attValList)
    (accepted : (parse t .attValList).error = none) : ∀ y ∈ x.path, y.2.stop ≤ t.byteLength := by
  obtain ⟨d,complete,empty⟩ := x.error_eq_none_iff.mp accepted
  have atEnd : d.rest = [] := by simpa [Cursor.kinds] using empty
  intro y member
  have bounds := x.trail.bounds y member
  rw [complete,Ending.reach_complete,x.offset_of_atEnd complete atEnd] at bounds
  exact bounds.2.2

section Tables

open Layout

variable {t : Text} {x : Reading t .attValList} {table table' : SpanTable} {o : DecorateOptions}
  {v : Vocabulary}

theorem chunks_closed (registers : table.Registers (opened x.path))
    (registers' : table'.Registers (opened x.path ++ closing table.source.byteLength))
    (source : table'.source = table.source ++ [']'])
    (inside : ∀ y ∈ opened x.path, y.2.stop ≤ table.source.byteLength) :
    table'.chunks = table.chunks ++
      [⟨table.source.byteLength,table.source.byteLength + 1,[']'],.rBracket⟩] := by
  have stop : (table.source ++ [']']).byteLength = table.source.byteLength + 1 := by
    rw [Text.byteLength_append]
    rfl
  have within : ∀ y ∈ Entry.terminals (opened x.path), y.1.stop ≤ table.source.byteLength :=
    fun y member => inside _ (Entry.mem_terminals.mp member)
  obtain ⟨covered,begun,chunks⟩ := SpanTable.chunksFrom_append [']'] (Nat.zero_le _) within
    (Entry.terminals (closing table.source.byteLength))
  have entries : Entry.terminals (opened x.path ++ closing table.source.byteLength) =
      Entry.terminals (opened x.path) ++ Entry.terminals (closing table.source.byteLength) := by
    simp [Entry.terminals]
  rw [SpanTable.chunks,SpanTable.chunks,registers.terminals,registers'.terminals,entries,source,chunks,
    terminals_closing,← stop]
  exact congrArg _ (SpanTable.chunksFrom_last (by simp) begun .rBracket (by simp))

/-- What is shown of the table of the open position is shown of that of the closed one, and the bracket. -/
theorem layout_closed (l : Legible table (opened x.path)) (shown : Shown table (opened x.path)) {n : Nat}
    (l' : Legible table' (opened x.path ++ closing n)) (source : table'.source = table.source ++ [']'])
    (length : table.source.byteLength = n)
    (inside : ∀ y ∈ opened x.path, y.2.start ≤ n ∧ y.2.stop ≤ n) (asks : o.vocabulary = some v) :
    layout table'.chunks (table'.notes o).decorations =
      layout table.chunks (table.notes o).decorations ++ [.styled (some .bracket) [']']] := by
  subst length
  have flat : Flat table (opened x.path) := x.flat_opened
  have size : table'.source.byteLength = table.source.byteLength + 1 := by
    rw [source,Text.byteLength_append]
    rfl
  have same (r : NonTerminal) (ofPairs : r ∈ NonTerminal.ofPairs) (span : Span) :
      (.nonTerminal r,span) ∈ opened x.path ↔
        (.nonTerminal r,span) ∈ opened x.path ++ closing table.source.byteLength := by
    rw [List.mem_append,or_iff_left (not_mem_closing ofPairs)]
  have perm := l.decorations_longer l' flat (x.flat_closed l'.registers size) same source inside asks
  have within : ∀ d ∈ (table'.notes o).decorations, d.Within table.source.byteLength := by
    intro d isNew
    have member := perm.mem_iff.mp isNew
    have marks := l.registers.marked o d member
    rcases l.mem_decorations flat asks member with ⟨name,rfl⟩ | ⟨value,rfl⟩
    · exact inside _ marks
    · exact inside _ marks
  have unbroken (offset : Nat) : .lineBreak offset ∉ (table.notes o).decorations := by
    intro member
    rcases l.mem_decorations flat asks member with ⟨_,same⟩ | ⟨_,same⟩ <;> cases same
  have unambiguous := shown.unambiguous l.outline (l.registers.marked o) unbroken
    fun span u w => l.wrapper_unique flat asks
  rw [chunks_closed l.registers l'.registers source fun y member => (inside y member).2,
    layout_concat table.chunks within,← unambiguous.layout_eq perm.symm]
  rfl

end Tables

/-- Two hints name the same problems, so that they have the same lines. -/
structure SameProblems (w : Wording) (a b : Option String) : Prop where
  problems : ∃ few many, a = hint w few ∧ b = hint w many ∧ ∀ p, p ∈ few ↔ p ∈ many
  lines : ∀ line, line ∈ hintLines a ↔ line ∈ hintLines b

theorem SameProblems.of_problems {w : Wording} {few many : List Problem}
    (same : ∀ p, p ∈ few ↔ p ∈ many) : SameProblems w (hint w few) (hint w many) where
  problems := ⟨few,many,rfl,rfl,same⟩
  lines line := by simp only [mem_hintLines_hint,same]

theorem byteLength_lBracket (t : Text) : Text.byteLength ('[' :: t) = t.byteLength + 1 :=
  Nat.add_comm ..

namespace Highlighter

open Layout

variable {t : Text}

theorem pass_closed (accepted : (parse t .attValList).error = none) {o : DecorateOptions}
    {v : Vocabulary} (asks : o.vocabulary = some v) :
    (pass ('[' :: t ++ [']']) .query o).rendering.markup =
      (pass ('[' :: t) .query o).rendering.markup ++ [.styled (some .bracket) [']']] := by
  obtain ⟨x⟩ := reading t .attValList
  obtain ⟨y⟩ := reading ('[' :: t ++ StartRule.query.ending) .query
  obtain ⟨z⟩ := reading ('[' :: t ++ [']'] ++ StartRule.query.ending) .query
  obtain ⟨path,ending⟩ := x.opened_of_accepted accepted y
  obtain ⟨path',-⟩ := x.closed_of_accepted accepted z
  have inside : ∀ e ∈ y.path, e.2.start ≤ t.byteLength + 1 ∧ e.2.stop ≤ t.byteLength + 1 := by
    intro e member
    have bounds := y.trail.bounds e member
    rw [ending,Ending.reach_broken] at bounds
    exact ⟨bounds.2.1.trans bounds.2.2,bounds.2.2⟩
  have source := y.source_eq ('[' :: t)
  have source' := z.source_eq ('[' :: t ++ [']'])
  refine layout_closed (path ▸ y.legible) (path ▸ y.shown) (path' ▸ z.legible) ?_ ?_ (path ▸ inside) asks
  · exact source'.trans (congrArg (· ++ [']']) source.symm)
  · exact (congrArg Text.byteLength source).trans (byteLength_lBracket t)

/-- A pass that could use all of a query is the only one. -/
theorem markup_whole (h : Highlighter) (query : Text) (v : Option Vocabulary) (nonempty : query ≠ [])
    (whole : (pass query h.startRules.first (h.options (v.getD .permissive) 0)).consumed =
      query.byteLength) : (h.render query v).markup =
        (pass query h.startRules.first (h.options (v.getD .permissive) 0)).rendering.markup := by
  have left : remainder query query.byteLength = [] := by
    have all := Text.dropBytes?_append query []
    rw [List.append_nil] at all
    rw [remainder,all]
    rfl
  rw [render,allPassages,if_neg nonempty]
  unfold passages
  simp [whole,left,Passage.markup,Passage.skippedMarkup]

theorem consumed_eq {query : Text} {start : StartRule} (x : Reading (query ++ start.ending) start)
    (o : DecorateOptions) :
    (pass query start o).consumed = min x.ending.reach.offset query.byteLength := by
  change min ((SpanTable.Builder.start query).run _).1.reach query.byteLength = _
  rw [x.reach_eq]

def inDialect (h : Highlighter) (dialect : Dialect) : Highlighter :=
  { h with startRules := dialect.startRules }

theorem sameProblems (h : Highlighter) {dialect dialect' : Dialect} {query query' : Text}
    {v : Option Vocabulary} (same : ∀ p,
      Reported ((h.inDialect dialect).matched query) query (v.getD .permissive) p ↔
        Reported ((h.inDialect dialect').matched query') query' (v.getD .permissive) p) :
    SameProblems h.wording ((h.inDialect dialect).render query v).hint
      ((h.inDialect dialect').render query' v).hint := by
  obtain ⟨few,isHint,mem_few⟩ := (h.inDialect dialect).exists_problems query v
  obtain ⟨many,isHint',mem_many⟩ := (h.inDialect dialect').exists_problems query' v
  rw [isHint,isHint']
  exact .of_problems fun p => by rw [mem_few,mem_many,same]

theorem reported_bracketed (h : Highlighter) {query after : Text} {v : Vocabulary} {p : Problem}
    (x : Reading t .attValList) (accepted : (parse t .attValList).error = none)
    (y : Reading (query ++ StartRule.query.ending) .query) (same : SamePairs 1 x.path y.path)
    (whole : query = ['['] ++ t ++ after) :
    Reported ((h.inDialect .basicExpression).matched query) query v p ↔
      Reported ((h.inDialect .attributeList).matched t) t v p := by
  have bracketed (e : Entry) : e ∈ (h.inDialect .basicExpression).matched query ↔ e ∈ y.path :=
    (h.inDialect .basicExpression).mem_matched_iff y e
  have alone (e : Entry) : e ∈ (h.inDialect .attributeList).matched t ↔ e ∈ x.path := by
    have matched : (h.inDialect .attributeList).matched t = x.found := by
      rw [← x.matched_eq]
      exact congrArg (fun s => Event.matched [] (parse s .attValList).events) (List.append_nil t)
    rw [matched]
    exact x.agrees.mem_iff e
  have inside (name : Span) (isName : (.nonTerminal .attName,name) ∈ x.path) :
      name.stop ≤ t.byteLength := x.stop_le accepted _ isName
  calc Reported ((h.inDialect .basicExpression).matched query) query v p
      ↔ Reported y.path query v p := reported_congr bracketed
    _ ↔ Reported x.path t v p := whole ▸ same.reported_iff rfl inside
    _ ↔ Reported ((h.inDialect .attributeList).matched t) t v p := (reported_congr alone).symm

/-- Closing a position changes nothing but the bracket: the markup is that of the open position with the
bracket behind it, and the open position, the closed one and the list alone have the same problems. -/
theorem render_closed (h : Highlighter) (accepted : (parse t .attValList).error = none)
    (v : Option Vocabulary) :
    ((h.inDialect .basicExpression).render ('[' :: t ++ [']']) v).markup =
      ((h.inDialect .basicExpression).render ('[' :: t) v).markup ++ [.styled (some .bracket) [']']] ∧
    SameProblems h.wording ((h.inDialect .basicExpression).render ('[' :: t ++ [']']) v).hint
      ((h.inDialect .basicExpression).render ('[' :: t) v).hint ∧
    SameProblems h.wording ((h.inDialect .attributeList).render t v).hint
      ((h.inDialect .basicExpression).render ('[' :: t) v).hint := by
  obtain ⟨x⟩ := reading t .attValList
  obtain ⟨y⟩ := reading ('[' :: t ++ StartRule.query.ending) .query
  obtain ⟨z⟩ := reading ('[' :: t ++ [']'] ++ StartRule.query.ending) .query
  obtain ⟨path,ending⟩ := x.opened_of_accepted accepted y
  obtain ⟨path',ending'⟩ := x.closed_of_accepted accepted z
  have opened (p : Problem) := h.reported_bracketed (v := v.getD .permissive) (p := p) x accepted y
    (path ▸ x.samePairs_opened) (List.append_nil _).symm
  have closed (p : Problem) := h.reported_bracketed (v := v.getD .permissive) (p := p) x accepted z
    (path' ▸ x.samePairs_closed) rfl
  refine ⟨?_,h.sameProblems fun p => (closed p).trans (opened p).symm,
    h.sameProblems fun p => (opened p).symm⟩
  have allOpened := (h.inDialect .basicExpression).markup_whole ('[' :: t) v (by simp) <| by
    refine (consumed_eq y _).trans ?_
    rw [ending,Ending.reach_broken,byteLength_lBracket,Nat.min_self]
  have allClosed := (h.inDialect .basicExpression).markup_whole ('[' :: t ++ [']']) v (by simp) <| by
    refine (consumed_eq z _).trans ?_
    rw [ending',Ending.reach_complete,Text.byteLength_append,byteLength_lBracket]
    exact Nat.min_eq_right (Nat.le_succ _)
  rw [allOpened,allClosed]
  exact pass_closed accepted rfl

def choice : Text := "!(a=\"x\" | b=\"\") & c=\"\"".toList

theorem render_closed_choice : (parse choice .attValList).error = none ∧
    (((ofDialect .attributeList).inDialect .basicExpression).render ('[' :: choice ++ [']']) none).markup =
      (((ofDialect .attributeList).inDialect .basicExpression).render ('[' :: choice) none).markup ++
        [.styled (some .bracket) [']']] := by
  have accepted : (parse choice .attValList).error = none := by
    unfold parse StartRule.recognizer
    rw [Grammar.recognize_eq]
    decide +kernel
  exact ⟨accepted,(render_closed (ofDialect .attributeList) accepted none).1⟩

end Highlighter

end CorpusQuery
