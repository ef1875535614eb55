import CorpusQuery.Proofs.Structures
import Mathlib.Data.List.Nodup

/-! What is looked up in a table of a parse: the symbols in a range, and the name of the structure
that is open before a pair. -/
namespace CorpusQuery

namespace Span

@[simp] theorem mem_sort {spans : List Span} {s : Span} : s ∈ sort spans ↔ s ∈ spans := by
  simp [sort]

theorem pairwise_sort (spans : List Span) : (sort spans).Pairwise fun a b => ¬b < a := by
  have sorted : (sort spans).Pairwise fun a b => (!decide (b < a)) = true := by
    refine List.pairwise_mergeSort (fun a b c ab bc => ?_) (fun a b => ?_) spans
    · simp only [Bool.not_eq_true',decide_eq_false_iff_not,lt_iff] at ab bc ⊢
      omega
    · simp only [Bool.or_eq_true,Bool.not_eq_true',decide_eq_false_iff_not,lt_iff]
      omega
  exact sorted.imp fun h => by simpa using h

theorem sort_eq_cons {spans : List Span} {first : Span} (member : first ∈ spans)
    (least : ∀ s ∈ spans, s ≠ first → first.start < s.start) :
    ∃ rest, sort spans = first :: rest := by
  cases sorted : sort spans with
  | nil =>
    have := mem_sort.mpr member
    simp [sorted] at this
  | cons head rest =>
    have isHead : head ∈ spans := mem_sort.mp (by simp [sorted])
    by_cases same : head = first
    · exact ⟨rest,by rw [same]⟩
    · have inSorted := mem_sort.mpr member
      rw [sorted] at inSorted
      have inRest := (List.mem_cons.mp inSorted).resolve_left (Ne.symm same)
      have pairwise := pairwise_sort spans
      rw [sorted] at pairwise
      have notBefore := (List.pairwise_cons.mp pairwise).1 first inRest
      exact absurd (.inl (least head isHead same)) notBefore

end Span

def SpanTable.bracketsBefore (table : SpanTable) (pair : Span) : List (Span × Terminal) :=
  table.terminals.entries.filter fun (span,kind) =>
    span.start < pair.start && (kind == .lt || kind == .gt)

structure SpanTable.Registers (table : SpanTable) (T : List Entry) : Prop where
  terminals : table.terminals.entries = Entry.terminals T
  rules : ∀ r span, (r,span) ∈ table.nonTerminals ↔ (.nonTerminal r,span) ∈ T
  nodup : table.nonTerminals.Nodup
  order : table.nonTerminals.Sublist (Entry.nonTerminals T)

theorem Reading.registers {full : Text} {start : StartRule} (x : Reading full start)
    (source : Text) : (SpanTable.ofEvents source (parse full start).events).Registers x.path where
  terminals := x.terminals_eq source
  rules r span := by
    unfold SpanTable.ofEvents
    rw [x.run_events,SpanTable.Builder.mem_nonTerminals_registerAll,x.agrees.nonTerminals,
      Entry.mem_nonTerminals]
    simp [SpanTable.Builder.start]
  nodup := by
    unfold SpanTable.ofEvents
    rw [x.run_events]
    exact SpanTable.Builder.nodup_registerAll _ .nil
  order := by
    unfold SpanTable.ofEvents
    rw [x.run_events,← x.agrees.nonTerminals]
    obtain ⟨new,sublist,same⟩ :=
      (SpanTable.Builder.start source).nonTerminals_registerAll x.found
    exact same ▸ sublist

namespace SpanTable.Registers

variable {table : SpanTable} {full : Text} {T : List Entry} {r : NonTerminal}
  {span outer pair lt own : Span}

theorem mem_spansOf (h : table.Registers T) :
    span ∈ table.spansOf r ↔ (.nonTerminal r,span) ∈ T := by
  rw [← h.rules]
  simp only [spansOf,List.mem_filterMap,Option.ite_none_right_eq_some,Option.some.injEq,Prod.exists]
  exact ⟨fun ⟨_,_,member,rule,same⟩ => rule ▸ same ▸ member,fun member => ⟨r,span,member,rfl,rfl⟩⟩

theorem mem_nested (h : table.Registers T) : span ∈ table.nested outer r ↔
    (.nonTerminal r,span) ∈ T ∧ outer.strictlyContains span = true := by
  simp [nested,h.mem_spansOf]

theorem nodup_spansOf (h : table.Registers T) : (table.spansOf r).Nodup := by
  refine List.Nodup.filterMap (fun a b span inA inB => ?_) h.nodup
  simp only [Option.mem_def,Option.ite_none_right_eq_some,Option.some.injEq] at inA inB
  exact Prod.ext (inA.1.trans inB.1.symm) (inA.2.trans inB.2.symm)

theorem nodup_nested (h : table.Registers T) : (table.nested outer r).Nodup :=
  (List.mergeSort_perm ..).nodup_iff.mpr (h.nodup_spansOf.filter _)

theorem nested_congr {table' : SpanTable} {U : List Entry} (h : table.Registers T)
    (h' : table'.Registers U) (same : ∀ span, (.nonTerminal r,span) ∈ T ↔ (.nonTerminal r,span) ∈ U) :
    table.nested outer r = table'.nested outer r := by
  refine (List.perm_ext_iff_of_nodup h.nodup_nested h'.nodup_nested).mpr (fun span => ?_)
    |>.eq_of_pairwise (fun a b _ _ => ?_) (Span.pairwise_sort _) (Span.pairwise_sort _)
  · rw [h.mem_nested,h'.mem_nested,same]
  · exact fun notAfter notBefore => StrictOrder.eq_of_not_lt notBefore notAfter

theorem nested_pairs_eq_nil (h : table.Registers T) (isPair : (.nonTerminal .attVal,pair) ∈ T) :
    table.nested pair .attVal = [] ↔ LeafPair T pair := by
  rw [List.eq_nil_iff_forall_not_mem]
  simp only [h.mem_nested,not_and]
  exact ⟨fun alone => ⟨isPair,fun inner member => Bool.eq_false_iff.mpr (alone inner member)⟩,
    fun leaf inner member => Bool.eq_false_iff.mp (leaf.alone inner member)⟩

theorem nested_names (h : table.Registers T) (x : Outline full T)
    (isName : (.nonTerminal .attName,own) ∈ T) (holds : outer.strictlyContains own = true)
    (first : ∀ name, (.nonTerminal .attName,name) ∈ T → outer.strictlyContains name = true →
      own.start ≤ name.start) : ∃ rest, table.nested outer .attName = own :: rest := by
  refine Span.sort_eq_cons ?_ fun name member differs => ?_
  · simp [h.mem_spansOf,isName,holds]
  · simp only [List.mem_filter,h.mem_spansOf] at member
    refine Nat.lt_of_le_of_ne (first name member.1 member.2) fun same => ?_
    exact differs (x.name_eq member.1 isName same.symm)

theorem mem_bracketsBefore (h : table.Registers T) {kind : Terminal} :
    (span,kind) ∈ table.bracketsBefore pair ↔
      (.terminal kind,span) ∈ T ∧ span.start < pair.start ∧ (kind = .lt ∨ kind = .gt) := by
  simp [bracketsBefore,h.terminals,Entry.mem_terminals]

/-- The last bracket before a pair is the nearest. -/
theorem getLast?_bracketsBefore (h : table.Registers T) (x : Outline full T) {bracket : Span}
    {kind : Terminal} (isPair : (.nonTerminal .attVal,pair) ∈ T)
    (last : (table.bracketsBefore pair).getLast? = some (bracket,kind)) :
    (.terminal kind,bracket) ∈ T ∧ (kind = .lt ∨ kind = .gt) ∧ bracket.stop ≤ pair.start ∧
      ∀ k b, k = .lt ∨ k = .gt → (.terminal k,b) ∈ T → b.stop ≤ pair.start →
        b.stop ≤ bracket.stop := by
  obtain ⟨p⟩ := x.placed isPair rfl
  have ends {k : Terminal} {b : Span} (member : (.terminal k,b) ∈ T) (starts : b.start < pair.start) :
      b.stop ≤ pair.start :=
    (x.mem_before_iff p member).mp (p.mem_before x.trail member rfl rfl starts)
  have member := h.mem_bracketsBefore.mp (List.mem_of_getLast? last)
  refine ⟨member.1,member.2.2,ends member.1 member.2.1,fun k b isBracket inT before => ?_⟩
  have proper := x.proper inT rfl
  have inFilter : (b,k) ∈ table.bracketsBefore pair :=
    h.mem_bracketsBefore.mpr ⟨inT,proper.trans_le before,isBracket⟩
  obtain ⟨init,split⟩ := List.getLast?_eq_some_iff.mp last
  have sorted : (table.bracketsBefore pair).Pairwise fun a b => a.1.stop ≤ b.1.start := by
    rw [bracketsBefore,h.terminals]
    exact (x.trail.tiles.sorted x.inside).filter _
  rw [split,List.pairwise_append] at sorted
  rw [split,List.mem_append,List.mem_singleton] at inFilter
  rcases inFilter with earlier | same
  · have := sorted.2.2 (b,k) earlier (bracket,kind) (by simp)
    exact this.trans (x.proper member.1 rfl).le
  · exact (congrArg (·.1.stop) same).le

theorem openStructure?_of_openedAt (h : table.Registers T) (x : Outline full T)
    (isPair : (.nonTerminal .attVal,pair) ∈ T) (opened : OpenedAt T lt pair)
    (first : FirstName T lt own) (ends : own.stop ≤ pair.start) :
    table.openStructure? pair = some own := by
  have proper := x.proper opened.opens rfl
  have inBrackets : (lt,.lt) ∈ table.bracketsBefore pair :=
    h.mem_bracketsBefore.mpr ⟨opened.opens,proper.trans_le opened.before,.inl rfl⟩
  have last : (table.bracketsBefore pair).getLast? = some (lt,.lt) := by
    cases last : (table.bracketsBefore pair).getLast? with
    | none => simp [List.getLast?_eq_none_iff.mp last] at inBrackets
    | some found =>
      obtain ⟨bracket,kind⟩ := found
      obtain ⟨member,isBracket,before,nearest⟩ := h.getLast?_bracketsBefore x isPair last
      have le := opened.nearest kind bracket isBracket member before
      have ge := nearest .lt lt (.inl rfl) opened.opens opened.before
      have bracketProper := x.proper member rfl
      simp only at proper bracketProper
      rcases x.apart opened.opens member rfl rfl rfl rfl with eq | disjoint | disjoint
      · simp only [Prod.mk.injEq,Symbol.terminal.injEq] at eq
        rw [eq.1,eq.2]
      · simp only at disjoint
        omega
      · simp only at disjoint
        omega
  have names : ∃ rest, Span.sort ((table.spansOf .attName).filter fun name =>
      lt.stop ≤ name.start && name.stop ≤ pair.start) = own :: rest := by
    refine Span.sort_eq_cons ?_ fun name member differs => ?_
    · simp [h.mem_spansOf,first.matched,first.behind,ends]
    · simp only [List.mem_filter,h.mem_spansOf,Bool.and_eq_true,decide_eq_true_eq] at member
      refine Nat.lt_of_le_of_ne (first.first name member.1 member.2.1) fun same => ?_
      exact differs (x.name_eq member.1 first.matched same.symm)
  obtain ⟨rest,names⟩ := names
  unfold bracketsBefore at last
  simp [openStructure?,last,names]

theorem openStructure?_of_not_openedAt (h : table.Registers T) (x : Outline full T)
    (isPair : (.nonTerminal .attVal,pair) ∈ T) (unopened : ∀ lt, ¬OpenedAt T lt pair) :
    table.openStructure? pair = none := by
  unfold openStructure?
  simp only
  rw [← bracketsBefore]
  cases last : (table.bracketsBefore pair).getLast? with
  | none => rfl
  | some found =>
    obtain ⟨bracket,kind⟩ := found
    obtain ⟨member,isBracket,before,nearest⟩ := h.getLast?_bracketsBefore x isPair last
    rcases isBracket with rfl | rfl
    · exact absurd ⟨member,before,nearest⟩ (unopened bracket)
    · rfl

end SpanTable.Registers

end CorpusQuery
