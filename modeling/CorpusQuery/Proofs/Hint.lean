import CorpusQuery.Highlighter
import CorpusQuery.Proofs.Reporting

/-! The hint names the problems that the roles of the names in the first pass call for, and there is
none where they call for none. -/
namespace CorpusQuery

section Same

variable {T U : List Entry} {pair lt name own : Span} {source : Text} {v : Vocabulary} {p : Problem}

/-! Roles do not depend on the order of the symbols. -/

theorem LeafPair.congr (same : ∀ x, x ∈ T ↔ x ∈ U) (h : LeafPair T pair) : LeafPair U pair :=
  ⟨(same _).mp h.matched,fun inner member => h.alone inner ((same _).mpr member)⟩

theorem OpenedAt.congr (same : ∀ x, x ∈ T ↔ x ∈ U) (h : OpenedAt T lt pair) : OpenedAt U lt pair :=
  ⟨(same _).mp h.opens,h.before,fun kind bracket isBracket member =>
    h.nearest kind bracket isBracket ((same _).mpr member)⟩

theorem FirstName.congr (same : ∀ x, x ∈ T ↔ x ∈ U) (h : FirstName T lt name) :
    FirstName U lt name :=
  ⟨(same _).mp h.matched,h.behind,fun other member => h.first other ((same _).mpr member)⟩

theorem PairProblem.congr (same : ∀ x, x ∈ T ↔ x ∈ U) (h : PairProblem T source v pair p) :
    PairProblem U source v pair p := by
  cases h with
  | noAttribute leaf unopened isName contains hasText unknown =>
    exact .noAttribute (leaf.congr same) (fun lt h => unopened lt (h.congr fun x => (same x).symm))
      ((same _).mp isName) contains hasText unknown
  | noStructureAttribute leaf opened first hasOwn isName contains hasText unknown =>
    exact .noStructureAttribute (leaf.congr same) (opened.congr same) (first.congr same) hasOwn
      ((same _).mp isName) contains hasText unknown
  | noStructure isPair opened first called =>
    exact .noStructure ((same _).mp isPair) (opened.congr same) (first.congr same) called

theorem NamesDetermined.congr (same : ∀ x, x ∈ T ↔ x ∈ U) (h : NamesDetermined T source) :
    NamesDetermined U source where
  leaf pair leaf := by
    obtain ⟨name,⟨isName,contains⟩,only⟩ := h.leaf pair (leaf.congr fun x => (same x).symm)
    exact ⟨name,⟨(same _).mp isName,contains⟩,fun other isOther => only other ((same _).mpr isOther)⟩
  structural pair lt isPair opened := by
    obtain ⟨own,first⟩ := h.structural pair lt ((same _).mpr isPair)
      (opened.congr fun x => (same x).symm)
    exact ⟨own,first.congr same⟩
  closedStructure span isStructure := by
    obtain ⟨lt,own,opens,start,first⟩ := h.closedStructure span ((same _).mpr isStructure)
    exact ⟨lt,own,(same _).mp opens,start,first.congr same⟩
  exists_text name isName := h.exists_text name ((same _).mpr isName)

theorem Reported.congr (same : ∀ x, x ∈ T ↔ x ∈ U) (h : Reported T source v p) :
    Reported U source v p := by
  cases h with
  | pair called => exact .pair (called.congr same)
  | closedStructure isStructure opens start first called =>
    exact .closedStructure ((same _).mp isStructure) ((same _).mp opens) start (first.congr same)
      called

theorem reported_congr (same : ∀ x, x ∈ T ↔ x ∈ U) : Reported T source v p ↔ Reported U source v p :=
  ⟨.congr same,.congr fun x => (same x).symm⟩

end Same

namespace Highlighter

def matched (h : Highlighter) (query : Text) : List Entry :=
  Event.matched [] (parse (query ++ h.startRules.first.ending) h.startRules.first).events

theorem mem_matched_iff (h : Highlighter) {query : Text}
    (x : Reading (query ++ h.startRules.first.ending) h.startRules.first) (y : Entry) :
    y ∈ h.matched query ↔ y ∈ x.path := by
  rw [matched,x.matched_eq]
  exact x.agrees.mem_iff y

theorem head?_passages (h : Highlighter) (v : Vocabulary) (depth : Nat) (start : StartRule)
    (fallbacks : List StartRule) (t : Text) :
    (h.passages v depth start fallbacks t).head?.map (·.pass) =
      some (pass t start (h.options v depth)) := by
  unfold passages
  simp only
  split
  · rfl
  · cases fallbacks <;> rfl

theorem hint_pass (t : Text) (start : StartRule) (o : DecorateOptions) :
    (pass t start o).rendering.hint = hint o.wording
      ((SpanTable.ofEvents t (parse (t ++ start.ending) start).events).notes o).problems := rfl

theorem not_reported_nil {T : List Entry} {v : Vocabulary} {p : Problem}
    (proper : ∀ name, (.nonTerminal .attName,name) ∈ T → name.start < name.stop) :
    ¬Reported T [] v p := by
  have nameless {name : Span} {text : Text} (isName : (.nonTerminal .attName,name) ∈ T)
      (hasText : Text.slice? [] name.start name.stop = some text) : False := by
    have proper := proper name isName
    obtain ⟨start,stop⟩ := name
    cases start with
    | zero =>
      obtain ⟨stop,rfl⟩ := Nat.exists_eq_succ_of_ne_zero proper.ne'
      simp [Text.slice?,Text.dropBytes?,Text.takeBytes?] at hasText
    | succ start => simp [Text.slice?,Text.dropBytes?] at hasText
  intro h
  cases h with
  | pair called =>
    cases called with
    | noAttribute _ _ isName _ hasText => exact nameless isName hasText
    | noStructureAttribute _ _ _ _ isName _ hasText => exact nameless isName hasText
    | noStructure _ _ first called =>
      cases called with
      | missing hasText => exact nameless first.matched hasText
  | closedStructure _ _ _ first called =>
    cases called with
    | missing hasText => exact nameless first.matched hasText

theorem hint_first (h : Highlighter) {query : Text} (v : Option Vocabulary) (asked : query ≠ []) :
    (h.render query v).hint = (pass query h.startRules.first
      (h.options (v.getD .permissive) 0)).rendering.hint := by
  have head := h.head?_passages (v.getD .permissive) 0 h.startRules.first h.startRules.fallbacks query
  obtain ⟨passage,isHead,isPass⟩ := Option.map_eq_some_iff.mp head
  simp only [render,allPassages,asked,if_false,isHead,Option.bind_some,isPass]

theorem exists_problems (h : Highlighter) (query : Text) (v : Option Vocabulary) :
    ∃ problems, (h.render query v).hint = hint h.wording problems ∧
      ∀ p, p ∈ problems ↔ Reported (h.matched query) query (v.getD .permissive) p := by
  obtain ⟨x⟩ := reading (query ++ h.startRules.first.ending) h.startRules.first
  simp only [reported_congr (h.mem_matched_iff x)]
  by_cases empty : query = []
  · subst empty
    refine ⟨[],rfl,fun p => ?_⟩
    simpa using not_reported_nil fun name isName => x.outline.proper isName rfl
  · refine ⟨_,(h.hint_first v empty).trans (hint_pass _ _ _),fun p => ?_⟩
    rw [x.legible.mem_problems_iff rfl,x.source_eq]

end Highlighter

end CorpusQuery
