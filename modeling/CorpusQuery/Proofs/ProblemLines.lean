import CorpusQuery.Proofs.Hint

/-! The lines of a hint, and what becomes of them in a larger corpus: a name can only cease to be a
problem there. -/
namespace CorpusQuery

def hintLines : Option String → List Text
  | none => []
  | some text => text.toList.splitOn '\n'

def Problem.lines (w : Wording) (p : Problem) : List Text :=
  ("• " ++ p.message w).toList.splitOn '\n'

theorem mem_splitOn_intercalate {a : Char} {line : Text} {parts : List Text} (nonempty : parts ≠ []) :
    line ∈ ([a].intercalate parts).splitOn a ↔ ∃ part ∈ parts, line ∈ part.splitOn a := by
  induction parts with
  | nil => exact absurd rfl nonempty
  | cons part rest ih =>
    cases rest with
    | nil => simp
    | cons next later =>
      rw [List.intercalate_cons_cons,List.append_assoc,List.singleton_append,
        List.splitOn_append_cons_self,List.mem_append,ih (by simp)]
      simp

/-- The lines of a hint are those of its problems, though equal ones are written once. -/
theorem mem_hintLines_hint {w : Wording} {problems : List Problem} {line : Text} :
    line ∈ hintLines (hint w problems) ↔ ∃ p ∈ problems, line ∈ p.lines w := by
  by_cases solved : problems = []
  · simp [solved,hint,hintLines]
  · obtain ⟨messages,same⟩ : ∃ messages, (problems.map (Problem.message w)).eraseDups = messages :=
      ⟨_,rfl⟩
    have mem_iff (message : String) : message ∈ messages ↔ ∃ p ∈ problems, p.message w = message := by
      rw [← same,List.mem_eraseDups,List.mem_map]
    have nonempty : messages ≠ [] := by
      obtain ⟨p,rest,rfl⟩ := List.exists_cons_of_ne_nil solved
      exact List.ne_nil_of_mem ((mem_iff _).mpr ⟨p,by simp,rfl⟩)
    have isHint : hint w problems =
        some ("\n".intercalate (messages.map ("• " ++ ·))) := by
      unfold hint
      rw [same]
      split
      · exact absurd rfl nonempty
      · rfl
    have break_ : "\n".toList = ['\n'] := rfl
    rw [isHint,hintLines,String.toList_intercalate,break_,
      mem_splitOn_intercalate (by simpa using nonempty)]
    simp [mem_iff,Problem.lines]

/-- A corpus with the names of another: all its attributes, and all its structures with at least
their attributes. Which attribute is the tag makes no difference. -/
structure Corpus.Within (c d : Corpus) : Prop where
  attributes : ∀ name, c.attributes.contains name = true → d.attributes.contains name = true
  structures : ∀ name own, c.structures.find? name = some own →
    ∃ own', d.structures.find? name = some own' ∧
      ∀ name, own.contains name = true → own'.contains name = true

/-- What one vocabulary accepts, another accepts as well. -/
structure Vocabulary.Within (u v : Vocabulary) : Prop where
  structures : ∀ name, u.hasStructure name = true → v.hasStructure name = true
  structureAttributes : ∀ own name, u.hasStructureAttribute own name = true →
    v.hasStructureAttribute own name = true
  attributes : ∀ name, u.hasAttribute name = true → v.hasAttribute name = true

theorem Corpus.Within.vocabulary {c d : Corpus} (within : c.Within d) :
    c.vocabulary.Within d.vocabulary where
  structures name has := by
    obtain ⟨own,isOwn⟩ := Option.isSome_iff_exists.mp has
    obtain ⟨own',isOwn',-⟩ := within.structures name own isOwn
    exact Option.isSome_iff_exists.mpr ⟨own',isOwn'⟩
  structureAttributes own name has := by
    obtain ⟨names,isOwn,contains⟩ := (Option.any_eq_true ..).mp has
    obtain ⟨names',isOwn',more⟩ := within.structures own names isOwn
    exact (Option.any_eq_true ..).mpr ⟨names',isOwn',more name contains⟩
  attributes := within.attributes

section Within

variable {T : List Entry} {source : Text} {u v : Vocabulary} {own pair : Span} {p : Problem}

theorem Vocabulary.lacking {α : Type} {f g : α → Bool} (accepts : ∀ a, f a = true → g a = true) {a : α}
    (lacks : g a = false) : f a = false :=
  Bool.eq_false_iff.mpr fun has => by simp [accepts a has] at lacks

theorem StructureProblem.mono (within : u.Within v) (h : StructureProblem source v own p) :
    StructureProblem source u own p := by
  cases h with
  | missing hasText unknown => exact .missing hasText (Vocabulary.lacking within.structures unknown)

/-- Which roles a name has is no matter of the vocabulary, so that the same names are checked. -/
theorem PairProblem.mono (within : u.Within v) (h : PairProblem T source v pair p) :
    PairProblem T source u pair p := by
  cases h with
  | noAttribute leaf unopened isName contains hasText unknown =>
    exact .noAttribute leaf unopened isName contains hasText
      (Vocabulary.lacking within.attributes unknown)
  | noStructureAttribute leaf opened first hasOwn isName contains hasText unknown =>
    exact .noStructureAttribute leaf opened first hasOwn isName contains hasText
      (Vocabulary.lacking (within.structureAttributes _) unknown)
  | noStructure isPair opened first called =>
    exact .noStructure isPair opened first (called.mono within)

theorem Reported.mono (within : u.Within v) (h : Reported T source v p) :
    Reported T source u p := by
  cases h with
  | pair called => exact .pair (called.mono within)
  | closedStructure isStructure opens start first called =>
    exact .closedStructure isStructure opens start first (called.mono within)

end Within

namespace Highlighter

/-- Names added to a corpus introduce no problem: those that remain are among those that there were,
and so are the lines of the hint. -/
theorem problems_mono (h : Highlighter) (query : Text) {c d : Corpus} (within : c.Within d) :
    (∃ few many : List Problem, (h.render query (some d.vocabulary)).hint = hint h.wording few ∧
      (h.render query (some c.vocabulary)).hint = hint h.wording many ∧ few ⊆ many) ∧
    hintLines (h.render query (some d.vocabulary)).hint ⊆
      hintLines (h.render query (some c.vocabulary)).hint := by
  obtain ⟨few,isFew,fewIff⟩ := h.exists_problems query (some d.vocabulary)
  obtain ⟨many,isMany,manyIff⟩ := h.exists_problems query (some c.vocabulary)
  have subset : few ⊆ many := fun p member =>
    (manyIff p).mpr (((fewIff p).mp member).mono within.vocabulary)
  refine ⟨⟨few,many,isFew,isMany,subset⟩,fun line member => ?_⟩
  rw [isFew,mem_hintLines_hint] at member
  obtain ⟨p,isFew,isLine⟩ := member
  rw [isMany,mem_hintLines_hint]
  exact ⟨p,subset isFew,isLine⟩

/-- With more names, `[word="" & lemma=""]` has a problem less. -/
theorem problems_lemma :
    let few : Corpus := { attributes := .ofNames ["word"] }
    let many : Corpus := { attributes := .ofNames ["lemma","word"], tagAttribute := some "lemma" }
    few.Within many ∧
      hintLines ((ofDialect .basicExpression).render "[word=\"\" & lemma=\"\"]".toList
        (some many.vocabulary)).hint ⊆
      hintLines ((ofDialect .basicExpression).render "[word=\"\" & lemma=\"\"]".toList
        (some few.vocabulary)).hint := by
  intro few many
  have within : few.Within many := by
    refine ⟨fun name has => ?_,fun name own has => ?_⟩
    · obtain rfl : "word" = name := by
        simpa [few,NameSet.ofNames,SortedMap.ofList,SortedMap.insert,SortedMap.insertEntry,SortedMap.empty,
          SortedMap.contains,SortedMap.find?] using has
      decide
    · exact absurd has (by simp [few,SortedMap.find?,SortedMap.empty])
  exact ⟨within,(problems_mono _ _ within).2⟩

end Highlighter

end CorpusQuery
