import CorpusQuery.Proofs.Origin
import Mathlib.Data.List.TakeWhile

/-! How a highlighter recovers where a pass stops. Each pass goes on with a shorter end of the query, which
begins with a word; a start rule is given up when a word was skipped, and kept when there was only
white space in the way. What the later passes show is text, in styles or as it is. -/
namespace CorpusQuery

open Markup

namespace Highlighter

variable (h : Highlighter)

def givenUp (p : Passage) : Nat := h.startRules.fallbacks.length - p.fallbacks.length

/-- How the work goes on from one pass to the next. -/
structure Continues (p q : Passage) : Prop where
  depth : q.depth = p.depth + 1
  /-- The next text stands behind what the pass used and what it skipped. -/
  text : ∃ used, p.text = used ++ p.skipped ++ q.text ∧ p.pass.consumed = Text.byteLength used
  shorter : q.text.length < p.text.length
  begins : ∃ c rest, q.text = c :: rest ∧ isWhiteSpace c = false
  /-- A skipped word costs the start rule, white space does not. -/
  rule : ∃ word space, p.skipped = word ++ space ∧ (∀ c ∈ word, isWhiteSpace c = false) ∧
    (∀ c ∈ space, isWhiteSpace c = true) ∧
    h.givenUp q = h.givenUp p + if word = [] then 0 else 1

/-- How a query is worked off by passes. -/
structure WorkedOff (query : Text) (v : Option Vocabulary) (passages : List Passage) : Prop where
  finite : passages.length ≤ query.length
  none_iff : passages = [] ↔ query = []
  first : ∀ p ∈ passages.head?, p.depth = 0 ∧ p.text = query ∧ h.givenUp p = 0
  continues : passages.IsChain h.Continues
  suffix : ∀ p ∈ passages, p.text <:+ query
  /-- Each pass reads its text with the rule that comes after those that were given up. -/
  reads : ∀ p ∈ passages, h.startRules.toList[h.givenUp p]? = some p.start ∧
    p.pass = pass p.text p.start (h.options (v.getD .permissive) p.depth)
  shows : ∀ p later, passages = p :: later → ∃ rest,
    (h.render query v).markup = p.pass.rendering.markup ++ (p.skippedMarkup h.wording ++ rest) ∧
    (p.skippedMarkup h.wording).length ≤ 1 ∧ ∀ f ∈ rest, Styled f

/-! ### One pass after another -/

theorem getElem?_givenUp {p : Passage} (left : p.start :: p.fallbacks <:+ h.startRules.toList) :
    h.startRules.toList[h.givenUp p]? = some p.start := by
  obtain ⟨tried,split⟩ := left
  have size := congrArg List.length split
  simp only [List.length_append,List.length_cons,StartRules.toList] at size
  have place : h.givenUp p = tried.length := by
    unfold givenUp
    omega
  rw [place,← split,List.getElem?_append_right (Nat.le_refl _),Nat.sub_self]
  rfl

theorem begins_of_splitWord {t : Text} (nonempty : (splitWord t).2.2 ≠ []) :
    ∃ c rest, (splitWord t).2.2 = c :: rest ∧ isWhiteSpace c = false := by
  obtain ⟨c,rest,split⟩ := List.exists_cons_of_ne_nil nonempty
  have head := List.head?_dropWhile_not isWhiteSpace (t.dropWhile fun c => !isWhiteSpace c)
  rw [show List.dropWhile isWhiteSpace _ = c :: rest from split] at head
  exact ⟨c,rest,split,head⟩

/-- A pass that leaves a further word goes on there. The rules left are those that it had itself, or without
the next one when it skipped a word. -/
theorem continues_head {v : Vocabulary} {p : Passage} {o : DecorateOptions} {start : StartRule}
    {fallbacks : List StartRule} {word space rest : Text} (isPass : p.pass = pass p.text p.start o)
    (split : splitWord (remainder p.text p.pass.consumed) = (word,space,rest)) (nonempty : rest ≠ [])
    (skipped : p.skipped = word ++ space)
    (rules : if word = [] then fallbacks = p.fallbacks else ∃ next, p.fallbacks = next :: fallbacks)
    (known : p.fallbacks.length ≤ h.startRules.fallbacks.length) :
    ∀ q ∈ (h.passages v (p.depth + 1) start fallbacks rest).head?, h.Continues p q := by
  intro q isHead
  obtain ⟨skippedNext,later,passages,-,-⟩ := h.passages_eq_cons v (p.depth + 1) start fallbacks rest
  rw [passages] at isHead
  obtain rfl := Option.some.inj isHead
  have parts : word ++ space ++ rest = remainder p.text p.pass.consumed := by
    simpa [split] using splitWord_append (remainder p.text p.pass.consumed)
  constructor
  case depth => rfl
  case text =>
    refine ⟨plainText p.pass.rendering.markup,?_,?_⟩
    · rw [skipped,List.append_assoc,parts,isPass]
      exact (pass_text ..).symm
    · rw [isPass]
      exact (pass_split ..).2
  case shorter =>
    have left : remainder p.text p.pass.consumed ≠ [] := by
      rw [← parts]
      exact List.append_ne_nil_of_right_ne_nil _ nonempty
    have lt := length_splitWord_lt left
    rw [split] at lt
    exact Nat.lt_of_lt_of_le lt (length_remainder_le ..)
  case begins =>
    have begins := begins_of_splitWord (t := remainder p.text p.pass.consumed)
    rw [split] at begins
    exact begins nonempty
  case rule =>
    obtain ⟨rfl,rfl,-⟩ : _ = word ∧ _ = space ∧ _ = rest := by simpa [splitWord] using split
    refine ⟨_,_,skipped,fun c member => ?_,fun c member => List.mem_takeWhile_imp member,?_⟩
    · simpa using List.mem_takeWhile_imp member
    · change h.startRules.fallbacks.length - fallbacks.length = _
      unfold givenUp
      split_ifs at rules ⊢ with empty
      · rw [rules,Nat.add_zero]
      · obtain ⟨next,more⟩ := rules
        rw [more,List.length_cons] at known ⊢
        omega

theorem continues_passages (v : Vocabulary) (depth : Nat) (start : StartRule)
    (fallbacks : List StartRule) (t : Text)
    (known : fallbacks.length ≤ h.startRules.fallbacks.length) :
    (h.passages v depth start fallbacks t).IsChain h.Continues := by
  fun_induction passages h v depth start fallbacks t with
  | case1 | case2 => exact .singleton _
  | case3 depth start t pass left _ next later split rest stop ihSame ihNext =>
    have onward (start : StartRule) (fallbacks : List StartRule) :=
      @continues_head h v (stop (split.1 ++ split.2.1)) _ start fallbacks split.1 split.2.1 rest rfl rfl
    split_ifs with goesOn same
    · exact .singleton _
    · exact .cons (ihSame known) (onward _ _ goesOn rfl (by rw [if_pos same]) known)
    · exact .cons (ihNext (Nat.le_of_succ_le known))
        (onward _ _ goesOn rfl (by rw [if_neg same]; exact ⟨next,rfl⟩) known)

/-! ### A whole run -/

variable {h}

theorem suffix_of_chain {p : Passage} {later : List Passage}
    (chain : (p :: later).IsChain h.Continues) : ∀ q ∈ p :: later, q.text <:+ p.text := by
  induction later generalizing p with
  | nil =>
    intro q member
    rw [List.mem_singleton.mp member]
  | cons next later ih =>
    intro q member
    obtain ⟨onward,chain⟩ := List.isChain_cons_cons.mp chain
    rcases List.mem_cons.mp member with rfl | member
    · exact List.suffix_rfl
    · obtain ⟨used,text,-⟩ := onward.text
      exact (ih chain q member).trans ⟨_,text.symm⟩

theorem length_le_of_chain {p : Passage} {later : List Passage} (nonempty : p.text ≠ [])
    (chain : (p :: later).IsChain h.Continues) : (p :: later).length ≤ p.text.length := by
  induction later generalizing p with
  | nil => exact List.length_pos_iff.mpr nonempty
  | cons next later ih =>
    obtain ⟨onward,chain⟩ := List.isChain_cons_cons.mp chain
    obtain ⟨c,rest,begins,-⟩ := onward.begins
    have fewer := ih (begins ▸ List.cons_ne_nil c rest) chain
    have shorter := onward.shorter
    simp only [List.length_cons] at fewer ⊢
    omega

theorem length_skippedMarkup_le (p : Passage) (w : Wording) : (p.skippedMarkup w).length ≤ 1 := by
  rcases skippedMarkup_cases p w with ⟨-,same⟩ | ⟨-,title,same⟩ | ⟨-,same⟩ <;> simp [same]

/-- Whatever the query, the start rules and the options are, a highlighter comes to an end after at most as
many passes as there are characters. Each further pass has a shorter end of the query that begins with a
word; it takes the next start rule when a word was skipped, which there always is, and the same one when
only white space was. Tooltips, marks for editing, line breaks and the mark of unrecognized text belong
to the first pass: behind it there is text in styles, or as it is. -/
theorem workedOff_render (h : Highlighter) (query : Text) (v : Option Vocabulary) :
    h.WorkedOff query v (h.allPassages (v.getD .permissive) query) := by
  unfold allPassages
  split
  next empty =>
    constructor <;> simp [empty]
  next nonempty =>
    obtain ⟨skipped,later,passages,-,behind⟩ := h.passages_eq_cons (v.getD .permissive) 0
      h.startRules.first h.startRules.fallbacks query
    have chain := h.continues_passages (v.getD .permissive) 0 h.startRules.first
      h.startRules.fallbacks query (Nat.le_refl _)
    have passes := h.passes_of_mem (v.getD .permissive) 0 h.startRules.first h.startRules.fallbacks query
    constructor
    case none_iff => simp [passages,nonempty]
    case finite =>
      rw [passages] at chain ⊢
      exact length_le_of_chain nonempty chain
    case first =>
      intro p isHead
      rw [passages] at isHead
      obtain rfl := Option.some.inj isHead
      exact ⟨rfl,rfl,Nat.sub_self _⟩
    case continues => exact chain
    case suffix =>
      rw [passages] at chain ⊢
      exact suffix_of_chain chain
    case reads =>
      exact fun p member => ⟨h.getElem?_givenUp (passes p member).rules,(passes p member).reads⟩
    case shows =>
      intro p others split
      rw [passages] at split
      obtain ⟨rfl,rfl⟩ := List.cons.inj split
      refine ⟨later.flatMap (·.markup h.wording),?_,length_skippedMarkup_le _ _,fun f member => ?_⟩
      · simp only [render,allPassages,nonempty,if_false,passages,List.flatMap_cons,Passage.markup,
          List.append_assoc]
      · obtain ⟨q,isLater,inMarkup⟩ := List.mem_flatMap.mp member
        exact styled_of_later (behind q isLater).1 (behind q isLater).2 f inMarkup

end Highlighter

end CorpusQuery
