import CorpusQuery.Proofs.Prediction
import CorpusQuery.SpanTable.Builder
import Mathlib.Data.List.Induction

/-! What a table holds after a trace. Of events that nest, the entries are registered one by one and
nothing is faulty; what a failed symbol had matched inside is registered with the rest. -/
namespace CorpusQuery

namespace SortedMap

variable {κ α : Type} [LT κ] [DecidableLT κ] [StrictOrder κ]

theorem mem_insertEntry_iff {key : κ} {value : α} {entries : List (κ × α)}
    (sorted : entries.Pairwise fun a b => a.1 < b.1) (e : κ × α) :
    e ∈ insertEntry key value entries ↔ e = (key,value) ∨ e ∈ entries ∧ e.1 ≠ key := by
  induction entries with
  | nil => simp [insertEntry]
  | cons head rest ih =>
    obtain ⟨above,below⟩ := List.pairwise_cons.mp sorted
    have ne_of_lt {a b : κ} (lt : a < b) : b ≠ a := fun same => StrictOrder.irrefl a (same ▸ lt)
    unfold insertEntry
    split
    next first =>
      have later : e ∈ head :: rest → e.1 ≠ key := by
        rintro (_ | ⟨_,inRest⟩)
        · exact ne_of_lt first
        · exact ne_of_lt (StrictOrder.trans first (above e inRest))
      rw [List.mem_cons]
      exact or_congr_right ⟨fun member => ⟨member,later member⟩,And.left⟩
    next notFirst =>
      split
      next later =>
        have differs : head.1 ≠ key := fun same => StrictOrder.irrefl key (same ▸ later)
        simp only [List.mem_cons,ih below]
        constructor
        · rintro (rfl | new | ⟨old,ne⟩)
          · exact .inr ⟨.inl rfl,differs⟩
          · exact .inl new
          · exact .inr ⟨.inr old,ne⟩
        · rintro (new | ⟨rfl | old,ne⟩)
          · exact .inr (.inl new)
          · exact .inl rfl
          · exact .inr (.inr ⟨old,ne⟩)
      next notLater =>
        have same : head.1 = key := StrictOrder.eq_of_not_lt notLater notFirst
        simp only [List.mem_cons]
        constructor
        · rintro (new | old)
          · exact .inl new
          · exact .inr ⟨.inr old,ne_of_lt (same ▸ above e old)⟩
        · rintro (new | ⟨rfl | old,ne⟩)
          · exact .inl new
          · exact absurd same ne
          · exact .inr old

theorem mem_insert_iff (m : SortedMap κ α) (key : κ) (value : α) (e : κ × α) :
    e ∈ (m.insert key value).entries ↔ e = (key,value) ∨ e ∈ m.entries ∧ e.1 ≠ key :=
  mem_insertEntry_iff m.sorted e

omit [DecidableLT κ] in
theorem entries_eq {m : SortedMap κ α} {entries : List (κ × α)}
    (sorted : entries.Pairwise fun a b => a.1 < b.1) (same : ∀ e, e ∈ m.entries ↔ e ∈ entries) :
    m.entries = entries := by
  have nodup {l : List (κ × α)} (sorted : l.Pairwise fun a b => a.1 < b.1) : l.Nodup := by
    refine List.Pairwise.imp ?_ sorted
    rintro a b lt rfl
    exact StrictOrder.irrefl a.1 lt
  have asymm (a b : κ × α) (ab : a.1 < b.1) (ba : b.1 < a.1) : a = b :=
    absurd (StrictOrder.trans ab ba) (StrictOrder.irrefl a.1)
  exact List.Perm.eq_of_pairwise (fun a b _ _ => asymm a b) m.sorted sorted
    ((List.perm_ext_iff_of_nodup (nodup m.sorted) (nodup sorted)).mpr same)

omit [DecidableLT κ] in
theorem eq_of_key_eq {entries : List (κ × α)} (sorted : entries.Pairwise fun a b => a.1 < b.1) :
    ∀ y ∈ entries, ∀ z ∈ entries, y.1 = z.1 → y = z := by
  induction sorted with
  | nil => simp
  | @cons a rest above _ ih =>
    have differs (z) (member : z ∈ rest) : a.1 ≠ z.1 := fun same =>
      StrictOrder.irrefl z.1 (same ▸ above z member)
    intro y inY z inZ same
    rcases List.mem_cons.mp inY with rfl | laterY
    · rcases List.mem_cons.mp inZ with rfl | laterZ
      · rfl
      · exact absurd same (differs z laterZ)
    · rcases List.mem_cons.mp inZ with rfl | laterZ
      · exact absurd same.symm (differs y laterY)
      · exact ih y laterY z laterZ same

end SortedMap

namespace Entry

def terminal? : Entry → Option (Span × Terminal)
  | (.terminal t,span) => some (span,t)
  | (.nonTerminal _,_) => none

def nonTerminal? : Entry → Option (NonTerminal × Span)
  | (.terminal _,_) => none
  | (.nonTerminal r,span) => some (r,span)

@[simp] theorem terminal?_leaf (c : Cursor) (tag : Terminal) (n : Nat) :
    (c.leaf tag n).terminal? = some (⟨c.offset,(c.advance n).offset⟩,tag) := rfl

@[simp] theorem terminal?_branch (c : Cursor) (r : NonTerminal) (d : Cursor) :
    (c.branch r d).terminal? = none := rfl

@[simp] theorem nonTerminal?_leaf (c : Cursor) (tag : Terminal) (n : Nat) :
    (c.leaf tag n).nonTerminal? = none := rfl

@[simp] theorem nonTerminal?_branch (c : Cursor) (r : NonTerminal) (d : Cursor) :
    (c.branch r d).nonTerminal? = some (r,⟨c.offset,d.offset⟩) := rfl

def terminals (entries : List Entry) : List (Span × Terminal) := entries.filterMap terminal?

def nonTerminals (entries : List Entry) : List (NonTerminal × Span) :=
  entries.filterMap nonTerminal?

theorem terminal?_eq_some {x : Entry} {span : Span} {t : Terminal} :
    x.terminal? = some (span,t) ↔ x = (.terminal t,span) := by
  rcases x with ⟨symbol,place⟩
  cases symbol <;> simp [terminal?,and_comm]

theorem nonTerminal?_eq_some {x : Entry} {span : Span} {r : NonTerminal} :
    x.nonTerminal? = some (r,span) ↔ x = (.nonTerminal r,span) := by
  rcases x with ⟨symbol,place⟩
  cases symbol <;> simp [nonTerminal?]

theorem mem_terminals {entries : List Entry} {span : Span} {t : Terminal} :
    (span,t) ∈ terminals entries ↔ (.terminal t,span) ∈ entries := by
  simp [terminals,terminal?_eq_some]

theorem mem_nonTerminals {entries : List Entry} {span : Span} {r : NonTerminal} :
    (r,span) ∈ nonTerminals entries ↔ (.nonTerminal r,span) ∈ entries := by
  simp [nonTerminals,nonTerminal?_eq_some]

theorem nonTerminals_filter_isBlank (entries : List Entry) :
    nonTerminals (entries.filter (!·.isBlank)) = nonTerminals entries := by
  rw [nonTerminals,List.filterMap_filter]
  refine List.filterMap_congr fun x _ => ?_
  rcases x with ⟨t | r,span⟩
  · exact ite_self none
  · rfl

end Entry

theorem Agrees.nonTerminals {found path given : List Entry} (h : Agrees found path given) :
    Entry.nonTerminals found = Entry.nonTerminals path := by
  rw [← Entry.nonTerminals_filter_isBlank found,h.dark,Entry.nonTerminals_filter_isBlank]

theorem Agrees.mem_iff {found path : List Entry} (h : Agrees found path []) (x : Entry) :
    x ∈ found ↔ x ∈ path := by
  by_cases white : x.isBlank = true
  · simpa using h.blank x white
  · have inFilter (l : List Entry) : x ∈ l ↔ x ∈ l.filter (!·.isBlank) := by simp [white]
    rw [inFilter,h.dark,← inFilter]

/-- The symbols that were matched, in the order of leaving, with those entered before still open. -/
def Event.matched : List (Symbol × Nat) → List Event → List Entry
  | _,[] => []
  | outer,.enter symbol offset :: rest => matched ((symbol,offset) :: outer) rest
  | (symbol,offset) :: outer,.leave stop :: rest => (symbol,⟨offset,stop⟩) :: matched outer rest
  | _ :: outer,.fail _ :: rest => matched outer rest
  | [],_ :: rest => matched [] rest

theorem Event.matched_append (outer : List (Symbol × Nat)) (first second : List Event) :
    ∃ still, matched outer (first ++ second) = matched outer first ++ matched still second := by
  induction first generalizing outer with
  | nil => exact ⟨outer,rfl⟩
  | cons event first ih =>
    cases event with
    | enter symbol offset => exact ih ((symbol,offset) :: outer)
    | leave stop =>
      cases outer with
      | nil => exact ih []
      | cons symbol outer =>
        obtain ⟨still,later⟩ := ih outer
        exact ⟨still,congrArg (List.cons _) later⟩
    | fail symbol =>
      cases outer with
      | nil => exact ih []
      | cons _ outer => exact ih outer

theorem Balanced.matched {events : List Event} {entries : List Entry} (h : Balanced events entries)
    (outer : List (Symbol × Nat)) (rest : List Event) :
    Event.matched outer (events ++ rest) = entries ++ Event.matched outer rest := by
  induction h generalizing outer rest with
  | nil => rfl
  | left _ ih => simp [Event.matched,ih]
  | failed _ ih => simp [Event.matched,ih]
  | append _ _ ihFirst ihSecond => simp [ihFirst,ihSecond]

namespace SpanTable.Builder

def registerAll (b : Builder) (entries : List Entry) : Builder :=
  entries.foldl (fun b x => b.register x.1 x.2) b

@[simp] theorem registerAll_nil (b : Builder) : b.registerAll [] = b := rfl

@[simp] theorem registerAll_cons (b : Builder) (x : Entry) (rest : List Entry) :
    b.registerAll (x :: rest) = (b.register x.1 x.2).registerAll rest := rfl

@[simp] theorem registerAll_append (b : Builder) (first second : List Entry) :
    b.registerAll (first ++ second) = (b.registerAll first).registerAll second :=
  List.foldl_append

theorem register_terminal (b : Builder) (t : Terminal) {span : Span}
    (nonempty : span.start < span.stop) : b.register (.terminal t) span =
      { b with table := b.table.setTerminal span t, reach := max b.reach span.stop } := by
  simp [register,nonempty]

theorem register_nonTerminal (b : Builder) (r : NonTerminal) (span : Span) :
    b.register (.nonTerminal r) span = { b with table := b.table.addNonTerminal span r } := rfl

theorem register_pending (b : Builder) (symbol : Symbol) (span : Span) (stack : List (Symbol × Nat)) :
    { b with pending := stack }.register symbol span =
      { b.register symbol span with pending := stack } := by
  cases symbol with
  | terminal t => by_cases proper : span.start < span.stop <;> simp [register,proper]
  | nonTerminal r => rfl

@[simp] theorem pending_register (b : Builder) (symbol : Symbol) (span : Span) :
    (b.register symbol span).pending = b.pending := by
  cases symbol with
  | terminal t => by_cases proper : span.start < span.stop <;> simp [register,proper]
  | nonTerminal r => rfl

@[simp] theorem source_register (b : Builder) (symbol : Symbol) (span : Span) :
    (b.register symbol span).table.source = b.table.source := by
  cases symbol with
  | terminal t => by_cases proper : span.start < span.stop <;> simp [register,proper,setTerminal]
  | nonTerminal r =>
    rw [register_nonTerminal,addNonTerminal]
    split <;> rfl

@[simp] theorem nonTerminals_register_terminal (b : Builder) (t : Terminal) (span : Span) :
    (b.register (.terminal t) span).table.nonTerminals = b.table.nonTerminals := by
  by_cases proper : span.start < span.stop <;> simp [register,proper,setTerminal]

@[simp] theorem terminals_register_nonTerminal (b : Builder) (r : NonTerminal) (span : Span) :
    (b.register (.nonTerminal r) span).table.terminals = b.table.terminals := by
  rw [register_nonTerminal,addNonTerminal]
  split <;> rfl

@[simp] theorem pending_registerAll (b : Builder) (entries : List Entry) :
    (b.registerAll entries).pending = b.pending := by
  induction entries generalizing b with
  | nil => rfl
  | cons x rest ih => simp [ih]

theorem registerAll_pending (b : Builder) (entries : List Entry)
    (stack : List (Symbol × Nat)) :
    { b with pending := stack }.registerAll entries =
      { b.registerAll entries with pending := stack } := by
  induction entries generalizing b with
  | nil => rfl
  | cons x rest ih => rw [registerAll_cons,registerAll_cons,register_pending,ih]

theorem run_concat (b : Builder) (events : List Event) (last : Event) :
    b.run (events ++ [last]) = (((b.run events).1.step last).1,
      (b.run events).2 ++ ((b.run events).1.step last).2.toList) := by
  simp [run,List.foldl_append]

theorem run_append (b : Builder) (first second : List Event) :
    b.run (first ++ second) = (((b.run first).1.run second).1,
      (b.run first).2 ++ ((b.run first).1.run second).2) := by
  induction second using List.reverseRecOn with
  | nil => simp [run]
  | append_singleton events last ih =>
    rw [← List.append_assoc,run_concat,run_concat,ih]
    simp

theorem run_balanced {events : List Event} {entries : List Entry} (h : Balanced events entries)
    (b : Builder) : b.run events = (b.registerAll entries,[]) := by
  have one (b : Builder) (event : Event) :
      b.run [event] = ((b.step event).1,(b.step event).2.toList) := by simp [run]
  have closes (b : Builder) (entries : List Entry) :
      { b.registerAll entries with pending := b.pending } = b.registerAll entries := by
    rw [← pending_registerAll b entries]
  induction h generalizing b with
  | nil => rfl
  | @left inner entries symbol offset stop _ ih =>
    change b.run ([.enter symbol offset] ++ inner ++ [.leave stop]) = _
    simp only [run_append,one,step,ih,registerAll_pending,registerAll_append,closes]
    rfl
  | @failed inner entries symbol offset _ ih =>
    change b.run ([.enter symbol offset] ++ inner ++ [.fail symbol]) = _
    simp only [run_append,one,step,ih,registerAll_pending,closes]
    simp
  | append _ _ ihFirst ihSecond => simp [run_append,ihFirst,ihSecond]

section Result

variable {b : Builder} {entries : List Entry}

@[simp] theorem source_registerAll (b : Builder) (entries : List Entry) :
    (b.registerAll entries).table.source = b.table.source := by
  induction entries generalizing b with
  | nil => rfl
  | cons x rest ih => rw [registerAll_cons,ih,source_register]

theorem mem_nonTerminals_registerAll (b : Builder) (entries : List Entry)
    (x : NonTerminal × Span) : x ∈ (b.registerAll entries).table.nonTerminals ↔
      x ∈ b.table.nonTerminals ∨ x ∈ Entry.nonTerminals entries := by
  induction entries generalizing b with
  | nil => simp [Entry.nonTerminals]
  | cons y rest ih =>
    rcases y with ⟨t | r,span⟩
    · rw [registerAll_cons,ih,nonTerminals_register_terminal]
      rfl
    · have added : x ∈ (b.register (.nonTerminal r) span).table.nonTerminals ↔
          x ∈ b.table.nonTerminals ∨ x = (r,span) := by
        simp only [register_nonTerminal,addNonTerminal]
        split
        next old => exact ⟨.inl,fun h => h.elim id fun same => same ▸ old⟩
        next => simp
      rw [registerAll_cons,ih,added]
      simp [Entry.nonTerminals,Entry.nonTerminal?,or_assoc]

theorem nodup_registerAll (entries : List Entry) (nodup : b.table.nonTerminals.Nodup) :
    (b.registerAll entries).table.nonTerminals.Nodup := by
  induction entries generalizing b with
  | nil => exact nodup
  | cons y rest ih =>
    refine ih ?_
    rcases y with ⟨t | r,span⟩
    · rwa [nonTerminals_register_terminal]
    · simp only [register_nonTerminal,addNonTerminal]
      split
      next => exact nodup
      next fresh =>
        exact List.nodup_append.mpr ⟨nodup,by simp,fun x old y new => by
          rw [List.mem_singleton.mp new]
          exact fun same => fresh (same ▸ old)⟩

theorem nonTerminals_registerAll (b : Builder) (entries : List Entry) :
    ∃ new, new.Sublist (Entry.nonTerminals entries) ∧
      (b.registerAll entries).table.nonTerminals = b.table.nonTerminals ++ new := by
  induction entries generalizing b with
  | nil => exact ⟨[],.slnil,by simp⟩
  | cons y rest ih =>
    rw [registerAll_cons]
    obtain ⟨new,sublist,same⟩ := ih (b.register y.1 y.2)
    rw [same]
    rcases y with ⟨t | r,span⟩
    · exact ⟨new,sublist,by rw [nonTerminals_register_terminal]⟩
    · simp only [register_nonTerminal,addNonTerminal]
      split
      next => exact ⟨new,sublist.cons (r,span),rfl⟩
      next => exact ⟨(r,span) :: new,sublist.cons_cons (r,span),by simp⟩

theorem mem_terminals_registerAll (proper : ∀ x ∈ Entry.terminals entries, x.1.start < x.1.stop)
    (single : ∀ x ∈ Entry.terminals entries, ∀ y ∈ b.table.terminals.entries ++
      Entry.terminals entries, x.1 = y.1 → x = y) (x : Span × Terminal) :
    x ∈ (b.registerAll entries).table.terminals.entries ↔
      x ∈ b.table.terminals.entries ∨ x ∈ Entry.terminals entries := by
  induction entries generalizing b with
  | nil => simp [Entry.terminals]
  | cons y rest ih =>
    rcases y with ⟨t | r,span⟩
    · have here : Entry.terminals ((.terminal t,span) :: rest) =
          (span,t) :: Entry.terminals rest := rfl
      rw [here] at proper single ⊢
      have nonempty : span.start < span.stop := proper (span,t) (by simp)
      have added (z : Span × Terminal) :
          z ∈ (b.register (.terminal t) span).table.terminals.entries ↔
            z ∈ b.table.terminals.entries ∨ z = (span,t) := by
        simp only [register_terminal b t nonempty,setTerminal,SortedMap.mem_insert_iff]
        constructor
        · exact fun h => h.elim .inr fun old => .inl old.1
        · rintro (old | new)
          · by_cases same : z.1 = span
            · exact .inl (single (span,t) (by simp) z (by simp [old]) same.symm).symm
            · exact .inr ⟨old,same⟩
          · exact .inl new
      rw [registerAll_cons,ih (fun z member => proper z (by simp [member])) ?_,added]
      · simp [or_assoc]
      · intro z member w inEither
        refine single z (by simp [member]) w ?_
        simp only [List.mem_append,List.mem_cons,added] at inEither ⊢
        tauto
    · have same := terminals_register_nonTerminal b r span
      rw [registerAll_cons,ih proper (by rwa [same]),same]
      rfl

theorem reach_registerAll (proper : ∀ x ∈ Entry.terminals entries, x.1.start < x.1.stop) :
    (∀ n, (b.registerAll entries).reach ≤ n ↔
      b.reach ≤ n ∧ ∀ x ∈ Entry.terminals entries, x.1.stop ≤ n) := by
  intro n
  induction entries generalizing b with
  | nil => simp [Entry.terminals]
  | cons y rest ih =>
    rcases y with ⟨t | r,span⟩
    · have here : Entry.terminals ((.terminal t,span) :: rest) =
          (span,t) :: Entry.terminals rest := rfl
      rw [here] at proper ⊢
      have nonempty : span.start < span.stop := proper (span,t) (by simp)
      rw [registerAll_cons,ih fun z member => proper z (by simp [member])]
      simp only [register_terminal b t nonempty,List.forall_mem_cons,Nat.max_le,and_assoc]
    · rw [registerAll_cons,ih proper]
      rfl

end Result

end SpanTable.Builder

end CorpusQuery
