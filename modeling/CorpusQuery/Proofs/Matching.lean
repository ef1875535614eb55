import CorpusQuery.Proofs.Overlaps
import CorpusQuery.Proofs.Protocol
import CorpusQuery.Proofs.Registration
import Mathlib.Data.List.Infix

/-! What is built from events that need not nest. A closing closes the latest symbol that was entered and not
closed; with none open it closes nothing, and is reported. Which symbols are open is said by counts of the
events behind them, without the stack that the builder keeps. -/
namespace CorpusQuery

namespace Event

/-- At some time more was closed than entered, so a symbol that is entered before these events is closed. -/
def closesOuter (after : List Event) : Bool :=
  after.inits.any fun front => openings front < closings front

/-- The symbols that are entered and not closed, in order. -/
def unclosed : List Event → List (Symbol × Nat)
  | [] => []
  | .enter symbol offset :: after =>
    if closesOuter after then unclosed after else (symbol,offset) :: unclosed after
  | _ :: after => unclosed after

/-- The symbol that a closing closes: the latest that was entered before it and not closed. -/
def innermost? (before : List Event) : Option (Symbol × Nat) := (unclosed before).getLast?

def leaves? (before : List Event) : Event → Option Entry
  | .leave stop => (innermost? before).map fun (symbol,offset) => (symbol,⟨offset,stop⟩)
  | .enter .. | .fail _ => none

/-- What is wrong with an event: that it closes nothing, or fails another symbol than the one it closes. -/
def fault? (before : List Event) : Event → Option TraceFault
  | .enter .. => none
  | .leave stop => if innermost? before = none then some (.strayLeave stop) else none
  | .fail failed =>
    match innermost? before with
    | none => some (.strayFail failed)
    | some (symbol,_) => if symbol = failed then none else some (.otherOpen failed symbol)

def each {α : Type} (f : List Event → Event → Option α) (events : List Event) : List α :=
  (List.range events.length).filterMap fun i => events[i]?.bind (f (events.take i))

def left (events : List Event) : List Entry := each leaves? events

theorem each_concat {α : Type} (f : List Event → Event → Option α) (events : List Event)
    (last : Event) : each f (events ++ [last]) = each f events ++ (f events last).toList := by
  unfold each
  rw [List.length_append,List.length_singleton,List.range_succ,List.filterMap_append]
  congr 1
  · refine List.filterMap_congr fun i member => ?_
    have inside : i < events.length := List.mem_range.mp member
    rw [List.getElem?_append_left inside,List.take_append_of_le_length inside.le]
  · cases same : f events last <;> simp [same]

/-! ### Open symbols -/

/-- The number of closings that close nothing among these events. -/
def strays : List Event → Nat
  | [] => 0
  | .enter .. :: after => strays after - 1
  | _ :: after => strays after + 1

theorem strays_closing {closing : Event} (closes : closing.opens = false) (after : List Event) :
    strays (closing :: after) = strays after + 1 := by
  cases closing with
  | enter => cases closes
  | leave | fail => rfl

theorem unclosed_closing {closing : Event} (closes : closing.opens = false) (after : List Event) :
    unclosed (closing :: after) = unclosed after := by
  cases closing with
  | enter => cases closes
  | leave | fail => rfl

theorem enter_or_closes (event : Event) :
    (∃ symbol offset, event = .enter symbol offset) ∨ event.opens = false := by
  cases event with
  | enter symbol offset => exact .inl ⟨symbol,offset,rfl⟩
  | leave | fail => exact .inr rfl

/-- So many closings more than openings, at some time. -/
theorem lt_strays_iff (k : Nat) (events : List Event) :
    k < strays events ↔ ∃ front, front <+: events ∧ openings front + k < closings front := by
  induction events generalizing k with
  | nil =>
    simp [strays,openings,closings]
  | cons event after ih =>
    rcases enter_or_closes event with ⟨symbol,offset,rfl⟩ | closes
    · have behind : k < strays after - 1 ↔ k + 1 < strays after := by omega
      rw [strays,behind,ih]
      constructor
      · rintro ⟨front,isPrefix,more⟩
        refine ⟨.enter symbol offset :: front,List.cons_prefix_cons.mpr ⟨rfl,isPrefix⟩,?_⟩
        rw [openings_enter,closings_enter]
        omega
      · rintro ⟨front,isPrefix,more⟩
        rcases List.prefix_cons_iff.mp isPrefix with rfl | ⟨front,rfl,isPrefix⟩
        · simp [openings,closings] at more
        · rw [openings_enter,closings_enter] at more
          exact ⟨front,(List.cons_prefix_cons.mp isPrefix).2,by omega⟩
    · rw [strays_closing closes]
      constructor
      · intro less
        cases k with
        | zero =>
          refine ⟨[event],List.cons_prefix_cons.mpr ⟨rfl,List.nil_prefix⟩,?_⟩
          rw [openings_closing _ closes,closings_closing _ closes]
          simp [openings,closings]
        | succ k =>
          obtain ⟨front,isPrefix,more⟩ := (ih k).mp (by omega)
          refine ⟨event :: front,List.cons_prefix_cons.mpr ⟨rfl,isPrefix⟩,?_⟩
          rw [openings_closing _ closes,closings_closing _ closes]
          omega
      · rintro ⟨front,isPrefix,more⟩
        rcases List.prefix_cons_iff.mp isPrefix with rfl | ⟨front,rfl,isPrefix⟩
        · simp [openings,closings] at more
        · rw [openings_closing _ closes,closings_closing _ closes] at more
          cases k with
          | zero => omega
          | succ k =>
            have := (ih k).mpr ⟨front,(List.cons_prefix_cons.mp isPrefix).2,by omega⟩
            omega

theorem closesOuter_iff (after : List Event) : closesOuter after = true ↔ 0 < strays after := by
  rw [lt_strays_iff]
  simp [closesOuter,List.mem_inits]

theorem length_unclosed (events : List Event) :
    (unclosed events).length + closings events = openings events + strays events := by
  induction events with
  | nil => rfl
  | cons event after ih =>
    rcases enter_or_closes event with ⟨symbol,offset,rfl⟩ | closes
    · rw [openings_enter,closings_enter,strays,unclosed]
      split
      next closed =>
        have := (closesOuter_iff after).mp closed
        omega
      next open_ =>
        have := (closesOuter_iff after).not.mp open_
        rw [List.length_cons]
        omega
    · rw [openings_closing _ closes,closings_closing _ closes,strays_closing closes,
        unclosed_closing closes]
      omega

theorem unclosed_concat_enter (events : List Event) (symbol : Symbol) (offset : Nat) :
    unclosed (events ++ [.enter symbol offset]) = unclosed events ++ [(symbol,offset)] ∧
      strays (events ++ [.enter symbol offset]) = strays events := by
  induction events with
  | nil =>
    have first : closesOuter [] = false := rfl
    exact ⟨by simp [unclosed,first],rfl⟩
  | cons event after ih =>
    rcases enter_or_closes event with ⟨_,_,rfl⟩ | closes
    · have same : closesOuter (after ++ [.enter symbol offset]) = closesOuter after := by
        rw [Bool.eq_iff_iff,closesOuter_iff,closesOuter_iff,ih.2]
      simp only [List.cons_append,unclosed,strays,same,ih]
      exact ⟨by split <;> rfl,trivial⟩
    · rw [List.cons_append,unclosed_closing closes,strays_closing closes,unclosed_closing closes,
        strays_closing closes]
      exact ⟨ih.1,congrArg (· + 1) ih.2⟩

theorem unclosed_concat_closing {closing : Event} (closes : closing.opens = false)
    (events : List Event) : unclosed (events ++ [closing]) = (unclosed events).dropLast ∧
      strays (events ++ [closing]) = strays events + if unclosed events = [] then 1 else 0 := by
  induction events with
  | nil =>
    rw [List.nil_append,unclosed_closing closes,strays_closing closes]
    exact ⟨rfl,rfl⟩
  | cons event after ih =>
    obtain ⟨open_,stray⟩ := ih
    rcases enter_or_closes event with ⟨symbol,offset,rfl⟩ | closes'
    · simp only [List.cons_append,unclosed,strays,closesOuter_iff,open_,stray]
      by_cases closed : 0 < strays after
      · rw [if_pos closed,if_pos (by omega)]
        exact ⟨rfl,by omega⟩
      · rw [if_neg closed]
        cases empty : unclosed after with
        | nil =>
          refine ⟨?_,?_⟩
          · rw [if_pos (by simp)]
            rfl
          · simp
            omega
        | cons first rest =>
          rw [if_neg (by simpa using closed)]
          exact ⟨rfl,by simp⟩
    · rw [List.cons_append,unclosed_closing closes',strays_closing closes',unclosed_closing closes',
        strays_closing closes']
      exact ⟨open_,by omega⟩

/-- Events are level when they close all that they enter, and nothing else. -/
theorem level_iff (events : List Event) :
    Level events ↔ strays events = 0 ∧ unclosed events = [] := by
  have total := length_unclosed events
  have prefixes := lt_strays_iff 0 events
  rw [← List.length_eq_zero_iff]
  constructor
  · intro isLevel
    have noStray : ¬0 < strays events := by
      rw [prefixes]
      rintro ⟨front,isPrefix,more⟩
      have := isLevel.prefixes front isPrefix
      omega
    have := isLevel.total
    omega
  · rintro ⟨zero,open_⟩
    refine ⟨by omega,fun front isPrefix => ?_⟩
    by_contra more
    have := prefixes.mpr ⟨front,isPrefix,by omega⟩
    omega

/-- The symbol is entered at the offset, and all that is entered behind it is closed. -/
def OpenLast (events : List Event) (symbol : Symbol) (offset : Nat) : Prop :=
  ∃ outer within, events = outer ++ .enter symbol offset :: within ∧ Level within

theorem openLast_closing {closing : Event} (closes : closing.opens = false) {after : List Event}
    {symbol : Symbol} {offset : Nat} :
    OpenLast (closing :: after) symbol offset ↔ OpenLast after symbol offset := by
  constructor
  · rintro ⟨outer,within,split,isLevel⟩
    rcases List.cons_eq_append_iff.mp split with ⟨-,same⟩ | ⟨outer,-,rfl⟩
    · obtain ⟨rfl,-⟩ := List.cons.inj same
      cases closes
    · exact ⟨outer,within,rfl,isLevel⟩
  · rintro ⟨outer,within,rfl,isLevel⟩
    exact ⟨closing :: outer,within,rfl,isLevel⟩

theorem openLast_enter {entered symbol : Symbol} {start offset : Nat} {after : List Event} :
    OpenLast (.enter entered start :: after) symbol offset ↔
      (entered = symbol ∧ start = offset ∧ Level after) ∨ OpenLast after symbol offset := by
  constructor
  · rintro ⟨outer,within,split,isLevel⟩
    rcases List.cons_eq_append_iff.mp split with ⟨-,same⟩ | ⟨outer,-,rfl⟩
    · obtain ⟨head,rfl⟩ := List.cons.inj same
      obtain ⟨rfl,rfl⟩ := Event.enter.inj head
      exact .inl ⟨rfl,rfl,isLevel⟩
    · exact .inr ⟨outer,within,rfl,isLevel⟩
  · rintro (⟨rfl,rfl,isLevel⟩ | ⟨outer,within,rfl,isLevel⟩)
    · exact ⟨[],after,rfl,isLevel⟩
    · exact ⟨.enter entered start :: outer,within,rfl,isLevel⟩

/-- The symbol that a closing closes is the one behind which as much is closed as entered. -/
theorem innermost?_eq_some_iff {before : List Event} {symbol : Symbol} {offset : Nat} :
    innermost? before = some (symbol,offset) ↔
      ∃ outer within, before = outer ++ .enter symbol offset :: within ∧ Level within := by
  change (unclosed before).getLast? = some (symbol,offset) ↔ OpenLast before symbol offset
  induction before with
  | nil => simp [unclosed,OpenLast]
  | cons event after ih =>
    rcases enter_or_closes event with ⟨entered,start,rfl⟩ | closes
    · rw [openLast_enter,← ih,level_iff,unclosed]
      by_cases closed : closesOuter after = true
      · have := (closesOuter_iff after).mp closed
        rw [if_pos closed,or_iff_right (by omega)]
      · have zero : strays after = 0 := by
          have := (closesOuter_iff after).not.mp closed
          omega
        rw [if_neg closed]
        cases open_ : unclosed after with
        | nil => simp [zero]
        | cons first rest => simp
    · rw [openLast_closing closes,unclosed_closing closes,ih]

end Event

namespace SpanTable.Builder

open Event

/-! ### Registering -/

theorem reach_le_iff (source : Text) (entries : List Entry) (n : Nat) :
    ((start source).registerAll entries).reach ≤ n ↔
      ∀ x ∈ ((start source).registerAll entries).table.terminals.entries, x.1.stop ≤ n := by
  induction entries using List.reverseRecOn with
  | nil => simp [start,SortedMap.empty]
  | append_singleton entries x ih =>
    rw [registerAll_append,registerAll_cons,registerAll_nil]
    obtain ⟨symbol,span⟩ := x
    cases symbol with
    | terminal t =>
      by_cases proper : span.start < span.stop
      · simp only [register_terminal _ t proper,setTerminal,Nat.max_le,ih,SortedMap.mem_insert_iff]
        constructor
        · rintro ⟨old,new⟩ x (rfl | ⟨member,-⟩)
          · exact new
          · exact old x member
        · intro all
          refine ⟨fun x member => ?_,all _ (.inl rfl)⟩
          by_cases same : x.1 = span
          · rw [same]
            exact all _ (.inl rfl)
          · exact all x (.inr ⟨member,same⟩)
      · rw [register,if_neg proper]
        exact ih
    | nonTerminal r =>
      rw [register_nonTerminal]
      simp only [addNonTerminal]
      split
      · exact ih
      · exact ih

/-- The terminals of ranges that are not empty, the last of each range. -/
theorem terminals_registerAll_start (source : Text) (entries : List Entry) :
    ((start source).registerAll entries).table.terminals =
      .ofList ((Entry.terminals entries).filter fun x => x.1.start < x.1.stop) := by
  induction entries using List.reverseRecOn with
  | nil => rfl
  | append_singleton entries x ih =>
    rw [registerAll_append,registerAll_cons,registerAll_nil,Entry.terminals,List.filterMap_append,
      List.filter_append]
    obtain ⟨symbol,span⟩ := x
    cases symbol with
    | terminal t =>
      have here : List.filterMap Entry.terminal? [(.terminal t,span)] = [(span,t)] := rfl
      rw [here]
      by_cases proper : span.start < span.stop
      · rw [register_terminal _ t proper,List.filter_singleton]
        simp only [proper,decide_true,cond_true,SortedMap.ofList_concat]
        rw [setTerminal,ih]
        rfl
      · rw [register,if_neg proper,List.filter_singleton]
        simp only [proper,decide_false,cond_false,List.append_nil]
        exact ih
    | nonTerminal r =>
      have same : (((start source).registerAll entries).register (.nonTerminal r) span).table.terminals
          = ((start source).registerAll entries).table.terminals := by
        simp only [register_nonTerminal,addNonTerminal]
        split <;> rfl
      have empty : List.filterMap Entry.terminal? [(.nonTerminal r,span)] = [] := rfl
      rw [same,empty,List.filter_nil,List.append_nil]
      exact ih

/-- Rules are kept in the order in which they are first registered, each range of each once. -/
theorem nonTerminals_registerAll_start (source : Text) (entries : List Entry) :
    ((start source).registerAll entries).table.nonTerminals =
      (Entry.nonTerminals entries).eraseDups := by
  induction entries using List.reverseRecOn with
  | nil => rfl
  | append_singleton entries x ih =>
    rw [registerAll_append,registerAll_cons,registerAll_nil]
    have split : Entry.nonTerminals (entries ++ [x]) =
        Entry.nonTerminals entries ++ (Entry.nonTerminal? x).toList := by
      rw [Entry.nonTerminals,List.filterMap_append]
      cases same : Entry.nonTerminal? x <;> simp [Entry.nonTerminals,same]
    rw [split,List.eraseDups_append,← ih]
    obtain ⟨symbol,span⟩ := x
    cases symbol with
    | terminal t =>
      simp only [register,setTerminal]
      split <;> simp [Entry.nonTerminal?]
    | nonTerminal r =>
      simp only [register_nonTerminal,addNonTerminal,Entry.nonTerminal?]
      split
      next old =>
        have old : (r,span) ∈ Entry.nonTerminals entries := by
          rwa [ih,List.mem_eraseDups] at old
        simp [List.removeAll,old]
      next fresh =>
        have fresh : (r,span) ∉ Entry.nonTerminals entries := by
          rwa [ih,List.mem_eraseDups] at fresh
        simp [List.removeAll,fresh,List.eraseDups_cons]

/-- With the open symbols on the stack, an event registers the symbol that it leaves. -/
theorem step_eq {b : Builder} {before : List Event} (stack : b.pending = (unclosed before).reverse)
    (last : Event) : b.step last =
      ({ b.registerAll (leaves? before last).toList with
        pending := (unclosed (before ++ [last])).reverse },fault? before last) := by
  have top : innermost? before = b.pending.head? := by
    rw [stack,List.head?_reverse]
    rfl
  have popped : (unclosed before).dropLast.reverse = b.pending.tail := by
    rw [stack,List.tail_reverse]
  obtain ⟨table,pending,reach⟩ := b
  cases last with
  | enter symbol offset =>
    rw [(unclosed_concat_enter before symbol offset).1,List.reverse_append,← stack]
    rfl
  | leave stop =>
    rw [(unclosed_concat_closing rfl before).1,popped]
    cases pending with
    | nil => simp [step,leaves?,fault?,top]
    | cons symbol outer =>
      have registered := registerAll_pending ⟨table,symbol :: outer,reach⟩
        [(symbol.1,⟨symbol.2,stop⟩)] outer
      simpa [step,leaves?,fault?,top] using registered
  | fail failed =>
    rw [(unclosed_concat_closing rfl before).1,popped]
    cases pending with
    | nil => simp [step,leaves?,fault?,top]
    | cons symbol outer => simp [step,leaves?,fault?,top]

/-- Events register the symbols that they leave, whether they nest or not. -/
theorem run_start (source : Text) (events : List Event) :
    (start source).run events =
      ({ (start source).registerAll (left events) with pending := (unclosed events).reverse },
        each fault? events) := by
  induction events using List.reverseRecOn with
  | nil => rfl
  | append_singleton events last ih =>
    rw [run_concat,ih,step_eq rfl last,registerAll_pending,left,left,each_concat,each_concat,
      registerAll_append]

theorem reach_registerAll_le (b : Builder) (entries : List Entry) :
    b.reach ≤ (b.registerAll entries).reach := by
  induction entries generalizing b with
  | nil => exact le_rfl
  | cons x rest ih =>
    refine le_trans ?_ (ih _)
    obtain ⟨symbol,span⟩ := x
    cases symbol with
    | terminal t =>
      simp only [register]
      split
      · exact Nat.le_max_left ..
      · exact le_rfl
    | nonTerminal r => exact le_rfl

end SpanTable.Builder

open SpanTable

/-- What is built over a text from events, by the pairs of entering and closing among them. -/
structure Event.Paired (source : Text) (events : List Event) : Prop where
  /-- A closing closes the symbol behind which all that was entered is closed, if there is one. -/
  pairs : ∀ before symbol offset, innermost? before = some (symbol,offset) ↔
    ∃ outer within, before = outer ++ .enter symbol offset :: within ∧ Level within
  /-- A range that is not empty has the terminal that was left last there; others have none. -/
  terminals : ∀ span t, (ofEvents source events).terminals.find? span = some t ↔
    span.start < span.stop ∧ LastFor (Entry.terminals (left events)) span t
  nonTerminals :
    (ofEvents source events).nonTerminals = (Entry.nonTerminals (left events)).eraseDups
  reach : ((Builder.start source).run events).1.reach =
    ((ofEvents source events).terminals.keys.map Span.stop).max?.getD 0
  grows : ∀ before, before <+: events →
    ((Builder.start source).run before).1.reach ≤ ((Builder.start source).run events).1.reach
  depth : ((Builder.start source).run events).1.depth = (unclosed events).length
  /-- Each closing that closes nothing is reported, and each that fails another symbol than it closes. -/
  faults : ((Builder.start source).run events).2 = each fault? events
  /-- Symbols that are open at the end are reported then, with the innermost. -/
  close : ((Builder.start source).run events).1.close =
    (innermost? events).map fun symbol => .leftOpen (unclosed events).length symbol.1

/-- Events of any kind build what their pairs of entering and closing say. -/
theorem events_paired (source : Text) (events : List Event) : Event.Paired source events := by
  have run := Builder.run_start source events
  have table : ofEvents source events =
      ((Builder.start source).registerAll (Event.left events)).table := by rw [ofEvents,run]
  have largest (n : Nat) : ((ofEvents source events).terminals.keys.map Span.stop).max?.getD 0 ≤ n ↔
      ∀ x ∈ (ofEvents source events).terminals.entries, x.1.stop ≤ n := by
    cases most : ((ofEvents source events).terminals.keys.map Span.stop).max? with
    | none =>
      rw [List.max?_eq_none_iff,List.map_eq_nil_iff,SortedMap.keys,List.map_eq_nil_iff] at most
      simp [most]
    | some stop =>
      rw [Option.getD_some,List.max?_le_iff most,SortedMap.keys,List.map_map,List.forall_mem_map]
      rfl
  refine ⟨fun _ _ _ => Event.innermost?_eq_some_iff,?_,?_,?_,?_,?_,?_,?_⟩
  · intro span t
    rw [table,Builder.terminals_registerAll_start,SortedMap.find?_eq_some_iff,SortedMap.mem_ofList_iff,
      LastFor.filter_iff fun span : Span => decide (span.start < span.stop),decide_eq_true_eq]
  · rw [table,Builder.nonTerminals_registerAll_start]
  · refine eq_of_forall_ge_iff fun n => ?_
    rw [run,largest,table]
    exact Builder.reach_le_iff source _ n
  · rintro before ⟨after,rfl⟩
    have later := congrArg Builder.reach
      (((Builder.start source).run before).1.run_matched after)
    rw [Builder.run_append,show _ = _ from later]
    exact Builder.reach_registerAll_le ..
  · rw [run,Builder.depth,List.length_reverse]
  · rw [run]
  · rw [run,Event.innermost?]
    rcases List.eq_nil_or_concat (Event.unclosed events) with empty | ⟨outer,symbol,open_⟩
    · rw [empty]
      rfl
    · rw [open_,List.concat_eq_append,List.getLast?_concat,List.reverse_concat]
      simp [Builder.close,Builder.depth]

end CorpusQuery
