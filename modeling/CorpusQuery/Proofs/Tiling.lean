import CorpusQuery.Proofs.Lexing
import CorpusQuery.Proofs.Registration
import CorpusQuery.Parse

/-! The terminals of a trail lie end to end from its start to where it has read, so the chunks of a
table are the text up to there, cut where an appended ending begins. -/
namespace CorpusQuery

namespace Text

theorem slice?_middle (before middle after : Text) :
    (before ++ middle ++ after).slice? before.byteLength (before ++ middle).byteLength =
      some middle := by
  have le : before.byteLength ≤ (before ++ middle).byteLength := by simp
  have left : (before ++ middle).byteLength - before.byteLength = middle.byteLength := by simp
  rw [List.append_assoc]
  simp only [slice?,le,if_true,dropBytes?_append,Option.bind_some,left]
  exact takeBytes?_append middle after

end Text

namespace Cursor

def text (c : Cursor) : Text := c.rest.flatMap Token.text

/-- A cursor in a text that comes from tokens which are not empty. -/
structure In (full : Text) (c : Cursor) : Prop where
  place : ∃ before, full = before ++ c.text ∧ c.offset = Text.byteLength before
  proper : ∀ token ∈ c.rest, token.text ≠ []

theorem span_eq (tokens : List Token) :
    Token.span tokens = Text.byteLength (tokens.flatMap Token.text) := by
  induction tokens with
  | nil => rfl
  | cons token rest ih => simp [ih,Token.byteLength]

theorem text_eq (c : Cursor) (n : Nat) :
    c.text = (c.rest.take n).flatMap Token.text ++ (c.advance n).text := by
  rw [text,text,rest_advance,← List.flatMap_append,List.take_append_drop]

theorem offset_advance (c : Cursor) (n : Nat) :
    (c.advance n).offset = c.offset + Text.byteLength ((c.rest.take n).flatMap Token.text) := by
  rw [← span_eq]
  rfl

theorem In.advance {full : Text} {c : Cursor} (h : c.In full) (n : Nat) : (c.advance n).In full := by
  obtain ⟨before,split,offset⟩ := h.place
  refine ⟨⟨before ++ (c.rest.take n).flatMap Token.text,?_,?_⟩,fun token member => ?_⟩
  · rw [split,text_eq c n,List.append_assoc]
  · rw [offset_advance,offset,Text.byteLength_append]
  · exact h.proper token (List.mem_of_mem_drop member)

theorem In.take_ne_nil {full : Text} {c : Cursor} {n : Nat} (h : c.In full) (nonzero : n ≠ 0)
    (fits : n ≤ c.rest.length) : (c.rest.take n).flatMap Token.text ≠ [] := by
  cases split : c.rest with
  | nil =>
    rw [split] at fits
    simp at fits
    omega
  | cons token rest =>
    obtain ⟨m,rfl⟩ := Nat.exists_eq_succ_of_ne_zero nonzero
    have := h.proper token (by simp [split])
    simp [this]

theorem in_tokenize (t : Text) : Cursor.In t ⟨0,tokenize t⟩ where
  place := ⟨[],by simp [text,Token.flatMap_text_tokenize],rfl⟩
  proper := fun _ => Token.text_ne_nil

theorem spaced_tokenize (t : Text) : Cursor.Spaced ⟨0,tokenize t⟩ := Token.spaced_tokenize t

end Cursor

inductive Tiles : Cursor → List (Span × Terminal) → Cursor → Prop where
  | nil : Tiles c [] c
  | cons : n ≠ 0 → n ≤ c.rest.length → Tiles (c.advance n) tiles d →
      Tiles c ((⟨c.offset,(c.advance n).offset⟩,tag) :: tiles) d

namespace Tiles

variable {c d f : Cursor} {tiles : List (Span × Terminal)}

theorem append {more : List (Span × Terminal)} (first : Tiles c tiles d) (second : Tiles d more f) :
    Tiles c (tiles ++ more) f := by
  induction first with
  | nil => exact second
  | cons nonzero fits _ ih => exact .cons nonzero fits (ih second)

theorem one {n : Nat} (nonzero : n ≠ 0) (fits : n ≤ c.rest.length) (tag : Terminal) :
    Tiles c [(⟨c.offset,(c.advance n).offset⟩,tag)] (c.advance n) :=
  .cons nonzero fits .nil

theorem reaches (h : Tiles c tiles d) : c.Reaches d := by
  induction h with
  | nil => exact .refl _
  | cons _ _ _ ih => exact (Cursor.reaches_advance ..).trans ih

theorem bounds {full : Text} (h : Tiles c tiles d) (inside : c.In full) : ∀ x ∈ tiles,
    c.offset ≤ x.1.start ∧ x.1.start < x.1.stop ∧ x.1.stop ≤ d.offset := by
  induction h with
  | nil => simp
  | @cons n tiles d c tag nonzero fits rest ih =>
    have later := ih (inside.advance n)
    have grows : c.offset < (c.advance n).offset := by
      have pos := (Text.byteLength_eq_zero_iff _).not.mpr (inside.take_ne_nil nonzero fits)
      rw [Cursor.offset_advance]
      omega
    intro x member
    rcases List.mem_cons.mp member with rfl | inRest
    · exact ⟨Nat.le_refl _,grows,rest.reaches.offset_le⟩
    · have := later x inRest
      exact ⟨by omega,this.2⟩

theorem sorted {full : Text} (h : Tiles c tiles d) (inside : c.In full) :
    tiles.Pairwise fun a b => a.1.stop ≤ b.1.start := by
  induction h with
  | nil => exact .nil
  | @cons n tiles d c tag nonzero fits rest ih =>
    refine List.pairwise_cons.mpr ⟨fun x member => ?_,ih (inside.advance n)⟩
    exact (rest.bounds (inside.advance n) x member).1

theorem stop_le_iff {full : Text} (h : Tiles c tiles d) (inside : c.In full) (n : Nat)
    (from_ : c.offset ≤ n) : (∀ x ∈ tiles, x.1.stop ≤ n) ↔ d.offset ≤ n := by
  constructor
  · intro all
    induction h with
    | nil => exact from_
    | cons _ _ _ ih =>
      rw [List.forall_mem_cons] at all
      exact ih (inside.advance _) all.1 all.2
  · exact fun far x member => (h.bounds inside x member).2.2.trans far

end Tiles

namespace Grammar

/-- The terminals of a trail lie end to end. -/
theorem Trail.tiles {e : Expr} {c : Cursor} {ending : Ending} {T : List Entry}
    (h : Trail e c ending T) : Tiles c (Entry.terminals T) ending.reach := by
  have branch (T : List Entry) (c d : Cursor) (r : NonTerminal) :
      Entry.terminals (T ++ [c.branch r d]) = Entry.terminals T := by simp [Entry.terminals]
  have append (T U : List Entry) :
      Entry.terminals (T ++ U) = Entry.terminals T ++ Entry.terminals U := by simp [Entry.terminals]
  induction h with
  | done | reject | noToken | noTrivia | noEscape | noRun | optionalNone | manyNone => exact .nil
  | token at_ | trivia at_ => exact .one Nat.one_ne_zero (Cursor.one_le_of_isAt at_) _
  | escape at_ => exact .one (by split <;> simp) (escape_fits at_) _
  | run nonzero => exact .one nonzero (runLength_le ..) _
  | call _ ih | callRests _ _ ih => rwa [branch]
  | callBroken _ ih | andThenBroken _ ih | orElse _ _ ih | orElseSecond _ _ _ ih
  | optional _ _ ih | optionalRests _ _ ih | attempt _ ih | manyRests _ _ ih | manyStops _ ih
  | nextYes _ _ ih | nextNo _ _ ih => exact ih
  | andThenRests _ _ _ _ ih | andThenGivesUp _ _ _ ih => exact ih
  | andThen _ _ ihFirst ihSecond | manyMore _ _ ihFirst ihSecond =>
    rw [append]
    exact ihFirst.append ihSecond

end Grammar

open Grammar

def StartRule.expr (start : StartRule) : Expr :=
  .andThen .trivia (.andThen (.call start.nonTerminal) .trivia)

theorem StartRule.predictive_expr (start : StartRule) : start.expr.predictive = true := by
  cases start <;> decide

theorem StartRule.runs_expr (start : StartRule) (c : Cursor) :
    Runs start.expr c (start.recognizer c) := runs_recognizer start.expr c

/-- How a text is read from a start rule: the trail, and what the trace of the parse registers. -/
structure Reading (full : Text) (start : StartRule) where
  ending : Ending
  path : List Entry
  found : List Entry
  trail : Trail start.expr ⟨0,tokenize full⟩ ending path
  balanced : Balanced (parse full start).events found
  agrees : Agrees found path []
  stops : ending.stop? = if (start.recognizer ⟨0,tokenize full⟩).matched then
    some (start.recognizer ⟨0,tokenize full⟩).cursor else none
  waits : ∀ d f, ending = .broken (some d) f → d.rest ≠ []

theorem reading (full : Text) (start : StartRule) : Nonempty (Reading full start) := by
  obtain ⟨x⟩ := (start.runs_expr ⟨0,tokenize full⟩).explained start.predictive_expr
    (Cursor.spaced_tokenize full)
  have notPeeks : start.expr.peeks = false := by cases start <;> rfl
  have given : x.given = [] := x.gives.resolve_right fun h => by simp [notPeeks] at h
  refine ⟨⟨x.ending,x.path,x.found,x.trail,x.balanced,given ▸ x.agrees,x.stops,?_⟩⟩
  intro d f broken empty
  obtain ⟨⟨k,ahead,-⟩,-⟩ := x.rests d f broken
  simp [Cursor.ahead?,Cursor.isAt,Cursor.kind?,Cursor.kindAt?,empty] at ahead

namespace Reading

variable {full : Text} {start : StartRule}

theorem run_events (x : Reading full start) (source : Text) :
    (SpanTable.Builder.start source).run (parse full start).events =
      ((SpanTable.Builder.start source).registerAll x.found,[]) :=
  SpanTable.Builder.run_balanced x.balanced _

theorem matched_eq (x : Reading full start) : Event.matched [] (parse full start).events = x.found := by
  simpa [Event.matched] using x.balanced.matched [] []

theorem mem_terminals (x : Reading full start) (y : Span × Terminal) :
    y ∈ Entry.terminals x.found ↔ y ∈ Entry.terminals x.path := by
  rcases y with ⟨span,t⟩
  rw [Entry.mem_terminals,Entry.mem_terminals,x.agrees.mem_iff]

theorem tiles (x : Reading full start) :
    Tiles ⟨0,tokenize full⟩ (Entry.terminals x.path) x.ending.reach := x.trail.tiles

theorem proper (x : Reading full start) :
    ∀ y ∈ Entry.terminals x.found, y.1.start < y.1.stop := by
  intro y member
  exact (x.tiles.bounds (Cursor.in_tokenize full) y ((x.mem_terminals y).mp member)).2.1

theorem source_eq (x : Reading full start) (source : Text) :
    (SpanTable.ofEvents source (parse full start).events).source = source := by
  rw [SpanTable.ofEvents,x.run_events,SpanTable.Builder.source_registerAll]
  rfl

theorem terminals_eq (x : Reading full start) (source : Text) :
    (SpanTable.ofEvents source (parse full start).events).terminals.entries =
      Entry.terminals x.path := by
  have inside := Cursor.in_tokenize full
  have bounds := x.tiles.bounds inside
  have apart := x.tiles.sorted inside
  have sorted : (Entry.terminals x.path).Pairwise fun a b => a.1 < b.1 := by
    refine List.Pairwise.imp_of_mem (fun {a b} inA _ before => .inl ?_) apart
    have := (bounds a inA).2.1
    omega
  refine SortedMap.entries_eq sorted fun y => ?_
  unfold SpanTable.ofEvents
  rw [x.run_events,SpanTable.Builder.mem_terminals_registerAll x.proper]
  · simpa [SpanTable.Builder.start,SortedMap.empty] using x.mem_terminals y
  · intro y inFound z member
    refine SortedMap.eq_of_key_eq sorted y ((x.mem_terminals y).mp inFound) z ?_
    simpa [SpanTable.Builder.start,SortedMap.empty,x.mem_terminals] using member

theorem reach_eq (x : Reading full start) (source : Text) :
    ((SpanTable.Builder.start source).run (parse full start).events).1.reach =
      x.ending.reach.offset := by
  have le_iff (n : Nat) : ((SpanTable.Builder.start source).run
      (parse full start).events).1.reach ≤ n ↔ x.ending.reach.offset ≤ n := by
    rw [x.run_events,SpanTable.Builder.reach_registerAll x.proper,
      ← x.tiles.stop_le_iff (Cursor.in_tokenize full) n (Nat.zero_le n)]
    simp [SpanTable.Builder.start,x.mem_terminals]
  exact Nat.le_antisymm ((le_iff _).mpr (Nat.le_refl _)) ((le_iff _).mp (Nat.le_refl _))

end Reading

end CorpusQuery
