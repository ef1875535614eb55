import CorpusQuery.Proofs.Chunks

/-! The terminals that the trace of a parse matches, also those inside failed symbols, never contradict
each other: two of them are the same or lie apart, and all of them together are the text that was read.
So the table never changes the kind of a range, and every terminal in the text gives a chunk. -/
namespace CorpusQuery

namespace Tiles

variable {full : Text} {c d : Cursor} {tiles : List (Span × Terminal)}

theorem covers (h : Tiles c tiles d) {n : Nat} (begun : c.offset ≤ n) (within : n < d.offset) :
    ∃ x ∈ tiles, x.1.start ≤ n ∧ n < x.1.stop := by
  induction h with
  | nil => omega
  | @cons m tiles d c tag _ _ _ ih =>
    by_cases past : (c.advance m).offset ≤ n
    · obtain ⟨x,member,holds⟩ := ih past within
      exact ⟨x,List.mem_cons_of_mem _ member,holds⟩
    · exact ⟨_,List.mem_cons_self,begun,Nat.lt_of_not_le past⟩

theorem places (h : Tiles c tiles d) (inside : c.In full) : ∀ x ∈ tiles, ∃ before middle after,
    full = before ++ middle ++ after ∧ middle ≠ [] ∧ x.1.start = Text.byteLength before ∧
      x.1.stop = Text.byteLength (before ++ middle) := by
  induction h with
  | nil => simp
  | @cons n tiles d c tag nonzero fits _ ih =>
    intro x member
    rcases List.mem_cons.mp member with rfl | later
    · obtain ⟨before,split,offset⟩ := inside.place
      refine ⟨before,_,(c.advance n).text,?_,inside.take_ne_nil nonzero fits,offset,?_⟩
      · rw [split,c.text_eq n,List.append_assoc]
      · rw [Text.byteLength_append,← offset]
        exact c.offset_advance n
    · exact ih (inside.advance n) x later

theorem apart (h : Tiles c tiles d) (inside : c.In full) : ∀ x ∈ tiles, ∀ y ∈ tiles,
    x = y ∨ x.1.stop ≤ y.1.start ∨ y.1.stop ≤ x.1.start := by
  have apart : tiles.Pairwise fun a b => a.1.stop ≤ b.1.start ∨ b.1.stop ≤ a.1.start :=
    (h.sorted inside).imp .inl
  have : Std.Symm fun a b : Span × Terminal => a.1.stop ≤ b.1.start ∨ b.1.stop ≤ a.1.start :=
    ⟨fun _ _ => Or.symm⟩
  intro x inX y inY
  by_cases same : x = y
  · exact .inl same
  · exact .inr (apart.forall inX inY same)

end Tiles

theorem Text.exists_slice?_cut {text extra before middle after : Text}
    (split : text ++ extra = before ++ middle ++ after)
    (begins : before.byteLength < text.byteLength) : ∃ shown,
      text.slice? before.byteLength (min (before ++ middle).byteLength text.byteLength) =
        some shown := by
  rcases List.append_eq_append_iff.mp split with ⟨beyond,past,-⟩ | ⟨left,within,-⟩
  · have ends : min (before ++ middle).byteLength text.byteLength = text.byteLength := by
      rw [past,Text.byteLength_append]
      omega
    rw [ends]
    rcases List.append_eq_append_iff.mp past with ⟨shown,same,-⟩ | ⟨more,same,-⟩
    · have slice := Text.slice?_middle before shown []
      rw [List.append_nil,← same] at slice
      exact ⟨shown,slice⟩
    · rw [same,Text.byteLength_append] at begins
      omega
  · have ends : min (before ++ middle).byteLength text.byteLength = (before ++ middle).byteLength := by
      rw [within,Text.byteLength_append (before ++ middle)]
      omega
    rw [ends,within]
    exact ⟨middle,Text.slice?_middle before middle left⟩

def Chunk.entry (chunk : Chunk) : Span × Terminal := (⟨chunk.start,chunk.stop⟩,chunk.kind)

namespace SpanTable

def cutAt (size : Nat) (x : Span × Terminal) : Span × Terminal := (⟨x.1.start,min x.1.stop size⟩,x.2)

/-- Of entries that lie apart and between characters, those that start in the text give one chunk
each. -/
theorem chunksFrom_entries {source : Text} {covered : Nat} {entries : List (Span × Terminal)}
    (sorted : entries.Pairwise fun a b => a.1.stop ≤ b.1.start)
    (uncovered : ∀ x ∈ entries, covered ≤ x.1.start)
    (proper : ∀ x ∈ entries, x.1.start < x.1.stop)
    (legible : ∀ x ∈ entries, x.1.start < source.byteLength →
      ∃ text, source.slice? x.1.start (min x.1.stop source.byteLength) = some text) :
    (chunksFrom source covered entries).map Chunk.entry =
      (entries.filter fun x => x.1.start < source.byteLength).map (cutAt source.byteLength) := by
  induction entries generalizing covered with
  | nil => rfl
  | cons x rest ih =>
    obtain ⟨span,kind⟩ := x
    obtain ⟨later,sorted⟩ := List.pairwise_cons.mp sorted
    simp only [List.forall_mem_cons] at uncovered proper legible
    by_cases inText : span.start < source.byteLength
    · obtain ⟨text,slice⟩ := legible.1 inText
      have taken : span.start < min span.stop source.byteLength ∧ covered ≤ span.start :=
        ⟨Nat.lt_min.mpr ⟨proper.1,inText⟩,uncovered.1⟩
      have behind : ∀ y ∈ rest, min span.stop source.byteLength ≤ y.1.start := by
        intro y member
        exact (Nat.min_le_left ..).trans (later y member)
      simp only [chunksFrom,taken,and_self,if_true,slice,List.map_cons,inText,decide_true,
        List.filter_cons_of_pos]
      rw [ih sorted behind proper.2 legible.2]
      rfl
    · have skipped : ¬(span.start < min span.stop source.byteLength ∧ covered ≤ span.start) := by
        omega
      simp only [chunksFrom,skipped,if_false,inText,decide_false,Bool.false_eq_true,
        not_false_eq_true,List.filter_cons_of_neg]
      exact ih sorted uncovered.2 proper.2 legible.2

end SpanTable

namespace SpanTable.Builder

/-- Events register just what they match, also when they do not nest. -/
theorem run_matched (b : Builder) (events : List Event) :
    { (b.run events).1 with pending := [] } =
      { b.registerAll (Event.matched b.pending events) with pending := [] } := by
  have next (b : Builder) (event : Event) (rest : List Event) :
      (b.run (event :: rest)).1 = ((b.step event).1.run rest).1 := by
    rw [← List.singleton_append,run_append]
    rfl
  induction events generalizing b with
  | nil => rfl
  | cons event rest ih =>
    obtain ⟨table,pending,reach⟩ := b
    rw [next,ih]
    cases event with
    | enter symbol offset =>
      rw [step,registerAll_pending]
      rfl
    | leave stop =>
      cases pending with
      | nil => rfl
      | cons top outer =>
        obtain ⟨symbol,offset⟩ := top
        let b : Builder := ⟨table,(symbol,offset) :: outer,reach⟩
        have popped : { b with pending := outer }.register symbol ⟨offset,stop⟩ =
            { b.register symbol ⟨offset,stop⟩ with pending := outer } :=
          registerAll_pending b [(symbol,⟨offset,stop⟩)] outer
        change { ({ b with pending := outer }.register symbol ⟨offset,stop⟩).registerAll
          (Event.matched ({ b with pending := outer }.register symbol ⟨offset,stop⟩).pending rest)
          with pending := [] } = _
        rw [pending_register,popped,registerAll_pending]
        rfl
    | fail failed =>
      cases pending with
      | nil => rfl
      | cons top outer =>
        rw [step,registerAll_pending]
        rfl

end SpanTable.Builder

/-- A table has just the terminals that events match, when two of one range are the same. -/
theorem SpanTable.mem_terminals_ofEvents {text : Text} {events : List Event}
    (proper : ∀ x ∈ Entry.terminals (Event.matched [] events), x.1.start < x.1.stop)
    (single : ∀ x ∈ Entry.terminals (Event.matched [] events),
      ∀ y ∈ Entry.terminals (Event.matched [] events), x.1 = y.1 → x = y) (x : Span × Terminal) :
    x ∈ (ofEvents text events).terminals.entries ↔
      x ∈ Entry.terminals (Event.matched [] events) := by
  have registered : ((Builder.start text).run events).1.table.terminals.entries =
      ((Builder.start text).registerAll (Event.matched [] events)).table.terminals.entries :=
    congrArg (·.table.terminals.entries) ((Builder.start text).run_matched events)
  rw [ofEvents,registered,Builder.mem_terminals_registerAll proper]
  · exact or_iff_right List.not_mem_nil
  · exact single

open SpanTable

/-- The terminals of a trace agree with each other, over a text that the parsed one begins with. -/
structure Event.Consistent (text : Text) (events : List Event) : Prop where
  proper : ∀ x ∈ Entry.terminals (matched [] events), x.1.start < x.1.stop
  /-- Two terminals are the same, range and kind, or lie apart. -/
  apart : ∀ x ∈ Entry.terminals (matched [] events), ∀ y ∈ Entry.terminals (matched [] events),
    x = y ∨ x.1.stop ≤ y.1.start ∨ y.1.stop ≤ x.1.start
  /-- Together they are all from the start of the text to the end of the rightmost one. -/
  covers : ∀ n, n < ((Builder.start text).run events).1.reach ↔
    ∃ x ∈ Entry.terminals (matched [] events), x.1.start ≤ n ∧ n < x.1.stop
  holds : ∀ x, x ∈ (ofEvents text events).terminals.entries ↔
    x ∈ Entry.terminals (matched [] events)
  /-- What the table holds at any time it holds with the same kind at the end. -/
  kept : ∀ before after, events = before ++ after →
    ∀ x ∈ (ofEvents text before).terminals.entries, x ∈ (ofEvents text events).terminals.entries
  /-- Every terminal that starts in the text gives a chunk, cut at the end of the text. -/
  chunks : (ofEvents text events).chunks.map Chunk.entry =
    ((ofEvents text events).terminals.entries.filter fun x => x.1.start < text.byteLength).map
      (cutAt text.byteLength)

/-- Every terminal of a trail that starts in the text gives a chunk, cut at the end of the text. -/
theorem Reading.map_entry_chunks {text extra : Text} {start : StartRule}
    (x : Reading (text ++ extra) start) :
    (ofEvents text (parse (text ++ extra) start).events).chunks.map Chunk.entry =
      ((Entry.terminals x.path).filter fun y => y.1.start < text.byteLength).map
        (cutAt text.byteLength) := by
  have inside := Cursor.in_tokenize (text ++ extra)
  rw [SpanTable.chunks,x.terminals_eq,x.source_eq]
  apply chunksFrom_entries (x.tiles.sorted inside)
  · exact fun _ _ => Nat.zero_le _
  · exact fun y member => (x.tiles.bounds inside y member).2.1
  · intro y member inText
    obtain ⟨before,middle,after,split,-,start,stop⟩ := x.tiles.places inside y member
    rw [start] at inText ⊢
    rw [stop]
    exact Text.exists_slice?_cut split inText

/-- The terminals that a parse matches never contradict each other, those inside failed symbols and
those read again included, and they are just what was read. -/
theorem parse_consistent (text extra : Text) (start : StartRule) :
    Event.Consistent text (parse (text ++ extra) start).events := by
  obtain ⟨x⟩ := reading (text ++ extra) start
  have inside := Cursor.in_tokenize (text ++ extra)
  have entries := x.terminals_eq text
  have onPath (y : Span × Terminal) : y ∈ Entry.terminals
      (Event.matched [] (parse (text ++ extra) start).events) ↔ y ∈ Entry.terminals x.path := by
    rw [x.matched_eq]
    exact x.mem_terminals y
  have bounds := x.tiles.bounds inside
  refine ⟨?_,?_,?_,?_,?_,?_⟩
  · intro y member
    exact (bounds y ((onPath y).mp member)).2.1
  · intro y inY z inZ
    exact x.tiles.apart inside y ((onPath y).mp inY) z ((onPath z).mp inZ)
  · intro n
    rw [x.reach_eq]
    constructor
    · intro within
      obtain ⟨y,member,holds⟩ := x.tiles.covers (Nat.zero_le n) within
      exact ⟨y,(onPath y).mpr member,holds⟩
    · rintro ⟨y,member,-,within⟩
      exact within.trans_le (bounds y ((onPath y).mp member)).2.2
  · intro y
    rw [entries,onPath]
  · intro before after split
    have early (y : Span × Terminal) (member : y ∈ Entry.terminals (Event.matched [] before)) :
        y ∈ Entry.terminals x.path := by
      obtain ⟨still,whole⟩ := Event.matched_append [] before after
      rw [← onPath,split,whole,Entry.mem_terminals]
      exact List.mem_append_left _ (Entry.mem_terminals.mp member)
    intro y member
    rw [entries]
    refine early y ((mem_terminals_ofEvents ?_ ?_ y).mp member)
    · exact fun z inZ => (bounds z (early z inZ)).2.1
    · intro y inY z inZ same
      have := bounds y (early y inY)
      have := bounds z (early z inZ)
      rcases x.tiles.apart inside y (early y inY) z (early z inZ) with same | before | after
      · exact same
      all_goals
        rw [same] at *
        omega
  · rw [entries]
    exact x.map_entry_chunks

end CorpusQuery
