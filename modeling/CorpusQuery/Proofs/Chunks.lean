import CorpusQuery.Markup.Layout
import CorpusQuery.Proofs.Tiling

/-! The chunks of a pass lie end to end, and every terminal that starts in the text gives one. So a
gap between chunks stands for the offset at which the next chunk starts. -/
namespace CorpusQuery

/-- Chunks that lie end to end from an offset on, none of them empty. -/
inductive Contiguous : Nat → List Chunk → Prop where
  | nil : Contiguous offset []
  | cons : chunk.start = offset → chunk.text ≠ [] →
      Contiguous (offset + chunk.text.byteLength) rest → Contiguous offset (chunk :: rest)

namespace Contiguous

variable {offset : Nat} {front back chunks : List Chunk} {chunk : Chunk}

theorem start_eq (h : Contiguous offset (front ++ chunk :: back)) :
    chunk.start = offset + Text.byteLength (front.flatMap Chunk.text) := by
  induction front generalizing offset with
  | nil =>
    cases h with
    | cons start => simpa using start
  | cons first rest ih =>
    cases h with
    | cons _ _ later =>
      rw [ih later,List.flatMap_cons,Text.byteLength_append]
      omega

theorem text_ne_nil (h : Contiguous offset chunks) (member : chunk ∈ chunks) : chunk.text ≠ [] := by
  induction h with
  | nil => simp at member
  | cons _ nonempty _ ih =>
    rcases List.mem_cons.mp member with rfl | later
    · exact nonempty
    · exact ih later

theorem offset_le (h : Contiguous offset chunks) : ∀ c ∈ chunks, offset ≤ c.start := by
  induction h with
  | nil => simp
  | cons start _ _ ih =>
    intro c member
    rcases List.mem_cons.mp member with rfl | later
    · exact start.ge
    · have := ih c later
      omega

theorem sorted (h : Contiguous offset chunks) : chunks.Pairwise fun a b => a.start < b.start := by
  induction h with
  | nil => exact .nil
  | cons start nonempty later ih =>
    refine List.pairwise_cons.mpr ⟨fun c member => ?_,ih⟩
    have := later.offset_le c member
    have := (Text.byteLength_eq_zero_iff _).not.mpr nonempty
    omega

end Contiguous

namespace Layout

variable {chunks front back : List Chunk} {chunk : Chunk}

theorem gapAt_mono (chunks : List Chunk) {m n : Nat} (le : m ≤ n) :
    gapAt chunks m ≤ gapAt chunks n := by
  unfold gapAt
  induction chunks with
  | nil => exact Nat.le_refl _
  | cons chunk rest ih =>
    by_cases before : chunk.start < m
    · have : chunk.start < n := Nat.lt_of_lt_of_le before le
      simpa [before,this] using ih
    · simp [before]

/-- A range in which a chunk starts ends behind the gap where it begins. -/
theorem gapAt_lt {m n : Nat} (sorted : chunks.Pairwise fun a b => a.start < b.start)
    (member : chunk ∈ chunks) (begins : m ≤ chunk.start) (ends : chunk.start < n) :
    gapAt chunks m < gapAt chunks n := by
  unfold gapAt
  induction chunks with
  | nil => simp at member
  | cons first rest ih =>
    obtain ⟨least,sorted⟩ := List.pairwise_cons.mp sorted
    rcases List.mem_cons.mp member with rfl | later
    · have : ¬chunk.start < m := by omega
      simp [this,ends]
    · have := least chunk later
      have inRange : first.start < n := by omega
      by_cases before : first.start < m
      · simpa [before,inRange] using ih sorted later
      · simp [before,inRange]

theorem gapAt_start (sorted : (front ++ chunk :: back).Pairwise fun a b => a.start < b.start) :
    gapAt (front ++ chunk :: back) chunk.start = front.length := by
  have before : ∀ c ∈ front, decide (c.start < chunk.start) = true := fun c member =>
    decide_eq_true ((List.pairwise_append.mp sorted).2.2 c member chunk (by simp))
  simp [gapAt,List.takeWhile_append_of_pos before]

end Layout

namespace SpanTable

/-- The last chunk takes the text to its end, so entries that start there give none. -/
theorem chunksFrom_past {source : Text} {covered : Nat} {entries : List (Span × Terminal)}
    (past : ∀ x ∈ entries, source.byteLength ≤ x.1.start) :
    chunksFrom source covered entries = [] := by
  induction entries with
  | nil => rfl
  | cons x rest ih =>
    rcases x with ⟨span,kind⟩
    have start : source.byteLength ≤ span.start := past (span,kind) (by simp)
    have notTaken : ¬(span.start < min span.stop source.byteLength ∧ covered ≤ span.start) := by omega
    simp only [chunksFrom,notTaken,if_false]
    exact ih fun y member => past y (by simp [member])

theorem chunksFrom_take (span : Span) (kind : Terminal) (entries : List (Span × Terminal))
    {before middle after : Text} {covered : Nat} (nonempty : middle ≠ [])
    (uncovered : covered ≤ span.start) (start : span.start = before.byteLength)
    (stop : min span.stop (before ++ middle ++ after).byteLength = (before ++ middle).byteLength) :
    chunksFrom (before ++ middle ++ after) covered ((span,kind) :: entries) =
      ⟨span.start,(before ++ middle).byteLength,middle,kind⟩ ::
        chunksFrom (before ++ middle ++ after) (before ++ middle).byteLength entries := by
  have pos := (Text.byteLength_eq_zero_iff middle).not.mpr nonempty
  have grows : span.start < (before ++ middle).byteLength := by
    rw [Text.byteLength_append,start]
    omega
  simp only [chunksFrom,stop,grows,uncovered,and_self,if_true]
  rw [start,Text.slice?_middle]

/-- What chunks show of the text after `before`, when terminals lie end to end from there to `stop`:
the text from the first on, up to the end of the last or of the text. -/
structure Shows (tiles : List (Span × Terminal)) (stop : Nat) (before after middle : Text)
    (chunks : List Chunk) : Prop where
  text : chunks.flatMap Chunk.text = middle
  reach : min stop (before ++ after).byteLength = (before ++ middle).byteLength
  contiguous : Contiguous before.byteLength chunks
  starts : ∀ x ∈ tiles, x.1.start < (before ++ after).byteLength →
    ∃ chunk ∈ chunks, chunk.start = x.1.start

section Shows

variable {before piece after middle : Text} {span : Span} {tag : Terminal}
  {tiles : List (Span × Terminal)} {stop : Nat}

/-- A terminal that goes on to the end of the text, or beyond, shows all that is left of it. -/
theorem shows_of_beyond (start : span.start = before.byteLength)
    (beyond : (before ++ after).byteLength ≤ span.stop) (far : span.stop ≤ stop)
    (past : ∀ x ∈ tiles, (before ++ after).byteLength ≤ x.1.start) :
    Shows ((span,tag) :: tiles) stop before after after
      (chunksFrom (before ++ after) span.start ((span,tag) :: tiles)) := by
  have reach := Nat.min_eq_right (beyond.trans far)
  by_cases empty : after = []
  · subst empty
    have behind : ∀ x ∈ (span,tag) :: tiles, (before ++ []).byteLength ≤ x.1.start :=
      List.forall_mem_cons.mpr ⟨by rw [List.append_nil,start],past⟩
    rw [chunksFrom_past behind]
    refine ⟨rfl,reach,.nil,fun x member inText => ?_⟩
    exact absurd (behind x member) (Nat.not_le.mpr inText)
  · have cutOff : min span.stop (before ++ after ++ []).byteLength = (before ++ after).byteLength := by
      rw [List.append_nil]
      exact Nat.min_eq_right beyond
    have taken := chunksFrom_take span tag tiles empty (Nat.le_refl _) start cutOff
    rw [List.append_nil] at taken
    rw [taken,chunksFrom_past past]
    refine ⟨by simp,reach,.cons start empty .nil,fun x member inText => ?_⟩
    rcases List.mem_cons.mp member with rfl | later
    · exact ⟨_,List.mem_cons_self,rfl⟩
    · exact absurd (past x later) (Nat.not_le.mpr inText)

theorem shows_of_within (start : span.start = before.byteLength)
    (ends : span.stop = (before ++ piece).byteLength) (nonempty : piece ≠ [])
    (later : Shows tiles stop (before ++ piece) after middle
      (chunksFrom (before ++ piece ++ after) span.stop tiles)) :
    Shows ((span,tag) :: tiles) stop before (piece ++ after) (piece ++ middle)
      (chunksFrom (before ++ (piece ++ after)) span.start ((span,tag) :: tiles)) := by
  have within : min span.stop (before ++ piece ++ after).byteLength =
      (before ++ piece).byteLength := by
    rw [ends,Text.byteLength_append (before ++ piece)]
    omega
  have taken := chunksFrom_take span tag tiles nonempty (Nat.le_refl _) start within
  have whole : before ++ (piece ++ after) = before ++ piece ++ after := (List.append_assoc ..).symm
  rw [whole,taken,← ends]
  refine ⟨?_,?_,.cons start nonempty ?_,fun x member inText => ?_⟩
  · rw [List.flatMap_cons,later.text]
  · rw [whole,later.reach,List.append_assoc]
  · exact Text.byteLength_append before piece ▸ later.contiguous
  · rw [whole] at inText
    rcases List.mem_cons.mp member with rfl | behind
    · exact ⟨_,List.mem_cons_self,rfl⟩
    · obtain ⟨chunk,isChunk,begins⟩ := later.starts x behind inText
      exact ⟨chunk,List.mem_cons_of_mem _ isChunk,begins⟩

theorem chunksFrom_shows {full extra : Text} {c d : Cursor} (h : Tiles c tiles d)
    (inside : c.In full) (offset : c.offset = before.byteLength) (rest : c.text = after ++ extra) :
    ∃ middle left, after = middle ++ left ∧ Shows tiles d.offset before after middle
      (chunksFrom (before ++ after) c.offset tiles) := by
  induction h generalizing before after with
  | nil =>
    refine ⟨[],after,rfl,rfl,?_,.nil,by simp⟩
    simp [offset]
  | @cons n tiles d c tag nonzero fits more ih =>
    have next := inside.advance n
    have text := c.text_eq n
    have stop := c.offset_advance n
    have nonempty := inside.take_ne_nil nonzero fits
    revert text stop nonempty
    generalize (c.rest.take n).flatMap Token.text = piece
    intro text stop nonempty
    have ends : (c.advance n).offset = (before ++ piece).byteLength := by
      rw [Text.byteLength_append,stop,offset]
    rw [rest] at text
    rcases List.append_eq_append_iff.mp text with ⟨cut,rfl,-⟩ | ⟨left,rfl,nextEq⟩
    · have beyond : (before ++ after).byteLength ≤ (c.advance n).offset := by
        rw [ends,← List.append_assoc,Text.byteLength_append (before ++ after)]
        exact Nat.le_add_right ..
      have past : ∀ x ∈ tiles, (before ++ after).byteLength ≤ x.1.start := fun x member =>
        beyond.trans (more.bounds next x member).1
      exact ⟨after,[],by simp,shows_of_beyond offset beyond more.reaches.offset_le past⟩
    · obtain ⟨middle,left',rfl,later⟩ := ih next ends nextEq
      exact ⟨piece ++ middle,left',by rw [List.append_assoc],
        shows_of_within offset ends nonempty later⟩

end Shows

end SpanTable

/-- The chunks of a pass show what the text begins with, up to where the trail has read to. -/
theorem Reading.shows {t extra : Text} {start : StartRule} (x : Reading (t ++ extra) start) :
    ∃ middle left, t = middle ++ left ∧
      SpanTable.Shows (Entry.terminals x.path) x.ending.reach.offset [] t middle
        (SpanTable.ofEvents t (parse (t ++ extra) start).events).chunks := by
  have whole : Cursor.text ⟨0,tokenize (t ++ extra)⟩ = t ++ extra := Token.flatMap_text_tokenize _
  rw [SpanTable.chunks,x.terminals_eq,x.source_eq]
  apply SpanTable.chunksFrom_shows x.tiles (Cursor.in_tokenize _)
  · rfl
  · exact whole

end CorpusQuery
