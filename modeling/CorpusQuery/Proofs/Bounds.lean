import CorpusQuery.Proofs.Diagnosis
import CorpusQuery.Proofs.Slots

/-! Where texts are cut. Highlighting cuts a query between two characters only, whatever the trace of its
parse was; and a table whose ranges are not those of a text at all is still rendered from parts of its text,
with a slot for every decoration. -/
namespace CorpusQuery

/-- An offset cuts a text in two: it lies between two characters, or at an end. -/
structure Text.CutAt (t : Text) (offset : Nat) (before after : Text) : Prop where
  take : t.takeBytes? offset = some before
  drop : t.dropBytes? offset = some after

theorem Text.cutAt_append (before after : Text) :
    (before ++ after).CutAt before.byteLength before after where
  take := takeBytes?_append before after
  drop := dropBytes?_append before after

namespace Highlighter

/-- The offsets at which texts are cut for a passage are places in these texts. -/
structure Passage.InBounds (p : Passage) : Prop where
  /-- Behind what the pass used. -/
  consumed : ∃ used, p.text.CutAt p.pass.consumed used (remainder p.text p.pass.consumed)
  /-- Behind what is skipped there. -/
  skipped : ∃ rest, (remainder p.text p.pass.consumed).CutAt (Text.byteLength p.skipped) p.skipped rest
  /-- Behind the first word of the remainder, and behind the white space after that. -/
  word : ∀ word space rest, splitWord (remainder p.text p.pass.consumed) = (word,space,rest) →
    (remainder p.text p.pass.consumed).CutAt (Text.byteLength word) word (space ++ rest) ∧
    Text.CutAt (space ++ rest) (Text.byteLength space) space rest
  /-- Where the title of unrecognized text points to. -/
  reached : ∃ before after, p.text.CutAt
    (min ((p.pass.error.map SyntaxError.offset).getD p.pass.consumed) p.text.byteLength) before after

theorem cutAt_pass (t : Text) (start : StartRule) (o : DecorateOptions) :
    ∃ used, t.CutAt (pass t start o).consumed used (remainder t (pass t start o).consumed) := by
  obtain ⟨-,consumed⟩ := pass_split t start o
  have text := pass_text t start o
  refine ⟨Markup.plainText (pass t start o).rendering.markup,?_⟩
  have cut := Text.cutAt_append (Markup.plainText (pass t start o).rendering.markup)
    (remainder t (pass t start o).consumed)
  rwa [text,← consumed] at cut

theorem inBounds_of_mem (h : Highlighter) (v : Vocabulary) (query : Text) :
    ∀ p ∈ h.allPassages v query, p.InBounds := by
  intro p member
  unfold allPassages at member
  split at member
  next => simp at member
  next =>
    have isPass := (h.passes_of_mem v _ _ _ _ p member).reads
    obtain ⟨used,cut⟩ := cutAt_pass p.text p.start (h.options v p.depth)
    rw [← isPass] at cut
    constructor
    case consumed => exact ⟨used,cut⟩
    case skipped =>
      obtain ⟨rest,isPrefix⟩ := (h.passes_of_mem v _ _ _ _ p member).skips
      exact ⟨rest,isPrefix ▸ Text.cutAt_append p.skipped rest⟩
    case word =>
      intro word space rest split
      have parts := splitWord_append (remainder p.text p.pass.consumed)
      rw [split,List.append_assoc] at parts
      exact ⟨parts ▸ Text.cutAt_append word (space ++ rest),Text.cutAt_append space rest⟩
    case reached =>
      have stops := stop_eq_consumed p.text p.start (h.options v p.depth)
      rw [← isPass] at stops
      exact ⟨used,_,stops ▸ cut⟩

end Highlighter

namespace SpanTable

/-- Rendering a table cuts its text at places of the text, and finds a slot for every decoration. -/
structure InBounds (table : SpanTable) (o : DecorateOptions) : Prop where
  /-- A chunk is not empty and is a part of the text. -/
  chunks : ∀ chunk ∈ table.chunks, chunk.start < chunk.stop ∧ ∃ before,
    Span.Has ⟨chunk.start,chunk.stop⟩ table.source before chunk.text
  /-- So is what is looked up for a name. -/
  names : ∀ span name, table.text? span = some name → ∃ before, span.Has table.source before name
  /-- Characters are counted up to a place of the text, or none are. -/
  counts : ∀ offset, table.source.charsBefore offset = 0 ∨ ∃ before after,
    table.source.CutAt (min offset table.source.byteLength) before after ∧
    table.source.charsBefore offset = before.length
  slots : Layout.bySlots? table.chunks (table.notes o).decorations = some (table.render o).markup

theorem chunksFrom_inBounds (source : Text) (covered : Nat) (entries : List (Span × Terminal)) :
    ∀ chunk ∈ chunksFrom source covered entries, chunk.start < chunk.stop ∧
      source.slice? chunk.start chunk.stop = some chunk.text := by
  fun_induction chunksFrom source covered entries with
  | case1 => simp
  | case2 covered span kind rest stop fits text found ih =>
    intro chunk member
    rcases List.mem_cons.mp member with rfl | later
    · exact ⟨fits.1,found⟩
    · exact ih chunk later
  | case3 | case4 => assumption

theorem charsBefore_cases (t : Text) (offset : Nat) : t.charsBefore offset = 0 ∨
    ∃ before after, t.CutAt (min offset t.byteLength) before after ∧
      t.charsBefore offset = before.length := by
  unfold Text.charsBefore
  cases taken : t.takeBytes? (min offset t.byteLength) with
  | none => exact .inl rfl
  | some before =>
    obtain ⟨⟨after,rfl⟩,size⟩ := Text.takeBytes?_eq_some taken
    exact .inr ⟨before,after,size ▸ Text.cutAt_append before after,rfl⟩

theorem inBounds (table : SpanTable) (o : DecorateOptions) : table.InBounds o where
  chunks chunk member :=
    have ⟨proper,found⟩ := chunksFrom_inBounds _ _ _ chunk member
    ⟨proper,@Text.has_of_slice? _ _ ⟨chunk.start,chunk.stop⟩ found⟩
  names _ _ found := Text.has_of_slice? found
  counts := charsBefore_cases table.source
  slots := Layout.bySlots?_eq ..

end SpanTable

/-- No text is cut inside a character or behind its end, and no slot is missing: neither while a query is
highlighted, nor when a table is rendered whose ranges were set in any way. -/
theorem cuts_inBounds :
    (∀ (h : Highlighter) (query : Text) (v : Option Vocabulary),
      ∀ p ∈ h.allPassages (v.getD .permissive) query, p.InBounds) ∧
    ∀ (table : SpanTable) (o : DecorateOptions), table.InBounds o :=
  ⟨fun h query _ => h.inBounds_of_mem _ query,fun table o => table.inBounds o⟩

end CorpusQuery
