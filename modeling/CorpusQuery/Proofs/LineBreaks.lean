import CorpusQuery.Proofs.BreakTags
import CorpusQuery.Proofs.Enclosure
import CorpusQuery.Proofs.Overlaps
import CorpusQuery.Proofs.Ranks
import CorpusQuery.Proofs.Recovery

/-! Long queries broken into lines. Without its breaks the HTML of a query is the one that has none, and the
breaks in it are those of the sequences in the first pass: each stands where it is due, and one before a
position stands right before the bracket, since no wrapper is opened there. -/
namespace CorpusQuery

open Markup Html Layout

/-! ### Without breaks -/

def Rendering.unbroken (r : Rendering) : Rendering := { r with markup := withoutBreaks r.markup }

theorem SpanTable.unbroken_render (table : SpanTable) (o : DecorateOptions) :
    (table.render o).unbroken = table.render { o with wrapLines := false } := by
  have breaks := table.notes_breaks o
  have wraps : (table.notes o).decorations.filter (·.isWrap) =
      (table.notes { o with wrapLines := false }).decorations := by
    obtain ⟨vocabulary,wording,wrapLines⟩ := o
    cases wrapLines with
    | true => exact breaks.wraps
    | false =>
      rw [← breaks.wraps,List.filter_filter]
      simp
  have sameHint := table.hint_render_wrapLines o o.wrapLines
  rw [Rendering.unbroken,render,withoutBreaks_layout,wraps]
  exact congrArg (Rendering.mk _) sameHint

namespace Highlighter

def Pass.unbroken (p : Pass) : Pass := { p with rendering := p.rendering.unbroken }

def Passage.unbroken (p : Passage) : Passage := { p with pass := p.pass.unbroken }

def unbroken (h : Highlighter) : Highlighter := { h with wrapLines := false }

variable (h : Highlighter)

theorem unbroken_pass (t : Text) (start : StartRule) (o : DecorateOptions) :
    (pass t start o).unbroken = pass t start { o with wrapLines := false } :=
  congrArg (fun rendering => Pass.mk rendering _ _ _) (SpanTable.unbroken_render _ o)

theorem unbroken_options (v : Vocabulary) (depth : Nat) :
    { h.options v depth with wrapLines := false } = h.unbroken.options v depth := by
  unfold options
  split <;> rfl

theorem map_unbroken_passages (v : Vocabulary) (depth : Nat) (start : StartRule)
    (fallbacks : List StartRule) (t : Text) :
    (h.passages v depth start fallbacks t).map Passage.unbroken =
      h.unbroken.passages v depth start fallbacks t := by
  have same (depth : Nat) (start : StartRule) (t : Text) :
      pass t start (h.unbroken.options v depth) = (pass t start (h.options v depth)).unbroken := by
    rw [unbroken_pass,unbroken_options]
  have consumed (p : Pass) : p.unbroken.consumed = p.consumed := rfl
  fun_induction passages h v depth start fallbacks t with
  | case1 depth start fallbacks t pass left _ empty =>
    rw [passages.eq_def h.unbroken]
    simp only [same,consumed]
    exact (if_pos empty).symm
  | case2 depth start t pass left nonempty =>
    rw [passages.eq_def h.unbroken]
    simp only [same,consumed]
    exact (if_neg nonempty).symm
  | case3 depth start t pass left nonempty next later split rest stop ihSame ihNext =>
    rw [passages.eq_def h.unbroken]
    simp only [same,consumed]
    refine Eq.trans ?_ (if_neg nonempty).symm
    rw [List.map_cons]
    refine congrArg (List.cons _) ?_
    split_ifs
    · rfl
    · exact ihSame
    · exact ihNext

theorem not_mem_skippedMarkup (p : Passage) (w : Wording) : .lineBreak ∉ p.skippedMarkup w := by
  rcases skippedMarkup_cases p w with ⟨-,same⟩ | ⟨-,title,same⟩ | ⟨-,same⟩ <;> simp [same]

theorem markup_unbroken (p : Passage) (w : Wording) :
    p.unbroken.markup w = withoutBreaks (p.markup w) := by
  rw [Passage.markup,Passage.markup,withoutBreaks_append,
    withoutBreaks_eq_self (not_mem_skippedMarkup p w)]
  rfl

theorem unbroken_render (query : Text) (v : Option Vocabulary) :
    (h.render query v).unbroken = h.unbroken.render query v := by
  have passages : h.unbroken.allPassages (v.getD .permissive) query =
      (h.allPassages (v.getD .permissive) query).map Passage.unbroken := by
    unfold allPassages
    split
    · rfl
    · exact (h.map_unbroken_passages ..).symm
  have markup : withoutBreaks (h.render query v).markup = (h.unbroken.render query v).markup := by
    simp only [render,passages,List.flatMap_map,markup_unbroken]
    exact List.filter_flatMap ..
  have hint : (h.render query v).hint = (h.unbroken.render query v).hint := by
    simp only [render,passages,List.head?_map,Option.bind_map]
    rfl
  rw [Rendering.unbroken,markup,hint]

/-! ### Where breaks are due -/

theorem markup_render_broken {query : Text} (v : Option Vocabulary) (nonempty : query ≠ []) : ∃ rest,
    (h.render query v).markup =
      layout (h.firstTable query).chunks (h.firstDecorations query v) ++ rest ∧ .lineBreak ∉ rest := by
  obtain ⟨skipped,later,passages,-,behind⟩ := h.passages_eq_cons (v.getD .permissive) 0
    h.startRules.first h.startRules.fallbacks query
  refine ⟨Passage.skippedMarkup ⟨0,h.startRules.first,h.startRules.fallbacks,query,
    pass query h.startRules.first (h.options (v.getD .permissive) 0),skipped⟩ h.wording ++
      later.flatMap (·.markup h.wording),?_,fun member => ?_⟩
  · simp only [render,allPassages,nonempty,if_false,passages,List.flatMap_cons,Passage.markup,
      List.append_assoc]
    rfl
  · rcases List.mem_append.mp member with isSkipped | isLater
    · exact not_mem_skippedMarkup _ _ isSkipped
    · obtain ⟨p,inLater,inMarkup⟩ := List.mem_flatMap.mp isLater
      obtain ⟨style,t,same⟩ := styled_of_later (behind p inLater).1 (behind p inLater).2 _ inMarkup
      cases same

end Highlighter

namespace Reading

theorem exists_terminal_stop {full : Text} {start : StartRule} (x : Reading full start)
    {r : NonTerminal} {span : Span} (member : (.nonTerminal r,span) ∈ x.path) :
    ∃ t place, (.terminal t,place) ∈ x.path ∧ place.stop = span.stop := by
  have proper : span.start < span.stop := x.trail.nonempty (Cursor.in_tokenize full) _ member
  have reach : span.stop ≤ x.ending.reach.offset := (x.trail.bounds _ member).2.2
  have within : span.start ≤ span.stop - 1 ∧ span.stop - 1 < span.stop := by omega
  obtain ⟨tile,isTile,covers⟩ := x.tiles.covers (Nat.zero_le _) (within.2.trans_le reach)
  have held := Span.contains_iff.mp (x.trail.contains_tile member isTile covers within)
  exact ⟨tile.2,tile.1,Entry.mem_terminals.mp isTile,by omega⟩

variable {query : Text} {start : StartRule}

theorem exists_bracket (x : Reading (query ++ start.ending) start) {span : Span}
    (isPosition : (.nonTerminal .position,span) ∈ x.path) :
    ∃ place before, (.terminal .lBracket,place) ∈ x.path ∧ place.start = span.start ∧
      place.Has query before ['['] := by
  obtain ⟨p⟩ := x.outline.placed isPosition rfl
  obtain ⟨_,_,_,opens,-,split⟩ := p.trail.parts_of_andThen
  cases opens with
  | token at_ =>
    have isBracket : p.start.leaf .lBracket 1 ∈ p.inner := by simp [split]
    obtain ⟨before,place,offset⟩ := (p.inside x.outline.inside).place
    obtain ⟨text,next⟩ := p.enters.bounds.1.text_of_mark '[' (by decide) at_
    have notEnding : '[' ∉ start.ending := by cases start <;> decide
    have whole : query ++ start.ending = before ++ ['['] ++ (p.start.advance 1).text :=
      place.trans (by rw [text]; simp)
    obtain ⟨after,rfl⟩ := start.split_of_last whole (by simp) (by simpa using notEnding)
    refine ⟨_,before,p.mem_of_inner isBracket,p.start_eq,⟨after,by simp⟩,offset,?_⟩
    rw [Text.byteLength_append,← offset]
    exact next

theorem exists_bracket_chunk (x : Reading (query ++ start.ending) start) {span : Span}
    (isPosition : (.nonTerminal .position,span) ∈ x.path) :
    ∃ chunk ∈ (SpanTable.ofEvents query (parse (query ++ start.ending) start).events).chunks,
      chunk.start = span.start ∧ chunkMarkup chunk = .styled (some .bracket) ['['] := by
  obtain ⟨place,before,isBracket,starts,has⟩ := x.exists_bracket isPosition
  have inQuery : place.stop ≤ query.byteLength := by
    obtain ⟨after,split⟩ := has.place
    rw [has.stop,← split,Text.byteLength_append (before ++ ['['])]
    omega
  obtain ⟨chunk,isChunk,entry,-⟩ := x.exists_chunk isBracket inQuery
  have begins : chunk.start = place.start := congrArg (·.1.start) entry
  have ends : chunk.stop = place.stop := congrArg (·.1.stop) entry
  have kind : chunk.kind = .lBracket := congrArg (·.2) entry
  have slice := (SpanTable.mem_chunksFrom chunk isChunk).2.1
  have text : chunk.text = ['['] := by
    rw [x.source_eq,begins,ends,has.slice?] at slice
    exact (Option.some.inj slice).symm
  refine ⟨chunk,isChunk,begins.trans starts,?_⟩
  rw [chunkMarkup,kind,text]
  rfl

theorem exists_edge (x : Reading (query ++ start.ending) start) {n : Nat}
    (due : n ∈ (SpanTable.ofEvents query (parse (query ++ start.ending) start).events).lineBreaks) :
    ∃ chunk ∈ (SpanTable.ofEvents query (parse (query ++ start.ending) start).events).chunks,
      n = chunk.start ∨ n = chunk.start + chunk.text.byteLength := by
  have registers := x.registers query
  obtain ⟨s,outer,inSequence⟩ := List.mem_flatMap.mp due
  rcases SpanTable.mem_lineBreaksIn.mp inSequence with ⟨p,isP,-,-,rfl⟩ | ⟨rfl,inText⟩
  · have isPosition := registers.mem_spansOf.mp (SpanTable.mem_positionsIn.mp isP).1
    obtain ⟨chunk,isChunk,begins,-⟩ := x.exists_bracket_chunk isPosition
    exact ⟨chunk,isChunk,.inl begins.symm⟩
  · have isSequence := registers.mem_spansOf.mp (SpanTable.mem_outerSequences.mp outer).1
    obtain ⟨t,place,isTerminal,stop⟩ := x.exists_terminal_stop isSequence
    rw [x.source_eq,← stop] at inText
    obtain ⟨chunk,isChunk,-,ends⟩ := x.exists_chunk isTerminal inText.le
    exact ⟨chunk,isChunk,.inr (stop ▸ ends.symm)⟩

theorem byteLength_of_due (x : Reading (query ++ start.ending) start) {table : SpanTable} {n : Nat}
    (isTable : table = SpanTable.ofEvents query (parse (query ++ start.ending) start).events)
    (due : n ∈ table.lineBreaks) :
    Text.byteLength ((table.chunks.take (gapAt table.chunks n)).flatMap Chunk.text) = n := by
  subst isTable
  obtain ⟨chunk,isChunk,edge⟩ := x.exists_edge due
  have size := x.shown.contiguous.byteLength_take isChunk edge
  rwa [Nat.zero_add] at size

theorem lineBreaks_nil (x : Reading ([] ++ start.ending) start) :
    (SpanTable.ofEvents [] (parse ([] ++ start.ending) start).events).lineBreaks = [] := by
  refine List.eq_nil_iff_forall_not_mem.mpr fun n due => ?_
  obtain ⟨chunk,isChunk,-⟩ := x.exists_edge due
  obtain ⟨middle,left,split,shows_⟩ := x.shows
  have empty : middle = [] := (List.append_eq_nil_iff.mp split.symm).1
  exact shows_.contiguous.text_ne_nil isChunk
    (List.flatMap_eq_nil_iff.mp (shows_.text.trans empty) chunk isChunk)

theorem starts_of_position (x : Reading (query ++ start.ending) start) {table : SpanTable}
    (isTable : table = SpanTable.ofEvents query (parse (query ++ start.ending) start).events)
    {decorations : List Decoration} {span : Span} (marked : ∀ d ∈ decorations, d.Marks x.path)
    (isPosition : (.nonTerminal .position,span) ∈ x.path) :
    ∀ f ∈ starts table.chunks decorations (gapAt table.chunks span.start), f = .lineBreak := by
  subst isTable
  intro f member
  refine (mem_starts member).resolve_right ?_
  rintro ⟨⟨range,w⟩,begun,-⟩
  obtain ⟨isWrap,same⟩ := List.mem_filter.mp begun
  have same := of_decide_eq_true same
  obtain ⟨r,kind,isRule⟩ := Shown.exists_rule (marked _ (mem_wraps.mp isWrap).1)
  obtain ⟨place,before,isBracket,begins,-⟩ := x.exists_bracket isPosition
  -- A name or a value is no bracket, so one of them begins before the other.
  have apart : r.closed = true ∧ r.holds (.terminal .lBracket) = false := by
    rcases kind with rfl | rfl <;> decide
  have disjoint := (x.outline.apart isRule isBracket apart.1 rfl apart.2 rfl).resolve_left (by simp)
  have properR := x.outline.proper isRule apart.1
  have properB := x.outline.proper isBracket rfl
  have sorted := x.shown.contiguous.sorted
  obtain ⟨first,isFirst,starts⟩ := x.shown.starts r range kind isRule
  obtain ⟨chunk,isChunk,starts',-⟩ := x.exists_bracket_chunk isPosition
  simp only at disjoint properR properB same
  rcases disjoint with earlier | later
  · have := gapAt_lt sorted isFirst starts.ge (n := span.start) (by omega)
    omega
  · have := gapAt_lt sorted isChunk starts'.ge (n := range.start) (by omega)
    omega

end Reading

/-! ### The breaks of a query -/

/-- HTML that is broken into lines where a table says. -/
structure Html.BrokenAt (table : SpanTable) (pieces : List Piece) : Prop where
  /-- There is one break at each place that is due, and there is no other. -/
  offsets : (breakOffsets 0 pieces).Perm table.lineBreaks
  nodup : table.lineBreaks.Nodup
  /-- A break where a position begins stands right before its bracket. -/
  brackets : ∀ i, ∀ p ∈ table.spansOf .position, pieces[i]? = some breakPiece →
    p.start = Text.byteLength (shown (pieces.take i)) →
    (Fragment.styled (some .bracket) ['[']).pieces <+: pieces.drop (i + 1)

/-- What it comes to that a highlighter breaks long queries into lines. -/
structure Highlighter.LinesBroken (h : Highlighter) (query : Text) (v : Option Vocabulary) : Prop where
  /-- Without the breaks, the HTML is what it is when no line is broken. -/
  erased : eraseBreaks (Markup.html ({ h with wrapLines := true : Highlighter }.render query v).markup) =
    Markup.html ({ h with wrapLines := false : Highlighter }.render query v).markup
  hint : ({ h with wrapLines := true : Highlighter }.render query v).hint =
    ({ h with wrapLines := false : Highlighter }.render query v).hint
  brokenAt : BrokenAt (h.firstTable query)
    (read (Markup.html ({ h with wrapLines := true : Highlighter }.render query v).markup))

namespace Highlighter

variable (h : Highlighter)

theorem offsets_firstDecorations {query : Text} (v : Option Vocabulary)
    (x : Reading (query ++ h.startRules.first.ending) h.startRules.first) (wraps : h.wrapLines = true) :
    ((h.firstDecorations query v).filterMap (·.offset?)).Perm (h.firstTable query).lineBreaks := by
  have breaks := (h.firstTable query).notes_breaks (h.options (v.getD .permissive) 0)
  have same : { h.options (v.getD .permissive) 0 with wrapLines := true } =
      h.options (v.getD .permissive) 0 := by
    simp [options,wraps]
  rw [firstDecorations,← same,breaks.breaks]
  exact (x.layered query).breaks_perm

/-- The chunks up to a break have as many bytes as it is behind. -/
theorem byteLength_of_break {query : Text} (v : Option Vocabulary)
    (x : Reading (query ++ h.startRules.first.ending) h.startRules.first) (wraps : h.wrapLines = true) :
    ∀ n ∈ (h.firstDecorations query v).filterMap (·.offset?), Text.byteLength
      (((h.firstTable query).chunks.take (gapAt (h.firstTable query).chunks n)).flatMap Chunk.text) = n :=
  fun _ isBreak => x.byteLength_of_due rfl ((h.offsets_firstDecorations v x wraps).mem_iff.mp isBreak)

/-- With line breaks, the HTML of a query is broken where its first pass says. -/
theorem brokenAt_render (query : Text) (v : Option Vocabulary) (wraps : h.wrapLines = true) :
    BrokenAt (h.firstTable query) (pieces (h.render query v).markup) := by
  obtain ⟨x⟩ := reading (query ++ h.startRules.first.ending) h.startRules.first
  have nodup : (h.firstTable query).lineBreaks.Nodup := (x.layered query).nodup_lineBreaks
  by_cases empty : query = []
  · subst empty
    have noBreak : (h.firstTable []).lineBreaks = [] := x.lineBreaks_nil
    exact ⟨.of_eq noBreak.symm,nodup,fun _ _ _ at_ => absurd at_ (by simp [render,allPassages,pieces])⟩
  · obtain ⟨rest,markup,unbroken⟩ := h.markup_render_broken v empty
    have due := h.offsets_firstDecorations v x wraps
    have placed := h.byteLength_of_break v x wraps
    refine ⟨?_,nodup,fun i p isP at_ here => ?_⟩
    · rw [markup,pieces_append,breakOffsets_append,breakOffsets_of_unbroken unbroken,List.append_nil]
      exact (breakOffsets_layout placed).trans due
    · obtain ⟨front,back,split,before,behind⟩ := split_of_breakPiece at_
      rw [before,shown_pieces] at here
      rw [markup] at split
      obtain ⟨back,rfl,inLayout⟩ := split_of_not_mem_right split unbroken
      have isPosition := (x.registers query).mem_spansOf.mp isP
      obtain ⟨chunk,isChunk,starts,bracket⟩ := x.exists_bracket_chunk isPosition
      have marked := (x.registers query).marked (h.options (v.getD .permissive) 0)
      have onlyBreaks := x.starts_of_position rfl marked isPosition
      obtain ⟨later,rfl⟩ := chunk_behind_break (due.nodup_iff.mpr nodup) placed
        x.shown.contiguous.sorted isChunk (starts ▸ onlyBreaks) (starts.trans here) inLayout
      rw [behind,bracket]
      exact ⟨_,rfl⟩

/-- Whatever the query, the start rules, the vocabulary and the labels are, breaking lines inserts breaks
and does nothing else. Each sequence of the first pass that lies in no other is broken right before the
bracket of every third position but the first, and at its end when the query goes on. -/
theorem linesBroken_render (h : Highlighter) (query : Text) (v : Option Vocabulary) :
    h.LinesBroken query v := by
  have unbroken := unbroken_render { h with wrapLines := true } query v
  have hint := congrArg Rendering.hint unbroken
  have markup := congrArg Rendering.markup unbroken
  refine ⟨?_,hint,?_⟩
  · rw [eraseBreaks_html]
    exact congrArg Markup.html markup
  · rw [Markup.read_html]
    exact brokenAt_render { h with wrapLines := true } query v rfl

end Highlighter

end CorpusQuery
