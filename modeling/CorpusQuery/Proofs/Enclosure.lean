import CorpusQuery.Proofs.Consistency
import CorpusQuery.Proofs.Origin
import CorpusQuery.Proofs.Places
import CorpusQuery.Proofs.Values

/-! What the wrappers in the HTML of a query enclose. Names and values begin and end where chunks do, so
a tooltip stands round just the name that it was opened for, and a mark for editing round just the
characters that it gives the numbers of. -/
namespace CorpusQuery

open Markup Html

/-! ### Chunks -/

theorem Layout.gapAt_eq_zero {chunks : List Chunk} {n : Nat} (behind : ∀ c ∈ chunks, n ≤ c.start) :
    gapAt chunks n = 0 := by
  cases chunks with
  | nil => rfl
  | cons first rest => simp [gapAt,behind first List.mem_cons_self]

/-- Up to a gap at which a chunk starts or ends, chunks have as many bytes as the gap is behind. -/
theorem Contiguous.byteLength_take {offset n : Nat} {chunks : List Chunk} {chunk : Chunk}
    (h : Contiguous offset chunks) (member : chunk ∈ chunks)
    (bound : n = chunk.start ∨ n = chunk.start + chunk.text.byteLength) :
    offset + Text.byteLength ((chunks.take (Layout.gapAt chunks n)).flatMap Chunk.text) = n := by
  induction h with
  | nil => simp at member
  | @cons offset rest first start nonempty more ih =>
    have pos := (Text.byteLength_eq_zero_iff first.text).not.mpr nonempty
    rcases List.mem_cons.mp member with rfl | later
    · rcases bound with rfl | rfl
      · simp [Layout.gapAt,start]
      · have zero : Layout.gapAt rest (chunk.start + chunk.text.byteLength) = 0 := by
          apply Layout.gapAt_eq_zero
          rw [start]
          exact more.offset_le
        have here : chunk.start < chunk.start + chunk.text.byteLength := by omega
        unfold Layout.gapAt at zero ⊢
        rw [List.takeWhile_cons_of_pos (by simpa using here),List.length_cons,zero]
        simp [start]
    · have behind := more.offset_le chunk later
      have here : first.start < n := by omega
      have total := ih later
      unfold Layout.gapAt at total ⊢
      rw [List.takeWhile_cons_of_pos (by simpa using here),List.length_cons,List.take_succ_cons,
        List.flatMap_cons,Text.byteLength_append]
      omega

theorem SpanTable.chunksFrom_stop (source : Text) (covered : Nat)
    (entries : List (Span × Terminal)) : ∀ chunk ∈ chunksFrom source covered entries,
      chunk.stop = chunk.start + chunk.text.byteLength := by
  fun_induction chunksFrom source covered entries with
  | case1 => simp
  | case2 covered span kind rest stop taken text slice ih =>
    intro chunk member
    rcases List.mem_cons.mp member with rfl | later
    · obtain ⟨before,has⟩ := @Text.has_of_slice? source text ⟨span.start,stop⟩ slice
      have start := has.start
      have stop := has.stop
      simp only [Text.byteLength_append] at start stop
      simp only
      omega
    · exact ih chunk later
  | case3 covered span kind rest stop taken noText ih => exact ih
  | case4 covered span kind rest stop skipped ih => exact ih

namespace Reading

variable {query : Text} {start : StartRule}

theorem exists_chunk (x : Reading (query ++ start.ending) start) {t : Terminal} {place : Span}
    (member : (.terminal t,place) ∈ x.path) (within : place.stop ≤ query.byteLength) :
    ∃ chunk ∈ (SpanTable.ofEvents query (parse (query ++ start.ending) start).events).chunks,
      chunk.entry = (place,t) ∧ chunk.start + chunk.text.byteLength = place.stop := by
  have proper : place.start < place.stop := x.outline.proper member rfl
  have isEntry : (place,t) ∈ ((Entry.terminals x.path).filter
      fun y => y.1.start < query.byteLength) := by
    rw [List.mem_filter]
    exact ⟨Entry.mem_terminals.mpr member,by simpa using proper.trans_le within⟩
  have cut := List.mem_map_of_mem (f := SpanTable.cutAt query.byteLength) isEntry
  rw [← x.map_entry_chunks] at cut
  obtain ⟨chunk,isChunk,same⟩ := List.mem_map.mp cut
  have stop := SpanTable.chunksFrom_stop _ _ _ chunk isChunk
  rw [SpanTable.cutAt,Nat.min_eq_left within] at same
  exact ⟨chunk,isChunk,same,stop ▸ congrArg (·.1.stop) same⟩

theorem exists_last (x : Reading (query ++ start.ending) start) {r : NonTerminal} {span : Span}
    (kind : r = .attName ∨ r = .regExp) (member : (.nonTerminal r,span) ∈ x.path) :
    ∃ t place, (.terminal t,place) ∈ x.path ∧ place.stop = span.stop := by
  rcases kind with rfl | rfl
  · obtain ⟨p⟩ := x.outline.placed member rfl
    obtain ⟨-,stops,inner⟩ := p.trail.attName_cases
    have isTerminal : p.start.leaf .attrChars 1 ∈ p.inner := by simp [inner]
    refine ⟨_,_,p.mem_of_inner isTerminal,?_⟩
    rw [← p.stop_eq,stops]
  · obtain ⟨-,place,isQuote,stop⟩ := x.quoted member
    exact ⟨.quote,place,isQuote,stop⟩

/-- The chunks up to the start of a name or a value show what comes before it, and those up to its end
show it as well. -/
theorem flatMap_text_take (x : Reading (query ++ start.ending) start) {r : NonTerminal}
    {span : Span} (kind : r = .attName ∨ r = .regExp) (member : (.nonTerminal r,span) ∈ x.path)
    {before within : Text} (has : span.Has query before within) {chunks : List Chunk}
    (areChunks : chunks =
      (SpanTable.ofEvents query (parse (query ++ start.ending) start).events).chunks) :
    (chunks.take (Layout.gapAt chunks span.start)).flatMap Chunk.text = before ∧
    (chunks.take (Layout.gapAt chunks span.stop)).flatMap Chunk.text = before ++ within := by
  obtain ⟨middle,left,split,shows_⟩ := x.shows
  have begins := x.shown.starts r span kind member
  rw [← areChunks] at shows_ begins
  have upTo (k : Nat) : (chunks.take k).flatMap Chunk.text <+: query := by
    rw [split,← shows_.text,← List.take_append_drop k chunks,List.flatMap_append,List.append_assoc,
      List.take_append_drop]
    exact List.prefix_append ..
  have inQuery : span.stop ≤ query.byteLength := by
    obtain ⟨after,rfl⟩ := has.place
    rw [has.stop,Text.byteLength_append (before ++ within)]
    omega
  constructor
  · obtain ⟨chunk,isChunk,starts⟩ := begins
    have size := shows_.contiguous.byteLength_take isChunk (.inl starts.symm)
    rw [Text.byteLength_nil,Nat.zero_add] at size
    exact Text.eq_of_prefix (upTo _) ((List.prefix_append ..).trans has.place)
      (size.trans has.start)
  · obtain ⟨t,place,isTerminal,stop⟩ := x.exists_last kind member
    obtain ⟨chunk,isChunk,-,stops⟩ := x.exists_chunk isTerminal (stop ▸ inQuery)
    rw [← areChunks] at isChunk
    have size := shows_.contiguous.byteLength_take isChunk (.inr (stop ▸ stops.symm))
    rw [Text.byteLength_nil,Nat.zero_add] at size
    exact Text.eq_of_prefix (upTo _) has.place (size.trans has.stop)

end Reading

/-! ### Tags -/

/-- The tag at `i` opens a tooltip for a name of the query, and encloses just that name. -/
inductive Html.TooltipAt (T : List Entry) (query : Text) (v : Vocabulary) (w : Wording)
    (pieces : List Piece) (i : Nat) : Prop where
  | intro : (.nonTerminal .attName,name) ∈ T → Titled query v w name title →
      name.Has query before text →
      pieces[i]? = some (.tag (OpeningTag.tooltip (escape title.toList)).body) →
      Encloses pieces i before text → TooltipAt T query v w pieces i

/-- The tag at `i` offers the value of a tag attribute for editing. It encloses the value with its
quotation marks, and has the number of characters before it and up to its end. -/
inductive Html.ClickableAt (T : List Entry) (query : Text) (v : Vocabulary) (pieces : List Piece)
    (i : Nat) : Prop where
  | intro : LeafPair T pair → (.nonTerminal .attName,name) ∈ T → pair.start = name.start →
      Known query v.isTagAttribute name → (.nonTerminal .regExp,value) ∈ T →
      pair.stop = value.stop → text = '"' :: content ++ ['"'] → value.Has query before text →
      pieces[i]? = some (.tag (OpeningTag.clickable (number before.length)
        (number (before ++ text).length)).body) →
      Encloses pieces i before text → ClickableAt T query v pieces i

/-- Every wrapper in HTML encloses what it announces. -/
structure Html.WrapsAnnounced (T : List Entry) (query : Text) (v : Vocabulary) (w : Wording)
    (pieces : List Piece) : Prop where
  tooltips : ∀ i p, pieces[i]? = some p → p.hasClass "sh-tooltip" = true →
    TooltipAt T query v w pieces i
  clickables : ∀ i p, pieces[i]? = some p → p.hasClass "sh-clickable" = true →
    ClickableAt T query v pieces i

namespace Highlighter

def firstDecorations (h : Highlighter) (query : Text) (v : Option Vocabulary) : List Decoration :=
  ((h.firstTable query).notes (h.options (v.getD .permissive) 0)).decorations

/-- A wrapper is opened for a decoration of the first pass, and encloses just the range of that. -/
theorem opening_of_hasClass (h : Highlighter) {query : Text} (v : Option Vocabulary)
    (x : Reading (query ++ h.startRules.first.ending) h.startRules.first) {i : Nat} {p : Piece}
    {cssClass : String} (at_ : (pieces (h.render query v).markup)[i]? = some p)
    (kind : cssClass = "sh-tooltip" ∨ cssClass = "sh-clickable") (isClass : p.hasClass cssClass = true) :
    ∃ span w, .wrap span w ∈ h.firstDecorations query v ∧
      (Fragment.opening w).cssClass? = some cssClass ∧ p = .tag w.body ∧
      ∀ before within, span.Has query before within →
        Encloses (pieces (h.render query v).markup) i before within := by
  have known : cssClass ∈ classNames ∧ cssClass ∉ styleNames ∧ cssClass ≠ "sh-unrecognized" := by
    rcases kind with rfl | rfl <;> decide
  have nonempty : query ≠ [] := by
    rintro rfl
    simp [render,allPassages,pieces] at at_
  obtain ⟨first,rest,-,-,isPass,-,markup,plain⟩ := h.markup_render_eq v nonempty
  obtain ⟨front,f,back,after,split,isF,fPieces,before,behind⟩ :=
    split_of_hasClass at_ known.1 isClass
  rw [markup,isPass,markup_pass] at split
  have notPlain : ¬f.Plain := fun isPlain => known.2.1 (isPlain _ isF)
  obtain ⟨w,rfl⟩ : ∃ w, f = .opening w := by
    cases f with
    | opening w => exact ⟨w,rfl⟩
    | styled => exact absurd (Fragment.plain_styled _ _) notPlain
    | closing | lineBreak => cases isF
    | unrecognized => exact absurd (Option.some.inj isF).symm known.2.2
  have notBehind : .opening w ∉ first.skippedMarkup h.wording ++ rest := by
    intro member
    rcases List.mem_append.mp member with isSkipped | later
    · rcases skippedMarkup_cases first h.wording with ⟨-,same⟩ | ⟨-,title,same⟩ | ⟨-,same⟩ <;>
        simp [same] at isSkipped
    · exact notPlain (plain _ later)
  obtain ⟨back,rfl,inLayout⟩ := split_of_not_mem_right split notBehind
  obtain ⟨rfl,rfl⟩ := List.cons.inj fPieces
  obtain ⟨span,within,later,isWrap,rfl,balanced,textBefore,textWithin⟩ :=
    (separate_pass query h.startRules.first (h.options (v.getD .permissive) 0)).encloses inLayout
  refine ⟨span,w,isWrap,isF,rfl,?_⟩
  intro textUpTo text has
  obtain ⟨r,kind,isRule⟩ := Shown.exists_rule ((x.registers query).marked _ _ isWrap)
  have shown := x.flatMap_text_take kind isRule has rfl
  rw [plainText_append,textBefore,shown.1,shown.2,List.append_cancel_left_eq] at textWithin
  rw [List.nil_append,List.append_assoc,List.cons_append,pieces_append,pieces_cons] at behind
  have encloses := encloses_of_balanced before behind balanced
  rwa [shown_pieces,shown_pieces,textBefore,shown.1,textWithin] at encloses

theorem tooltipAt_of_hasClass (h : Highlighter) {query : Text} (v : Option Vocabulary)
    (x : Reading (query ++ h.startRules.first.ending) h.startRules.first) {i : Nat} {p : Piece}
    (at_ : (pieces (h.render query v).markup)[i]? = some p)
    (isClass : p.hasClass "sh-tooltip" = true) :
    TooltipAt x.path query (v.getD .permissive) h.wording (pieces (h.render query v).markup) i := by
  obtain ⟨span,w,isWrap,kind,rfl,encloses⟩ := h.opening_of_hasClass v x at_ (.inl rfl) isClass
  have announced := (x.registers query).announced (h.options (v.getD .permissive) 0) _ isWrap
  rw [x.source_eq] at announced
  cases announced with
  | name isName titled =>
    obtain ⟨text,hasText⟩ := x.exists_text isName
    obtain ⟨before,has⟩ := Text.has_of_slice? hasText
    rw [tooltip_body] at at_
    exact .intro isName titled has at_ (encloses before text has)
  | value => simp [Fragment.cssClass?] at kind

theorem clickableAt_of_hasClass (h : Highlighter) {query : Text} (v : Option Vocabulary)
    (x : Reading (query ++ h.startRules.first.ending) h.startRules.first) {i : Nat} {p : Piece}
    (at_ : (pieces (h.render query v).markup)[i]? = some p)
    (isClass : p.hasClass "sh-clickable" = true) :
    ClickableAt x.path query (v.getD .permissive) (pieces (h.render query v).markup) i := by
  obtain ⟨span,w,isWrap,kind,rfl,encloses⟩ := h.opening_of_hasClass v x at_ (.inr rfl) isClass
  have announced := (x.registers query).announced (h.options (v.getD .permissive) 0) _ isWrap
  rw [x.source_eq] at announced
  cases announced with
  | name => simp [Fragment.cssClass?] at kind
  | value leaf isName named isTag isValue valued =>
    obtain ⟨⟨before,content,after,split,start,stop⟩,-⟩ := x.quoted isValue
    obtain ⟨startsWithName,stopsWithValue⟩ := x.outline.leaf_ends leaf isName named isValue valued
    have has : span.Has query before ('"' :: content ++ ['"']) := ⟨⟨after,split.symm⟩,start,stop⟩
    have left : Text.charsBefore query span.start = before.length := by
      rw [start]
      exact Text.charsBefore_prefix ((List.prefix_append ..).trans has.place)
    have right : Text.charsBefore query span.stop = (before ++ ('"' :: content ++ ['"'])).length := by
      rw [stop]
      exact Text.charsBefore_prefix has.place
    rw [left,right,clickable_body] at at_
    exact .intro leaf isName startsWithName isTag isValue stopsWithValue rfl has at_
      (encloses before _ has)

/-- In the HTML of a query, every tooltip stands round just the name that it was opened for, and every
mark for editing round just the value, in quotation marks, of which it gives the place in characters;
the attribute of that value is a tag attribute. -/
theorem wrapsAnnounced_render (h : Highlighter) (query : Text) (v : Option Vocabulary) :
    WrapsAnnounced (h.matched query) query (v.getD .permissive) h.wording
      (read (Markup.html (h.render query v).markup)) := by
  obtain ⟨x⟩ := reading (query ++ h.startRules.first.ending) h.startRules.first
  have same (y : Entry) : y ∈ x.path ↔ y ∈ h.matched query := (h.mem_matched_iff x y).symm
  rw [Markup.read_html]
  constructor
  · intro i p at_ isClass
    obtain ⟨isName,titled,has,isTag,encloses⟩ := h.tooltipAt_of_hasClass v x at_ isClass
    exact .intro ((same _).mp isName) titled has isTag encloses
  · intro i p at_ isClass
    obtain ⟨leaf,isName,starts,known,isValue,stops,quoted,has,isTag,encloses⟩ :=
      h.clickableAt_of_hasClass v x at_ isClass
    exact .intro (leaf.congr same) ((same _).mp isName) starts known ((same _).mp isValue) stops
      quoted has isTag encloses

end Highlighter

end CorpusQuery
