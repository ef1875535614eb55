import CorpusQuery.Markup.Layout
import CorpusQuery.Proofs.Consistency
import CorpusQuery.Proofs.Places

/-! The chunks of terminals that were set for any ranges, in any order. Of each key the last terminal counts,
and of keys that overlap when they are cut at the end of the text, the smallest that fits. -/
namespace CorpusQuery

def LastFor {κ α : Type} (calls : List (κ × α)) (key : κ) (value : α) : Prop :=
  ∃ before after, calls = before ++ (key,value) :: after ∧ ∀ other, (key,other) ∉ after

namespace LastFor

variable {κ α : Type} {calls : List (κ × α)} {key : κ} {value : α}

theorem mem (h : LastFor calls key value) : (key,value) ∈ calls := by
  obtain ⟨before,after,rfl,-⟩ := h
  simp

theorem not_nil : ¬LastFor [] key value := fun h => absurd h.mem List.not_mem_nil

/-- The last call decides on its key, and no other call that comes before it does. -/
theorem concat_iff (calls : List (κ × α)) (call : κ × α) :
    LastFor (calls ++ [call]) key value ↔
      call = (key,value) ∨ call.1 ≠ key ∧ LastFor calls key value := by
  constructor
  · rintro ⟨before,after,split,absent⟩
    rcases List.eq_nil_or_concat after with rfl | ⟨after,last,rfl⟩
    · exact .inl (List.cons.inj (List.append_inj' split rfl).2).1
    · rw [List.concat_eq_append,← List.cons_append,← List.append_assoc] at split
      obtain ⟨rfl,same⟩ := List.append_inj' split rfl
      obtain rfl := (List.cons.inj same).1
      refine .inr ⟨?_,before,after,rfl,fun other member => absent other (by simp [member])⟩
      rintro rfl
      exact absent call.2 (by simp)
  · rintro (rfl | ⟨differs,before,after,rfl,absent⟩)
    · exact ⟨calls,[],rfl,by simp⟩
    · refine ⟨before,after ++ [call],by simp,fun other member => ?_⟩
      rcases List.mem_append.mp member with old | new
      · exact absent other old
      · exact differs (List.mem_singleton.mp new ▸ rfl)

theorem exists_of_mem [DecidableEq κ] (member : (key,value) ∈ calls) :
    ∃ last, LastFor calls key last := by
  induction calls using List.reverseRecOn with
  | nil => cases member
  | append_singleton calls call ih =>
    by_cases same : call.1 = key
    · exact ⟨call.2,(concat_iff calls call).mpr (.inl (same ▸ rfl))⟩
    · rcases List.mem_append.mp member with old | new
      · obtain ⟨last,isLast⟩ := ih old
        exact ⟨last,(concat_iff calls call).mpr (.inr ⟨same,isLast⟩)⟩
      · exact absurd (List.mem_singleton.mp new ▸ rfl) same

theorem filter_iff (p : κ → Bool) :
    LastFor (calls.filter (p ·.1)) key value ↔ p key = true ∧ LastFor calls key value := by
  induction calls using List.reverseRecOn with
  | nil => simp [not_nil]
  | append_singleton calls call ih =>
    rw [List.filter_append,concat_iff calls call]
    by_cases kept : p call.1 = true
    · have only : [call].filter (p ·.1) = [call] := List.filter_cons_of_pos kept
      rw [only,concat_iff,ih,and_or_left,and_left_comm]
      refine or_congr_left (iff_and_self.mpr ?_)
      rintro rfl
      exact kept
    · have empty : [call].filter (p ·.1) = [] := List.filter_cons_of_neg kept
      rw [empty,List.append_nil,ih]
      refine and_congr_right fun inside => ?_
      have differs : call.1 ≠ key := fun same => kept (same ▸ inside)
      have other : call ≠ (key,value) := fun same => differs (same ▸ rfl)
      simp [differs,other]

end LastFor

namespace SortedMap

variable {κ α : Type} [LT κ] [StrictOrder κ]

theorem find?_eq_some_iff [DecidableEq κ] (m : SortedMap κ α) {key : κ} {value : α} :
    m.find? key = some value ↔ (key,value) ∈ m.entries := by
  constructor
  · intro found
    obtain ⟨entry,first,rfl⟩ := Option.map_eq_some_iff.mp found
    have same : entry.1 = key := by simpa using List.find?_some first
    exact same ▸ List.mem_of_find?_eq_some first
  · intro member
    have isFound : (m.entries.find? (·.1 == key)).isSome = true :=
      List.find?_isSome.mpr ⟨_,member,beq_self_eq_true key⟩
    obtain ⟨entry,first⟩ := Option.isSome_iff_exists.mp isFound
    have sameKey : entry.1 = key := by simpa using List.find?_some first
    have same := eq_of_key_eq m.sorted entry (List.mem_of_find?_eq_some first) _ member sameKey
    rw [find?,first,same]
    rfl

variable [DecidableLT κ]

theorem ofList_concat (calls : List (κ × α)) (call : κ × α) :
    ofList (calls ++ [call]) = (ofList calls).insert call.1 call.2 := by
  simp [ofList]

theorem mem_ofList_iff (calls : List (κ × α)) (key : κ) (value : α) :
    (key,value) ∈ (ofList calls).entries ↔ LastFor calls key value := by
  induction calls using List.reverseRecOn with
  | nil => exact iff_of_false List.not_mem_nil LastFor.not_nil
  | append_singleton calls call ih =>
    rw [ofList_concat,mem_insert_iff,LastFor.concat_iff,ih]
    exact or_congr eq_comm ⟨fun h => ⟨Ne.symm h.2,h.1⟩,fun h => ⟨h.2,Ne.symm h.1⟩⟩

end SortedMap

theorem Span.Has.slice? {span : Span} {t before within : Text} (h : span.Has t before within) :
    t.slice? span.start span.stop = some within := by
  obtain ⟨after,rfl⟩ := h.place
  rw [h.start,h.stop,Text.slice?_middle]

namespace SpanTable

/-! ### The chunks of entries -/

section Entries

variable {source : Text} {covered : Nat} {entries : List (Span × Terminal)}

theorem pairwise_chunksFrom (source : Text) (covered : Nat) (entries : List (Span × Terminal)) :
    (∀ chunk ∈ chunksFrom source covered entries, covered ≤ chunk.start) ∧
      (chunksFrom source covered entries).Pairwise fun a b => a.stop ≤ b.start := by
  fun_induction chunksFrom source covered entries with
  | case1 => simp
  | case2 covered span kind rest stop fits text slice ih =>
    refine ⟨?_,List.pairwise_cons.mpr ⟨ih.1,ih.2⟩⟩
    simp only [List.forall_mem_cons]
    exact ⟨fits.2,fun chunk member => (fits.2.trans fits.1.le).trans (ih.1 chunk member)⟩
  | case3 _ _ _ _ _ _ _ ih | case4 _ _ _ _ _ _ ih => exact ih

theorem mem_chunksFrom (chunk : Chunk) (member : chunk ∈ chunksFrom source covered entries) :
    chunk.start < chunk.stop ∧ source.slice? chunk.start chunk.stop = some chunk.text ∧
      ∃ x ∈ entries, chunk.entry = cutAt source.byteLength x := by
  fun_induction chunksFrom source covered entries with
  | case1 => cases member
  | case2 covered span kind rest stop fits text slice ih =>
    rcases List.mem_cons.mp member with rfl | later
    · exact ⟨fits.1,slice,_,List.mem_cons_self,rfl⟩
    · obtain ⟨proper,found,x,inRest,same⟩ := ih later
      exact ⟨proper,found,x,List.mem_cons_of_mem _ inRest,same⟩
  | case3 covered span kind rest stop _ _ ih | case4 covered span kind rest stop _ ih =>
    obtain ⟨proper,found,x,inRest,same⟩ := ih member
    exact ⟨proper,found,x,List.mem_cons_of_mem _ inRest,same⟩

variable (covered) in
/-- An entry that gives no chunk though it could begins in what is taken already, or overlaps the chunk of
an entry before it. -/
theorem chunksFrom_maximal (sorted : entries.Pairwise fun a b => a.1 < b.1) {x : Span × Terminal}
    (member : x ∈ entries) (proper : x.1.start < min x.1.stop source.byteLength) {text : Text}
    (legible : source.slice? x.1.start (min x.1.stop source.byteLength) = some text) :
    x.1.start < covered ∨
      (∃ chunk ∈ chunksFrom source covered entries, chunk.entry = cutAt source.byteLength x) ∨
      ∃ chunk ∈ chunksFrom source covered entries,
        (∃ y ∈ entries, y.1 < x.1 ∧ chunk.entry = cutAt source.byteLength y) ∧
          x.1.start < chunk.stop := by
  fun_induction chunksFrom source covered entries with
  | case1 => cases member
  | case2 covered span kind rest stop fits shown slice ih =>
    obtain ⟨above,sorted⟩ := List.pairwise_cons.mp sorted
    rcases List.mem_cons.mp member with rfl | later
    · exact .inr (.inl ⟨_,List.mem_cons_self,rfl⟩)
    · refine .inr ?_
      rcases ih sorted later with taken | ⟨chunk,inRest,same⟩ | ⟨chunk,inRest,⟨y,inY,less,same⟩,crosses⟩
      · -- What is taken is the chunk of this entry.
        exact .inr ⟨_,List.mem_cons_self,⟨_,List.mem_cons_self,above x later,rfl⟩,taken⟩
      · exact .inl ⟨chunk,List.mem_cons_of_mem _ inRest,same⟩
      · exact .inr ⟨chunk,List.mem_cons_of_mem _ inRest,
          ⟨y,List.mem_cons_of_mem _ inY,less,same⟩,crosses⟩
  | case3 covered span kind rest stop fits noSlice ih =>
    rcases List.mem_cons.mp member with rfl | later
    · exact absurd (noSlice.symm.trans legible) (by simp)
    · refine (ih sorted.of_cons later).imp_right (Or.imp_right ?_)
      rintro ⟨chunk,inRest,⟨y,inY,smaller⟩,crosses⟩
      exact ⟨chunk,inRest,⟨y,List.mem_cons_of_mem _ inY,smaller⟩,crosses⟩
  | case4 covered span kind rest stop unfit ih =>
    rcases List.mem_cons.mp member with rfl | later
    · simp only at proper ⊢
      exact .inl (by omega)
    · refine (ih sorted.of_cons later).imp_right (Or.imp_right ?_)
      rintro ⟨chunk,inRest,⟨y,inY,smaller⟩,crosses⟩
      exact ⟨chunk,inRest,⟨y,List.mem_cons_of_mem _ inY,smaller⟩,crosses⟩

end Entries

/-! ### Terminals set in any order -/

def setAll (source : Text) (calls : List (Span × Terminal)) : SpanTable :=
  calls.foldl (fun table call => table.setTerminal call.1 call.2) { source }

theorem setAll_eq (source : Text) (calls : List (Span × Terminal)) :
    setAll source calls = { source, terminals := .ofList calls } := by
  induction calls using List.reverseRecOn with
  | nil => rfl
  | append_singleton calls call ih =>
    rw [setAll,List.foldl_concat,← setAll,ih,SortedMap.ofList_concat]
    rfl

/-- The chunks of a text are those of the terminals that were set for it. -/
structure Cut (source : Text) (calls : List (Span × Terminal)) (chunks : List Chunk) : Prop where
  sorted : chunks.Pairwise fun a b => a.start < b.start
  disjoint : chunks.Pairwise fun a b => a.stop ≤ b.start
  proper : ∀ chunk ∈ chunks, chunk.start < chunk.stop ∧ chunk.stop ≤ source.byteLength
  /-- A chunk has the text between its offsets, which lie between characters. -/
  places : ∀ chunk ∈ chunks, ∃ before, Span.Has ⟨chunk.start,chunk.stop⟩ source before chunk.text
  /-- Its style is that of the terminal that was set last for a key, of which it is the part in the text. -/
  styled : ∀ chunk ∈ chunks, ∃ key t, LastFor calls key t ∧
    chunk.entry = cutAt source.byteLength (key,t) ∧
      Layout.chunkMarkup chunk = .styled t.style? chunk.text
  /-- A key that has a part of the text gives a chunk, or overlaps the chunk of a smaller key. -/
  maximal : ∀ key, (∃ t, (key,t) ∈ calls) → key.start < min key.stop source.byteLength →
    (∃ before within, Span.Has ⟨key.start,min key.stop source.byteLength⟩ source before within) →
    (∃ chunk ∈ chunks, ∃ t, LastFor calls key t ∧ chunk.entry = cutAt source.byteLength (key,t)) ∨
      ∃ chunk ∈ chunks, (∃ smaller t, smaller < key ∧ LastFor calls smaller t ∧
          chunk.entry = cutAt source.byteLength (smaller,t)) ∧
        chunk.start < min key.stop source.byteLength ∧ key.start < chunk.stop

/-- The chunks of terminals that were set with any offsets, in any order. -/
theorem chunks_setAll_cut (source : Text) (calls : List (Span × Terminal)) :
    Cut source calls (setAll source calls).chunks := by
  have entries (x : Span × Terminal) : x ∈ (SortedMap.ofList calls).entries ↔ LastFor calls x.1 x.2 :=
    SortedMap.mem_ofList_iff calls x.1 x.2
  have disjoint := (pairwise_chunksFrom source 0 (SortedMap.ofList calls).entries).2
  have origin (chunk : Chunk) (member : chunk ∈ chunksFrom source 0 (SortedMap.ofList calls).entries) :
      chunk.start < chunk.stop ∧ source.slice? chunk.start chunk.stop = some chunk.text ∧
        ∃ x ∈ (SortedMap.ofList calls).entries, chunk.entry = cutAt source.byteLength x :=
    mem_chunksFrom chunk member
  rw [setAll_eq,chunks]
  refine ⟨?_,disjoint,?_,?_,?_,?_⟩
  · refine List.Pairwise.imp_of_mem (fun {a b} inA _ apart => ?_) disjoint
    exact (origin a inA).1.trans_le apart
  · intro chunk member
    obtain ⟨proper,-,x,-,same⟩ := origin chunk member
    have stop : chunk.stop = min x.1.stop source.byteLength := congrArg (·.1.stop) same
    exact ⟨proper,stop ▸ Nat.min_le_right ..⟩
  · intro chunk member
    exact @Text.has_of_slice? source chunk.text ⟨chunk.start,chunk.stop⟩ (origin chunk member).2.1
  · intro chunk member
    obtain ⟨-,-,x,inMap,same⟩ := origin chunk member
    have kind : chunk.kind = x.2 := congrArg (·.2) same
    exact ⟨x.1,x.2,(entries x).mp inMap,same,by rw [Layout.chunkMarkup,kind]⟩
  · rintro key ⟨t,called⟩ proper ⟨before,within,has⟩
    obtain ⟨last,isLast⟩ := LastFor.exists_of_mem called
    have placed := chunksFrom_maximal 0 (SortedMap.ofList calls).sorted
      ((entries (key,last)).mpr isLast) proper has.slice?
    rcases placed with taken | ⟨chunk,member,same⟩ | ⟨chunk,member,⟨y,inY,less,same⟩,crosses⟩
    · exact absurd taken (Nat.not_lt_zero _)
    · exact .inl ⟨chunk,member,last,isLast,same⟩
    · refine .inr ⟨chunk,member,⟨y.1,y.2,less,(entries y).mp inY,same⟩,?_,crosses⟩
      -- A smaller key does not begin behind this one.
      have start : chunk.start = y.1.start := congrArg (·.1.start) same
      have less := (Span.lt_iff y.1 key).mp less
      omega

end SpanTable

end CorpusQuery
