import CorpusQuery.Proofs.Spans

/-! A layout made slot by slot. There is a slot before each chunk and one behind the last. Every decoration
finds the slots that it needs, and written out between the chunks they are the layout. -/
namespace CorpusQuery

namespace Layout

/-- What was put into one slot so far. -/
structure Slot where
  closings : List Insertion := []
  openings : List Insertion := []

namespace Slot

def close (s : Slot) (x : Insertion) : Slot := { s with closings := s.closings ++ [x] }

def «open» (s : Slot) (x : Insertion) : Slot := { s with openings := s.openings ++ [x] }

@[simp] theorem foldl_open (s : Slot) (xs : List Insertion) :
    xs.foldl «open» s = { s with openings := s.openings ++ xs } := by
  induction xs generalizing s with
  | nil => simp
  | cons x xs ih => rw [List.foldl_cons,ih,«open»,List.append_assoc]; rfl

@[simp] theorem foldl_close (s : Slot) (xs : List Insertion) :
    xs.foldl close s = { s with closings := s.closings ++ xs } := by
  induction xs generalizing s with
  | nil => simp
  | cons x xs ih => rw [List.foldl_cons,ih,close,List.append_assoc]; rfl

def markup (s : Slot) : Markup :=
  (s.closings.mergeSort (fun a b => a.width ≤ b.width) ++
    s.openings.mergeSort fun a b => b.width ≤ a.width).map Insertion.fragment

end Slot

/-- Puts an insertion, if there is one, into its slot; fails without such a slot. -/
def put? (slots : List Slot) (add : Slot → Insertion → Slot) : Option Insertion → Option (List Slot)
  | none => some slots
  | some x => if x.gap < slots.length then some (slots.modify x.gap (add · x)) else none

def place? (chunks : List Chunk) (slots : List Slot) (d : Decoration) : Option (List Slot) := do
  put? (← put? slots Slot.open (opening? chunks d)) Slot.close (closing? chunks d)

/-- The chunks with a slot before each, and then the slots left over. -/
def write : List Chunk → List Slot → Markup
  | [],slots => slots.flatMap Slot.markup
  | chunk :: chunks,[] => chunkMarkup chunk :: write chunks []
  | chunk :: chunks,slot :: slots => slot.markup ++ chunkMarkup chunk :: write chunks slots

def bySlots? (chunks : List Chunk) (decorations : List Decoration) : Option Markup :=
  (decorations.foldlM (place? chunks) (List.replicate (chunks.length + 1) {})).map (write chunks)

def slotOf (chunks : List Chunk) (decorations : List Decoration) (gap : Nat) : Slot where
  closings := (decorations.filterMap (closing? chunks)).filter (·.gap == gap)
  openings := (decorations.filterMap (opening? chunks)).filter (·.gap == gap)

theorem markup_slotOf (chunks : List Chunk) (decorations : List Decoration) (gap : Nat) :
    (slotOf chunks decorations gap).markup = between chunks decorations gap := rfl

variable {chunks : List Chunk}

theorem slotOf_concat (front : List Decoration) (d : Decoration) (gap : Nat) :
    slotOf chunks (front ++ [d]) gap =
      ((closing? chunks d).toList.filter (·.gap == gap)).foldl Slot.close
        (((opening? chunks d).toList.filter (·.gap == gap)).foldl Slot.open
          (slotOf chunks front gap)) := by
  have last {β : Type} (f : Decoration → Option β) : [d].filterMap f = (f d).toList := by
    cases same : f d <;> simp [same]
  rw [Slot.foldl_open,Slot.foldl_close]
  simp only [slotOf,List.filterMap_append,List.filter_append,last]

theorem put?_map {count : Nat} (s : Nat → Slot) (add : Slot → Insertion → Slot)
    {x : Option Insertion} (inside : ∀ y ∈ x, y.gap < count) :
    put? ((List.range count).map s) add x =
      some ((List.range count).map fun gap =>
        (x.toList.filter (·.gap == gap)).foldl add (s gap)) := by
  cases x with
  | none => rfl
  | some x =>
    have inside : x.gap < count := inside x rfl
    rw [put?,if_pos (by simpa using inside)]
    refine congrArg some (List.ext_getElem (by simp) fun gap _ _ => ?_)
    by_cases here : x.gap = gap <;> simp [here]

theorem foldlM_place? (decorations : List Decoration) :
    decorations.foldlM (place? chunks) (List.replicate (chunks.length + 1) {}) =
      some ((List.range (chunks.length + 1)).map (slotOf chunks decorations)) := by
  induction decorations using List.reverseRecOn with
  | nil =>
    rw [show slotOf chunks [] = fun _ => {} from rfl,List.map_const',List.length_range]
    rfl
  | append_singleton front d ih =>
    have opens : ∀ x ∈ opening? chunks d, x.gap < chunks.length + 1 := fun x opens =>
      Nat.lt_succ_of_le (gap_opening?_le opens)
    have closes : ∀ x ∈ closing? chunks d, x.gap < chunks.length + 1 := fun x closes =>
      Nat.lt_succ_of_le (gap_closing?_le closes)
    rw [List.foldlM_append,ih]
    simp only [List.foldlM_cons,List.foldlM_nil,place?,Option.bind_eq_bind,Option.bind_some,
      Option.pure_def,Option.bind_fun_some,put?_map _ _ opens,put?_map _ _ closes]
    refine congrArg some (List.map_congr_left fun gap _ => ?_)
    exact (slotOf_concat front d gap).symm

theorem write_range (chunks : List Chunk) (s : Nat → Slot) (start : Nat) :
    write chunks ((List.range' start (chunks.length + 1)).map s) =
      ((chunks.zipIdx start).flatMap fun (chunk,i) => (s i).markup ++ [chunkMarkup chunk]) ++
        (s (start + chunks.length)).markup := by
  induction chunks generalizing start with
  | nil => simp [write]
  | cons chunk chunks ih =>
    rw [List.length_cons,List.range'_succ,List.map_cons,write,ih (start + 1)]
    simp [List.zipIdx_cons,Nat.add_assoc,Nat.add_comm 1]

/-- All decorations find their slots, and the slots are the layout. -/
theorem bySlots?_eq (chunks : List Chunk) (decorations : List Decoration) :
    bySlots? chunks decorations = some (layout chunks decorations) := by
  rw [bySlots?,foldlM_place?,Option.map_some,List.range_eq_range',write_range]
  simp only [markup_slotOf,Nat.zero_add]
  rfl

end Layout

end CorpusQuery
