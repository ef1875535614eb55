/-! Finite maps whose entries are kept in ascending order of their keys. Two maps with the same
entries are equal, so a set of names has one value whatever the order in which it was built. -/
namespace CorpusQuery

/-- A strict order in which any two different keys are comparable. -/
class StrictOrder (κ : Type) [LT κ] : Prop where
  irrefl : ∀ a : κ, ¬a < a
  trans : ∀ {a b c : κ}, a < b → b < c → a < c
  eq_of_not_lt : ∀ {a b : κ}, ¬a < b → ¬b < a → a = b

instance : StrictOrder String where
  irrefl := String.lt_irrefl
  trans := String.lt_trans
  eq_of_not_lt ab ba := String.le_antisymm (String.not_lt.mp ba) (String.not_lt.mp ab)

structure SortedMap (κ α : Type) [LT κ] where
  entries : List (κ × α)
  sorted : entries.Pairwise fun a b => a.1 < b.1
  deriving DecidableEq

namespace SortedMap

variable {κ α : Type} [LT κ]

def empty : SortedMap κ α := ⟨[],.nil⟩

instance : Inhabited (SortedMap κ α) := ⟨empty⟩

def keys (m : SortedMap κ α) : List κ := m.entries.map Prod.fst

def find? [DecidableEq κ] (m : SortedMap κ α) (key : κ) : Option α :=
  (m.entries.find? (·.1 == key)).map Prod.snd

def contains [DecidableEq κ] (m : SortedMap κ α) (key : κ) : Bool := (m.find? key).isSome

def insertEntry [DecidableLT κ] (key : κ) (value : α) : List (κ × α) → List (κ × α)
  | [] => [(key,value)]
  | head :: rest =>
    if key < head.1 then (key,value) :: head :: rest
    else if head.1 < key then head :: insertEntry key value rest
    else (key,value) :: rest

theorem mem_insertEntry [DecidableLT κ] {key : κ} {value : α} {entries : List (κ × α)}
    {e : κ × α} (member : e ∈ insertEntry key value entries) : e = (key,value) ∨ e ∈ entries := by
  induction entries with
  | nil => simpa [insertEntry] using member
  | cons head rest ih =>
    unfold insertEntry at member
    split at member
    · simpa using member
    · split at member
      · rcases List.mem_cons.mp member with rfl | inRest
        · simp
        · rcases ih inRest with rfl | old
          · simp
          · simp [old]
      · rcases List.mem_cons.mp member with rfl | inRest
        · simp
        · simp [inRest]

theorem sorted_insertEntry [DecidableLT κ] [StrictOrder κ] (key : κ) (value : α)
    {entries : List (κ × α)} (sorted : entries.Pairwise fun a b => a.1 < b.1) :
    (insertEntry key value entries).Pairwise fun a b => a.1 < b.1 := by
  induction entries with
  | nil => simp [insertEntry]
  | cons head rest ih =>
    obtain ⟨above,below⟩ := List.pairwise_cons.mp sorted
    unfold insertEntry
    split
    next first =>
      refine List.pairwise_cons.mpr ⟨fun e member => ?_,sorted⟩
      rcases List.mem_cons.mp member with rfl | inRest
      · exact first
      · exact StrictOrder.trans first (above e inRest)
    next notFirst =>
      split
      next later =>
        refine List.pairwise_cons.mpr ⟨fun e member => ?_,ih below⟩
        rcases mem_insertEntry member with rfl | old
        · exact later
        · exact above e old
      next notLater =>
        have same : head.1 = key := StrictOrder.eq_of_not_lt notLater notFirst
        exact List.pairwise_cons.mpr ⟨fun e member => same ▸ above e member,below⟩

def insert [DecidableLT κ] [StrictOrder κ] (m : SortedMap κ α) (key : κ) (value : α) :
    SortedMap κ α :=
  ⟨insertEntry key value m.entries,sorted_insertEntry key value m.sorted⟩

/-- Of entries with one key the last counts. -/
def ofList [DecidableLT κ] [StrictOrder κ] (entries : List (κ × α)) : SortedMap κ α :=
  entries.foldl (fun m (key,value) => m.insert key value) empty

end SortedMap

abbrev NameSet := SortedMap String Unit

def NameSet.ofNames (names : List String) : NameSet := .ofList (names.map (·,()))

end CorpusQuery
