import CorpusQuery.FileTree
import Mathlib.Tactic.Common

/-! Files and directories as they change. Making directories and writing a file leaves every path leading
where it led, and a file that was written holds what was written. -/
namespace CorpusQuery

namespace FileTree

/-! ### Paths -/

/-- What is a directory stays one, so that paths lead where they led. -/
structure Leads (tree later : FileTree) : Prop where
  workingDirectory : later.workingDirectory = tree.workingDirectory
  directories : ∀ place, tree.node? place = some .directory → later.node? place = some .directory

/-- All that is in a tree stays as it is. -/
structure Grows (tree later : FileTree) : Prop where
  workingDirectory : later.workingDirectory = tree.workingDirectory
  nodes : ∀ place node, tree.node? place = some node → later.node? place = some node

variable {tree later : FileTree} {place found : Place} {path : Text}

theorem Grows.refl (tree : FileTree) : Grows tree tree := ⟨rfl,fun _ _ => id⟩

theorem Grows.trans {between : FileTree} (first : Grows tree between) (second : Grows between later) :
    Grows tree later :=
  ⟨second.workingDirectory.trans first.workingDirectory,
    fun place node present => second.nodes place node (first.nodes place node present)⟩

theorem grows_put (free : tree.node? place = none) (node : FileNode) : Grows tree (tree.put place node) where
  workingDirectory := rfl
  nodes other found present := by
    rw [node?_put_other tree _ node,present]
    rintro rfl
    rw [free] at present
    cases present

theorem leads_put (noDirectory : tree.node? place ≠ some .directory) (node : FileNode) :
    Leads tree (tree.put place node) where
  workingDirectory := rfl
  directories other present := by
    rw [node?_put_other tree _ node,present]
    rintro rfl
    exact noDirectory present

theorem bind_eq_ok {ε α β : Type} {x : Except ε α} {f : α → Except ε β} {b : β} :
    (x >>= f) = .ok b ↔ ∃ a, x = .ok a ∧ f a = .ok b := by
  cases x with
  | error e => exact ⟨nofun,fun ⟨_,ok,_⟩ => nomatch ok⟩
  | ok a =>
    constructor
    · exact fun run => ⟨a,rfl,run⟩
    · rintro ⟨_,⟨⟩,run⟩
      exact run

theorem directory_eq_ok : tree.directory place = .ok found ↔
    tree.node? place = some .directory ∧ found = place := by
  unfold directory
  cases tree.node? place with
  | none => simp
  | some node => cases node <;> simp [eq_comm]

theorem locate_eq_ok : tree.locate path = .ok place ↔
    path ≠ [] ∧ ∃ above, tree.enter (tree.origin path) (names path).dropLast = .ok above ∧
      follow above ((names path).getLastD []) = place := by
  unfold locate
  by_cases empty : path = []
  · simp only [empty,ne_eq,not_true_eq_false,false_and,iff_false]
    intro impossible
    cases impossible
  · rw [if_neg empty]
    simp only [empty,ne_eq,not_false_eq_true,true_and]
    refine bind_eq_ok.trans (exists_congr fun above => and_congr_right fun _ => ?_)
    exact ⟨Except.ok.inj,congrArg _⟩

theorem enter_of_leads (leads : Leads tree later) {names : List Text}
    (enters : tree.enter place names = .ok found) : later.enter place names = .ok found := by
  induction names generalizing place with
  | nil =>
    obtain ⟨present,same⟩ := directory_eq_ok.mp enters
    exact directory_eq_ok.mpr ⟨leads.directories place present,same⟩
  | cons name names ih =>
    obtain ⟨start,here,enters⟩ := bind_eq_ok.mp enters
    obtain ⟨present,same⟩ := directory_eq_ok.mp here
    exact bind_eq_ok.mpr
      ⟨start,directory_eq_ok.mpr ⟨leads.directories place present,same⟩,ih enters⟩

theorem locate_of_leads (leads : Leads tree later) (locates : tree.locate path = .ok place) :
    later.locate path = .ok place := by
  obtain ⟨nonempty,above,enters,follows⟩ := locate_eq_ok.mp locates
  have start : later.origin path = tree.origin path := by rw [origin,origin,leads.workingDirectory]
  exact locate_eq_ok.mpr ⟨nonempty,above,start ▸ enter_of_leads leads enters,follows⟩

/-! ### Directories above a path -/

variable {start : Place}

theorem makeDirectory_grows {names : List Text} (made : tree.makeDirectory start names = .ok later) :
    Grows tree later := by
  obtain ⟨above,-,made⟩ := bind_eq_ok.mp made
  dsimp only at made
  split at made
  next => cases made
  next free =>
    obtain rfl := Except.ok.inj made
    exact grows_put (by simpa using free) .directory

theorem orPresent_grows {names : List Text} {e : FileError}
    (present : tree.orPresent start names e = .ok later) : Grows tree later := by
  unfold orPresent at present
  split at present
  next =>
    obtain rfl := Except.ok.inj present
    exact .refl tree
  next => cases present

theorem makeDirectories_grows {names : List Text} (made : tree.makeDirectories start names = .ok later) :
    Grows tree later := by
  induction names generalizing later with
  | nil =>
    obtain rfl := Except.ok.inj made
    exact .refl tree
  | cons name above ih =>
    unfold makeDirectories at made
    dsimp only at made
    split at made
    next once =>
      obtain rfl := Except.ok.inj made
      exact makeDirectory_grows once
    next =>
      obtain ⟨between,aboveMade,made⟩ := bind_eq_ok.mp made
      refine (ih aboveMade).trans ?_
      split at made
      next once =>
        obtain rfl := Except.ok.inj made
        exact makeDirectory_grows once
      next => exact orPresent_grows made
    next => exact orPresent_grows made

/-! ### Files -/

theorem write_eq_ok {content : ByteArray} (written : tree.write path content = .ok later) :
    ∃ place, tree.locate path = .ok place ∧ tree.node? place ≠ some .directory ∧
      later = tree.put place (.file content) := by
  unfold write at written
  dsimp only at written
  split at written
  next => cases written
  next =>
    obtain ⟨place,locates,written⟩ := bind_eq_ok.mp written
    split at written
    next => cases written
    next plain =>
      rw [not_or,not_not] at plain
      obtain ⟨same,noDirectory⟩ := plain
      refine ⟨place,same ▸ locates,fun present => ?_,(Except.ok.inj written).symm⟩
      rw [present] at noDirectory
      exact noDirectory rfl

theorem read_eq_ok {t : Text} : tree.read path = .ok t ↔
    ∃ place, tree.locate path = .ok place ∧ ∃ content, tree.node? place = some (.file content) ∧
      (String.fromUTF8? content).map String.toList = some t := by
  refine bind_eq_ok.trans (exists_congr fun place => and_congr_right fun _ => ?_)
  cases tree.node? place with
  | none => simp
  | some node =>
    cases node with
    | directory => simp
    | file content => cases h : String.fromUTF8? content <;> simp [h]

theorem read_file (place : Place) {s : String} (locates : tree.locate path = .ok place)
    (present : tree.node? place = some (.file s.toUTF8)) : tree.read path = .ok s.toList := by
  have decodes : String.fromUTF8? s.toUTF8 = some s := by
    rw [String.fromUTF8?,String.toUTF8_eq_toByteArray,dif_pos s.isValidUTF8]
    rfl
  exact read_eq_ok.mpr ⟨place,locates,_,present,by rw [decodes,Option.map_some]⟩

theorem has_of_read {t : Text} (reads : tree.read path = .ok t) : tree.has path = true := by
  obtain ⟨place,locates,content,present,-⟩ := read_eq_ok.mp reads
  simp [has,locates,present]

end FileTree

end CorpusQuery
