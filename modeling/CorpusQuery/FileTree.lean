import CorpusQuery.Text.Bytes

/-! Files and directories below one root, with a working directory that relative paths start from. -/
namespace CorpusQuery

inductive FileError where
  | notFound | alreadyExists | notADirectory | isADirectory | invalidText
  deriving DecidableEq

def FileError.message : FileError → String
  | .notFound => "No such file or directory (os error 2)"
  | .alreadyExists => "File exists (os error 17)"
  | .notADirectory => "Not a directory (os error 20)"
  | .isADirectory => "Is a directory (os error 21)"
  | .invalidText => "stream did not contain valid UTF-8"

inductive FileNode where
  | file (content : ByteArray)
  | directory

def FileNode.isDirectory : FileNode → Bool
  | .file _ => false
  | .directory => true

/-- The names that lead from the root to a file or a directory. -/
abbrev Place := List Text

structure FileTree where
  workingDirectory : Place
  nodes : List (Place × FileNode)

namespace FileTree

def node? (tree : FileTree) (place : Place) : Option FileNode :=
  if place = [] then some .directory else tree.nodes.lookup place

def put (tree : FileTree) (place : Place) (node : FileNode) : FileTree :=
  { tree with nodes := (place,node) :: tree.nodes.filter (·.1 ≠ place) }

@[simp] theorem node?_put_same (tree : FileTree) {place : Place} (named : place ≠ [])
    (node : FileNode) : (tree.put place node).node? place = some node := by
  simp [node?,put,named]

theorem lookup_filter_ne (nodes : List (Place × FileNode)) {place other : Place}
    (apart : other ≠ place) :
    (nodes.filter (·.1 ≠ place)).lookup other = nodes.lookup other := by
  induction nodes with
  | nil => rfl
  | cons head rest ih =>
    by_cases same : head.1 = place
    · have skip : (other == head.1) = false := by simpa [same] using apart
      rw [List.filter_cons_of_neg (by simp [same]),ih,List.lookup_cons,skip]
    · rw [List.filter_cons_of_pos (by simp [same]),List.lookup_cons,List.lookup_cons,ih]

theorem node?_put_other (tree : FileTree) {place other : Place} (apart : other ≠ place)
    (node : FileNode) : (tree.put place node).node? other = tree.node? other := by
  have skip : (other == place) = false := by simpa using apart
  unfold node? put
  rw [List.lookup_cons,skip]
  simp only [lookup_filter_ne tree.nodes apart]

/-- The names in a path, with an empty one beside each slash that has no name there. -/
def names : Text → List Text
  | [] => [[]]
  | c :: rest =>
    if c = '/' then [] :: names rest
    else match names rest with
      | [] => [[c]]
      | name :: later => (c :: name) :: later

def origin (tree : FileTree) (path : Text) : Place :=
  if path.head? = some '/' then [] else tree.workingDirectory

def isHere (name : Text) : Bool := name = [] ∨ name = ['.']

/-- Where a name leads from a directory. Nothing is above the root. -/
def follow (place : Place) (name : Text) : Place :=
  if isHere name then place else if name = ['.','.'] then place.dropLast else place ++ [name]

/-- A place where there must be a directory. -/
def directory (tree : FileTree) (place : Place) : Except FileError Place :=
  match tree.node? place with
  | none => .error .notFound
  | some (.file _) => .error .notADirectory
  | some .directory => .ok place

def enter (tree : FileTree) : Place → List Text → Except FileError Place
  | place,[] => tree.directory place
  | place,name :: later => do tree.enter (follow (← tree.directory place) name) later

/-- The place that a path means. Whether anything is there is another question, but all names before
the last one are directories. -/
def locate (tree : FileTree) (path : Text) : Except FileError Place := do
  if path = [] then throw .notFound
  let parts := names path
  let place ← tree.enter (tree.origin path) parts.dropLast
  return follow place (parts.getLastD [])

def has (tree : FileTree) (path : Text) : Bool :=
  match tree.locate path with
  | .ok place => (tree.node? place).isSome
  | .error _ => false

def read (tree : FileTree) (path : Text) : Except FileError Text := do
  match tree.node? (← tree.locate path) with
  | none => .error .notFound
  | some .directory => .error .isADirectory
  | some (.file content) =>
    match String.fromUTF8? content with
    | some s => .ok s.toList
    | none => .error .invalidText

def makeDirectory (tree : FileTree) (start : Place) (names : List Text) :
    Except FileError FileTree := do
  let place := follow (← tree.enter start names.dropLast) (names.getLastD [])
  if (tree.node? place).isSome then throw .alreadyExists
  return tree.put place .directory

/-- A directory that could not be made does no harm where there is one. -/
def orPresent (tree : FileTree) (start : Place) (names : List Text) (e : FileError) :
    Except FileError FileTree :=
  match tree.enter start names with
  | .ok _ => .ok tree
  | .error _ => .error e

/-- Makes a directory, given by its names from the last to the first. When the way to it is missing, the
directory above it is made first. -/
def makeDirectories (tree : FileTree) (start : Place) : List Text → Except FileError FileTree
  | [] => .ok tree
  | name :: above =>
    let names := (name :: above).reverse
    match tree.makeDirectory start names with
    | .ok tree => .ok tree
    | .error .notFound => do
      let tree ← tree.makeDirectories start above
      match tree.makeDirectory start names with
      | .ok tree => .ok tree
      | .error e => tree.orPresent start names e
    | .error e => tree.orPresent start names e

/-- Makes the directories above a path. -/
def makeParents (tree : FileTree) (path : Text) : Except FileError FileTree :=
  tree.makeDirectories (tree.origin path) ((names path).filter (!isHere ·)).dropLast.reverse

def trimSlashes (path : Text) : Text := (path.reverse.dropWhile (· == '/')).reverse

/-- Writes a file, over one that may be there. A path that ends with a slash is one of a directory,
even when there is none. -/
def write (tree : FileTree) (path : Text) (content : ByteArray) : Except FileError FileTree := do
  let trimmed := trimSlashes path
  if path ≠ [] ∧ trimmed = [] then throw .isADirectory
  let place ← tree.locate trimmed
  if trimmed ≠ path ∨ (tree.node? place).any FileNode.isDirectory then throw .isADirectory
  return tree.put place (.file content)

def filesBelow (tree : FileTree) (place : Place) : List (Place × ByteArray) :=
  tree.nodes.filterMap fun (p,node) =>
    match node with
    | .file content => if place.isPrefixOf p then some (p.drop place.length,content) else none
    | .directory => none

end FileTree

end CorpusQuery
