import CorpusQuery.Environment
import CorpusQuery.FileTree
import CorpusQuery.Settings.Format

/-! Loads settings from files and saves them. -/
namespace CorpusQuery

/-- Why settings could not be loaded. -/
inductive LoadError where
  | unreadable (path : Text) (e : FileError)
  | malformed (path : Text)
  | corpusUnreadable (path : Text) (e : FileError)
  | corpusMalformed (path : Text)
  deriving DecidableEq

/-- What to tell the user; of malformed files only which it is. -/
def LoadError.message : LoadError → String
  | .unreadable path e => s!"Failed to read config file at {String.ofList path}: {e.message}"
  | .malformed path => s!"Failed to parse config file at {String.ofList path}"
  | .corpusUnreadable path e =>
    s!"Failed to read corpus schema at {String.ofList path}: {e.message}"
  | .corpusMalformed path => s!"Failed to parse corpus schema at {String.ofList path}"

/-- The corpus that a file of its own describes. -/
def Corpus.load (tree : FileTree) (path : Text) : Except LoadError Corpus :=
  match tree.read path with
  | .error e => .error (.corpusUnreadable path e)
  | .ok t =>
    match Corpus.read? t with
    | none => .error (.corpusMalformed path)
    | some c => .ok c

namespace Settings

def defaultPath (e : Environment) : Text :=
  e.expandHome "~/.config/cql-highlight".toList ++ "/config.toml".toList

/-- Settings with the place that their path means. A path that has no such place is kept. -/
def expandPath (e : Environment) (s : Settings) : Settings :=
  { s with corpusPath := s.corpusPath.map fun path => (e.expand? path).getD path }

/-- Reads the file that describes the corpus, unless the settings describe it themselves. -/
def loadCorpus (tree : FileTree) (s : Settings) : Except LoadError Settings :=
  match s.corpus,s.corpusPath with
  | none,some path => (Corpus.load tree path).map fun c => { s with corpusRead := some c }
  | _,_ => .ok s

/-- The settings in a file, none when there is no such file. -/
def load (tree : FileTree) (e : Environment) (path : Text) : Except LoadError (Option Settings) :=
  if !tree.has path then .ok none
  else
    match tree.read path with
    | .error error => .error (.unreadable path error)
    | .ok t =>
      match Settings.read? t with
      | none => .error (.malformed path)
      | some s => (loadCorpus tree (s.expandPath e)).map some

def loadLog (tree : FileTree) (path : Text) : List LogRecord :=
  if tree.has path then [] else [.noConfig path]

/-- Writes settings to a file in a directory that is made if need be. -/
def save (tree : FileTree) (s : Settings) (path : Text) : Except FileError FileTree := do
  (← tree.makeParents path).write path (String.ofList s.written).toUTF8

end Settings

end CorpusQuery
