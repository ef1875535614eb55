import CorpusQuery.Text.Alphanumeric
import CorpusQuery.Text.Bytes

/-! The home directory and the variables of a user, and the paths that are written with them. -/
namespace CorpusQuery

structure Environment where
  home : Text
  «variables» : List (Text × Text) := []

/-- A part of a path as it is written. -/
inductive PathPart where
  | plain (c : Char)
  /-- A variable, and what stands for it when it is not set. -/
  | reference (name : Text) (default : Option Text)
  deriving DecidableEq

namespace PathPart

def isNameChar (c : Char) : Bool := isAlphanumeric c || c == '_'

def splitDefault? : Text → Option (Text × Text)
  | [] => none
  | ':' :: '-' :: rest => some ([],rest)
  | c :: rest => (splitDefault? rest).map fun (name,default) => (c :: name,default)

def ofBraces (body : Text) : PathPart :=
  match splitDefault? body with
  | none | some ([],_) => .reference body none
  | some (name,default) => .reference name (some default)

/-- The parts of a path. Two dollar signs stand for one, and a dollar sign that begins no variable
stands for itself. -/
def ofText : Text → List PathPart
  | [] => []
  | c :: rest =>
    if c ≠ '$' then plain c :: ofText rest
    else if rest.head? = some '$' then plain '$' :: ofText rest.tail
    else if rest.head? = some '{' then
      let body := rest.tail.takeWhile (· != '}')
      let after := rest.tail.dropWhile (· != '}')
      if after = [] then plain '$' :: plain '{' :: ofText rest.tail
      else ofBraces body :: ofText after.tail
    else
      let name := rest.takeWhile isNameChar
      if name = [] then plain '$' :: ofText rest
      else reference name none :: ofText (rest.dropWhile isNameChar)
termination_by t => t.length
decreasing_by
  all_goals
    have braces := (List.dropWhile_sublist (l := rest.tail) (· != '}')).length_le
    have bare := (List.dropWhile_sublist (l := rest) isNameChar).length_le
    simp only [List.length_tail,List.length_cons] at *; omega

end PathPart

namespace Environment

def lookup (e : Environment) (name : Text) : Option Text :=
  if name = "HOME".toList then some e.home else e.variables.lookup name

def value? (e : Environment) : PathPart → Option Text
  | .plain c => some [c]
  | .reference name default => e.lookup name <|> default

/-- A path with the values of its variables; none when one is neither set nor has a default. -/
def expandVariables? (e : Environment) (path : Text) : Option Text :=
  ((PathPart.ofText path).mapM e.value?).map List.flatten

/-- A tilde for the first directory of a path stands for the home directory. -/
def expandHome (e : Environment) (path : Text) : Text :=
  match path with
  | ['~'] => e.home
  | '~' :: '/' :: rest => e.home ++ '/' :: rest
  | _ => path

/-- The place that a written path means. A tilde that came out of a variable is a plain character. -/
def expand? (e : Environment) (path : Text) : Option Text :=
  (e.expandVariables? path).map fun expanded =>
    if path.head? = some '~' ∨ expanded.head? ≠ some '~' then e.expandHome expanded else expanded

end Environment

end CorpusQuery
