import CorpusQuery.Toml.Spelling

/-! Writes a TOML document section by section. A section is the root table or a table under a
header, and its pairs stand one below the other. -/
namespace CorpusQuery.Toml

/-- What may stand after a key. -/
inductive Item where
  | boolean (b : Bool)
  | text (t : Text)
  | texts (items : List Text)

structure Section where
  /-- The keys of the header, none for the root table. -/
  path : List Text := []
  pairs : List (Text × Item)

namespace Item

def line (t : Text) : Text := "    ".toList ++ Spelling.text t ++ [',','\n']

/-- Two or more texts stand on lines of their own. -/
def written : Item → Text
  | .boolean true => "true".toList
  | .boolean false => "false".toList
  | .text t => Spelling.text t
  | .texts [] => ['[',']']
  | .texts [t] => ['['] ++ Spelling.text t ++ [']']
  | .texts items => ['[','\n'] ++ items.flatMap line ++ [']']

end Item

namespace Section

def pair (p : Text × Item) : Text := Spelling.key p.1 ++ " = ".toList ++ p.2.written ++ ['\n']

def header : List Text → Text
  | [] => []
  | path => ['['] ++ ['.'].intercalate (path.map Spelling.key) ++ [']','\n']

def written (s : Section) : Text := header s.path ++ s.pairs.flatMap pair

def document (sections : List Section) : Text := ['\n'].intercalate (sections.map written)

end Section

end CorpusQuery.Toml
