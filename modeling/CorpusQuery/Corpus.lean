import CorpusQuery.SortedMap

/-! The attributes and structures that a corpus has, and the questions asked about names. -/
namespace CorpusQuery

/-- What is known about the names that a query may use. -/
structure Vocabulary where
  hasStructure : String → Bool
  hasStructureAttribute : (structureName attributeName : String) → Bool
  hasAttribute : String → Bool
  /-- The attribute whose values may be edited by a click. -/
  isTagAttribute : String → Bool

namespace Vocabulary

/-- Accepts every name and knows no tag attribute. -/
def permissive : Vocabulary where
  hasStructure _ := true
  hasStructureAttribute _ _ := true
  hasAttribute _ := true
  isTagAttribute _ := false

end Vocabulary

/-- The names of one corpus. -/
structure Corpus where
  attributes : NameSet := .empty
  tagAttribute : Option String := none
  /-- The structures, each with its attributes. -/
  structures : SortedMap String NameSet := .empty
  deriving DecidableEq

namespace Corpus

def withTagAttribute (c : Corpus) (name : String) : Corpus := { c with tagAttribute := some name }

def withStructure (c : Corpus) (name : String) (attributes : NameSet) : Corpus :=
  { c with structures := c.structures.insert name attributes }

def vocabulary (c : Corpus) : Vocabulary where
  hasStructure name := c.structures.contains name
  hasStructureAttribute name attributeName :=
    (c.structures.find? name).any (·.contains attributeName)
  hasAttribute name := c.attributes.contains name
  isTagAttribute name := c.tagAttribute == some name

end Corpus

end CorpusQuery
