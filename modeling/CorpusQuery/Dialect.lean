import CorpusQuery.Parse

/-! The sublanguages in which a query may be typed, and the rules from which each is read. -/
namespace CorpusQuery

inductive Dialect where
  | basicExpression | attributeList | wordForm | lemmaEquivalent
  deriving DecidableEq

/-- A rule to begin with, and those to go on with where it stops. -/
structure StartRules where
  first : StartRule
  fallbacks : List StartRule := []
  deriving DecidableEq

/-- What a caller can get wrong when choosing how to read queries. -/
inductive ChoiceError where
  | noStartRules
  | unknownDialect (name : String)
  deriving DecidableEq

def ChoiceError.message : ChoiceError → String
  | .noStartRules => "highlighter needs at least one start rule"
  | .unknownDialect name => s!"unknown query dialect: {name}"

namespace StartRules

def toList (rules : StartRules) : List StartRule := rules.first :: rules.fallbacks

def ofList? : List StartRule → Except ChoiceError StartRules
  | [] => .error .noStartRules
  | first :: fallbacks => .ok ⟨first,fallbacks⟩

end StartRules

namespace Dialect

def all : List Dialect := [.basicExpression,.attributeList,.wordForm,.lemmaEquivalent]

def default : Dialect := .basicExpression

instance : Inhabited Dialect := ⟨default⟩

def name : Dialect → String
  | .basicExpression => "basic-expression"
  | .attributeList => "attribute-list"
  | .wordForm => "word-form"
  | .lemmaEquivalent => "lemma-equivalent"

def ofName? (name : String) : Except ChoiceError Dialect :=
  match all.find? (·.name == name) with
  | some dialect => .ok dialect
  | none => .error (.unknownDialect name)

/-- The rules of a dialect, the most specific first. -/
def startRules : Dialect → StartRules
  | .basicExpression => ⟨.query,[.withinContainingPart,.sequence,.regExpRaw]⟩
  | .attributeList => ⟨.attValList,[.regExpRaw]⟩
  | .wordForm => ⟨.phraseQuery,[.regExpRaw]⟩
  | .lemmaEquivalent => ⟨.regExpRaw,[]⟩

end Dialect

end CorpusQuery
