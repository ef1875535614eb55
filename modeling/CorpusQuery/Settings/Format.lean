import CorpusQuery.Settings
import CorpusQuery.Toml.Document
import CorpusQuery.Toml.Section

/-! Settings and corpora as TOML. Reading takes a default for each key that is missing and passes
over unknown keys; a value of the wrong kind, and a number that does not fit, makes the whole document
unreadable. -/
namespace CorpusQuery

open Toml

/-- A part of the wording with the key that it is written under. -/
structure WordingField where
  key : String
  get : Wording → String
  set : String → Wording → Wording

def Wording.fields : List WordingField := [
  ⟨"attribute",(·.attributeName),fun s w => { w with attributeName := s }⟩,
  ⟨"structure",(·.structureName),fun s w => { w with structureName := s }⟩,
  ⟨"structure_attribute",(·.structureAttribute),fun s w => { w with structureAttribute := s }⟩,
  ⟨"attribute_missing",(·.attributeMissing),fun s w => { w with attributeMissing := s }⟩,
  ⟨"structure_missing",(·.structureMissing),fun s w => { w with structureMissing := s }⟩,
  ⟨"structure_attribute_missing",(·.structureAttributeMissing),
    fun s w => { w with structureAttributeMissing := s }⟩,
  ⟨"unrecognized_input",(·.unrecognizedInput),fun s w => { w with unrecognizedInput := s }⟩,
  ⟨"end_of_input",(·.endOfInput),fun s w => { w with endOfInput := s }⟩,
  ⟨"column",(·.column),fun s w => { w with column := s }⟩]

namespace Settings.Format

def text? : Value → Option Text
  | .string t => some t
  | _ => none

def string? (v : Value) : Option String := (text? v).map String.ofList

def boolean? : Value → Option Bool
  | .boolean b => some b
  | _ => none

def names? : Value → Option NameSet
  | .array _ items => (items.mapM string?).map NameSet.ofNames
  | _ => none

/-- The values of a record by key. A table names them, and what it holds beside them must fit; an array
lists them in the order of the keys, whatever follows; a date or a time holds none of them. -/
def record? (keys : List String) : Value → Option (String → Option Value)
  | .table _ entries =>
    if entriesFit (entries.filter fun entry => !keys.any (·.toList == entry.1)) then
      some fun key => Entries.find? entries key.toList
    else none
  | .array _ items => some fun key => (keys.idxOf? key).bind (items[·]?)
  | .moment _ => some fun _ => none
  | _ => none

/-- A missing value has a default, which a value that cannot be read does not fall back to. -/
def orDefault {α : Type} (read : Value → Option α) (default : α) : Option Value → Option α
  | none => some default
  | some v => read v

def isEmpty : Value → Bool
  | .array _ [] | .table _ [] => true
  | _ => false

/-- A dialect by its name, or as a table whose only key is the name and has nothing in it. -/
def dialect? : Value → Option Dialect
  | .string name => (Dialect.ofName? (String.ofList name)).toOption
  | .table _ [(name,v)] =>
    if isEmpty v then (Dialect.ofName? (String.ofList name)).toOption else none
  | _ => none

/-- The dialect, and whether long queries are wrapped. -/
def highlight? (v : Value) : Option (Dialect × Bool) := do
  let field ← record? ["dialect","long_wrap"] v
  return (← orDefault dialect? .default (field "dialect"),
    ← orDefault boolean? true (field "long_wrap"))

def wording? (v : Value) : Option Wording := do
  let field ← record? (Wording.fields.map (·.key)) v
  Wording.fields.foldlM (fun w part =>
    orDefault (fun v => (string? v).map fun s => part.set s w) w (field part.key)) {}

def structures? : Value → Option (SortedMap String NameSet)
  | .table _ entries =>
    (entries.mapM fun (name,v) => (names? v).map (String.ofList name,·)).map SortedMap.ofList
  | _ => none

def corpus? (v : Value) : Option Corpus := do
  let field ← record? ["attributes","tag_attribute","structures"] v
  return {
    attributes := ← orDefault names? .empty (field "attributes")
    tagAttribute := ← orDefault (fun v => (string? v).map some) none (field "tag_attribute")
    structures := ← orDefault structures? .empty (field "structures") }

def settings? (v : Value) : Option Settings := do
  let field ← record? ["schema_path","highlight","labels","corpus"] v
  let (dialect,wrapLines) ← orDefault highlight? (.default,true) (field "highlight")
  return {
    corpusPath := ← orDefault (fun v => (text? v).map some) none (field "schema_path")
    dialect
    wrapLines
    wording := ← orDefault wording? {} (field "labels")
    corpus := ← orDefault (fun v => (corpus? v).map some) none (field "corpus") }

def pair (key : String) (item : Item) : Text × Item := (key.toList,item)

def names (set : NameSet) : Item := .texts (set.keys.map String.toList)

/-- A corpus is written as a table, with the structures in a table of their own inside it. -/
def corpusSections (c : Corpus) : List Section := [
  { path := ["corpus".toList]
    pairs := pair "attributes" (names c.attributes) ::
      c.tagAttribute.toList.map fun name => pair "tag_attribute" (.text name.toList) },
  { path := ["corpus".toList,"structures".toList]
    pairs := c.structures.entries.map fun (name,set) => pair name (names set) }]

/-- The sections of written settings. The root table is left out when it has no keys. -/
def sections (s : Settings) : List Section :=
  (s.corpusPath.toList.map fun path => { pairs := [pair "schema_path" (.text path)] }) ++
  [{ path := ["highlight".toList]
     pairs := [pair "dialect" (.text s.dialect.name.toList),pair "long_wrap" (.boolean s.wrapLines)] },
   { path := ["labels".toList]
     pairs := Wording.fields.map fun part => pair part.key (.text (part.get s.wording).toList) }] ++
  s.corpus.toList.flatMap corpusSections

end Settings.Format

/-- The settings that a TOML document spells. -/
def Settings.read? (t : Text) : Option Settings :=
  (Toml.read t).bind fun entries => Settings.Format.settings? (.table .header entries)

/-- The corpus that a TOML document of its own spells. -/
def Corpus.read? (t : Text) : Option Corpus :=
  (Toml.read t).bind fun entries => Settings.Format.corpus? (.table .header entries)

def Settings.written (s : Settings) : Text := Section.document (Settings.Format.sections s)

end CorpusQuery
