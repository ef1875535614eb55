import CorpusQuery.Text.Bytes
import CorpusQuery.Toml.Decimal

/-! The values of a TOML document. A table and an array remember how they came to be, which decides
whether later lines may add to them. -/
namespace CorpusQuery.Toml

/-- How a table came to be: written in braces, opened by its own header, implied by the header of a
table inside it, or implied by a dotted key. -/
inductive Origin where
  | inline | header | implied | dotted
  deriving DecidableEq

inductive Value where
  | string (t : Text)
  /-- A whole number; none when it is spelled as one and has no value, such as `0x` without digits. -/
  | integer (n : Option Int)
  /-- A number with a fraction or an exponent without its sign; none for an infinity or no number. -/
  | float (magnitude : Option Decimal)
  | boolean (b : Bool)
  /-- A date, a time or both, as it is spelled. -/
  | moment (spelling : Text)
  /-- An array in brackets, or a growing one whose tables have headers of their own. -/
  | array (growing : Bool) (items : List Value)
  | table (origin : Origin) (entries : List (Text × Value))

mutual

/-- Whether all numbers in a value can be held: whole ones have a value of 128 bits, with a sign or
without, and others do not become infinite. -/
def Value.fits : Value → Bool
  | .integer n => n.any fun n => -2 ^ 127 ≤ n && n < 2 ^ 128
  | .float magnitude => !magnitude.any Decimal.overflows
  | .array _ items => itemsFit items
  | .table _ entries => entriesFit entries
  | .string _ | .boolean _ | .moment _ => true

def itemsFit : List Value → Bool
  | [] => true
  | v :: rest => v.fits && itemsFit rest

def entriesFit : List (Text × Value) → Bool
  | [] => true
  | (_,v) :: rest => v.fits && entriesFit rest

end

/-- The keys of a table with their values, in the order of the document. -/
abbrev Entries := List (Text × Value)

namespace Entries

def find? (entries : Entries) (key : Text) : Option Value := List.lookup key entries

/-- Gives a key that is present another value. -/
def replace (entries : Entries) (key : Text) (v : Value) : Entries :=
  entries.map fun entry => if entry.1 = key then (key,v) else entry

/-- Changes the entries of the table at a path of keys, as a header may: tables on the way come to
be, and of a growing array the last table is meant. -/
def within (change : Entries → Option Entries) : List Text → Entries → Option Entries
  | [],entries => change entries
  | key :: path,entries =>
    match entries.find? key with
    | none => (within change path []).map fun sub => entries ++ [(key,.table .implied sub)]
    | some (.table .inline _) => none
    | some (.table origin sub) =>
      (within change path sub).map fun sub => entries.replace key (.table origin sub)
    | some (.array true items) =>
      match items.getLast? with
      | some (.table origin sub) => (within change path sub).map fun sub =>
          entries.replace key (.array true (items.dropLast ++ [.table origin sub]))
      | _ => none
    | some _ => none

/-- Adds a value under a dotted key. Each part but the last names a table, and the table that takes
the value is one that dotted keys made. -/
def add (key : Text) (v : Value) : List Text → Entries → Option Entries
  | [],entries => if (entries.find? key).isSome then none else some (entries ++ [(key,v)])
  | part :: path,entries =>
    match entries.find? part with
    | none => (add key v path []).map fun sub => entries ++ [(part,.table .dotted sub)]
    | some (.table .dotted sub) =>
      (add key v path sub).map fun sub => entries.replace part (.table .dotted sub)
    | some (.table .implied sub) =>
      if path = [] then none
      else (add key v path sub).map fun sub => entries.replace part (.table .implied sub)
    | some (.array true items) =>
      match items.getLast? with
      | some (.table origin sub) =>
        if path = [] then none
        else (add key v path sub).map fun sub =>
          entries.replace part (.array true (items.dropLast ++ [.table origin sub]))
      | _ => none
    | some _ => none

/-- Opens a table by its header. Only a table that was merely implied may be opened again. -/
def openTable (key : Text) (entries : Entries) : Option Entries :=
  match entries.find? key with
  | none => some (entries ++ [(key,.table .header [])])
  | some (.table .implied sub) => some (entries.replace key (.table .header sub))
  | some _ => none

/-- Opens the next table of a growing array. -/
def openNext (key : Text) (entries : Entries) : Option Entries :=
  let next := Value.table .header []
  match entries.find? key with
  | none => some (entries ++ [(key,.array true [next])])
  | some (.array true items) => some (entries.replace key (.array true (items ++ [next])))
  | some _ => none

end Entries

end CorpusQuery.Toml
