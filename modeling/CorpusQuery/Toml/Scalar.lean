import CorpusQuery.Toml.Quoted
import CorpusQuery.Toml.Value

/-! The unquoted values of TOML: booleans, numbers, dates and times. -/
namespace CorpusQuery.Toml

namespace Scalar

/-- Belongs to the spelling of an unquoted value: anything but spacing, line breaks and the marks that
separate keys and values. -/
def isScalarChar (c : Char) : Bool :=
  !isSpacing c && !(['\r','\n','#',',','=','[',']','\x7b','\x7d'].contains c)

/-- Digits with single underscores between them, without the underscores. -/
def digits? (isDigit : Char → Bool) : Text → Option Text
  | [] => none
  | [c] => if isDigit c then some [c] else none
  | c :: '_' :: rest => if isDigit c then (digits? isDigit rest).map (c :: ·) else none
  | c :: rest => if isDigit c then (digits? isDigit rest).map (c :: ·) else none

/-- The value of a digit up to `f`. -/
def digitValue (c : Char) : Nat :=
  if c.isDigit then c.toNat - '0'.toNat else c.toLower.toNat - 'a'.toNat + 10

def ofDigits (base : Nat) (digits : Text) : Nat :=
  digits.foldl (fun n c => base * n + digitValue c) 0

/-- A decimal number without a sign; only zero begins with a zero. -/
def decimal? (t : Text) : Option Nat :=
  match digits? Char.isDigit t with
  | some ('0' :: _ :: _) => none
  | found => found.map (ofDigits 10)

def splitSign : Text → Bool × Text
  | '-' :: rest => (true,rest)
  | '+' :: rest => (false,rest)
  | t => (false,t)

def isHexDigit (c : Char) : Bool :=
  c.isDigit || ('a' ≤ c && c ≤ 'f') || ('A' ≤ c && c ≤ 'F')

def isExponentMark (c : Char) : Bool := c == 'e' || c == 'E'

/-- Whether every underscore stands between two digits of some base. -/
def isGrouped : Text → Bool
  | [] => true
  | '_' :: _ => false
  | c :: '_' :: d :: rest => isHexDigit c && isHexDigit d && isGrouped (d :: rest)
  | _ :: rest => isGrouped rest

/-- Whether a text is spelled like a decimal number without a sign that has underscores. What stands
after the first of them need not be digits, but no point, exponent or blank may be there. -/
def isWhole (t : Text) : Bool :=
  t.head? != some '0' && t.head?.any Char.isDigit &&
    (t.dropWhile Char.isDigit).head? == some '_' && isGrouped t &&
    t.all fun c => c != '.' && c != ' ' && !isExponentMark c

/-- A whole number in another base than ten. Its digits may be missing. -/
def based? (base : Nat) (isDigit : Char → Bool) (t : Text) : Option Value :=
  if t = [] then some (.integer none)
  else (digits? isDigit t).map fun d => .integer (some (ofDigits base d))

def integer? : Text → Option Value
  | '0' :: 'x' :: t => based? 16 isHexDigit t
  | '0' :: 'o' :: t => based? 8 (fun c => '0' ≤ c && c ≤ '7') t
  | '0' :: 'b' :: t => based? 2 (fun c => c == '0' || c == '1') t
  | t =>
    let (negative,number) := splitSign t
    match decimal? number with
    | some n => some (.integer (some (if negative then -(n : Int) else n)))
    | none => if isWhole number then some (.integer none) else none

def places? : Text → Option Text
  | [] => some []
  | _ :: t => digits? Char.isDigit t

/-- An exponent after its mark, zero when there is no mark. -/
def exponent? : Text → Option Int
  | [] => some 0
  | _ :: t =>
    let (negative,number) := splitSign t
    (digits? Char.isDigit number).map fun d =>
      if negative then -(ofDigits 10 d : Int) else ofDigits 10 d

def magnitude? (t : Text) : Option Decimal := do
  let mantissa := t.takeWhile fun c => !isExponentMark c
  let scale := t.dropWhile fun c => !isExponentMark c
  let fraction := mantissa.dropWhile (· != '.')
  if fraction = [] ∧ scale = [] then none
  let whole ← decimal? (mantissa.takeWhile (· != '.'))
  let places ← places? fraction
  let exponent ← exponent? scale
  return ⟨whole * Nat.pow 10 places.length + ofDigits 10 places,exponent - (places.length : Int)⟩

/-- A number with a fraction, an exponent or both, an infinity, or no number. -/
def float? (t : Text) : Option Value :=
  let number := (splitSign t).2
  if number = "inf".toList ∨ number = "nan".toList then some (.float none)
  else (magnitude? number).map fun d => .float (some d)

/-- A number of exactly so many digits, and what follows it. -/
def fixed? (width : Nat) (t : Text) : Option (Nat × Text) :=
  let number := t.take width
  if number.length = width ∧ number.all Char.isDigit then some (ofDigits 10 number,t.drop width)
  else none

def skip? (c : Char) : Text → Option Text
  | d :: rest => if d = c then some rest else none
  | [] => none

def daysIn (year month : Nat) : Nat :=
  if month = 2 then if year % 4 = 0 ∧ (year % 100 ≠ 0 ∨ year % 400 = 0) then 29 else 28
  else if month = 4 ∨ month = 6 ∨ month = 9 ∨ month = 11 then 30
  else 31

def date? (t : Text) : Option Text := do
  let (year,t) ← fixed? 4 t
  let (month,t) ← fixed? 2 (← skip? '-' t)
  let (day,t) ← fixed? 2 (← skip? '-' t)
  if 1 ≤ month ∧ month ≤ 12 ∧ 1 ≤ day ∧ day ≤ daysIn year month then some t else none

def time? (t : Text) : Option Text := do
  let (hour,t) ← fixed? 2 t
  let (minute,t) ← fixed? 2 (← skip? ':' t)
  if 23 < hour ∨ 59 < minute then none
  match skip? ':' t with
  | none => some t
  | some t =>
    let (second,t) ← fixed? 2 t
    if 60 < second then none
    match skip? '.' t with
    | none => some t
    | some t => if (t.head?.any Char.isDigit) then some (t.dropWhile Char.isDigit) else none

/-- Whether a text is empty or the offset of a time from universal time. -/
def isOffset : Text → Bool
  | [] => true
  | ['Z'] | ['z'] => true
  | c :: t =>
    (c == '+' || c == '-') &&
    match fixed? 2 t with
    | none => false
    | some (hour,t) =>
      match (skip? ':' t).bind (fixed? 2) with
      | some (minute,[]) => hour ≤ 23 && minute ≤ 59
      | _ => false

def isMoment (t : Text) : Bool :=
  match date? t with
  | some [] => true
  | some (c :: rest) =>
    (c == 'T' || c == 't' || c == ' ') && (time? rest).any isOffset
  | none => time? t == some []

def ofSpelling? (t : Text) : Option Value :=
  if t = "true".toList then some (.boolean true)
  else if t = "false".toList then some (.boolean false)
  else integer? t <|> float? t <|> if isMoment t then some (.moment t) else none

/-- Goes on with the spelling of an unquoted value after spacing. -/
def isWordStart (c : Char) : Bool := isScalarChar c && c != '.' && c != '"' && c != '\x27'

/-- The spelling of an unquoted value at the start of a text, and what follows it. Spacing belongs to
it where a word follows, as a time does after a date. -/
def split : Text → Text × Text
  | [] => ([],[])
  | c :: rest =>
    if isScalarChar c || (isSpacing c && (rest.dropWhile isSpacing).head?.any isWordStart) then
      let (spelling,left) := split rest
      (c :: spelling,left)
    else ([],c :: rest)

end Scalar

end CorpusQuery.Toml
