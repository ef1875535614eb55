import CorpusQuery.Text.Bytes

/-! The four ways to quote a text in TOML. The readers begin after the opening quotes and return
the text with what follows the closing ones. -/
namespace CorpusQuery.Toml

/-- May stand in quotes and comments as it is: anything but control characters; a tab may. -/
def isPlain (c : Char) : Bool := c == '\t' || (0x20 ≤ c.val && c.val != 0x7f)

def isSpacing (c : Char) : Bool := c == ' ' || c == '\t'

def isBareKeyChar (c : Char) : Bool := c.isAlphanum || c == '_' || c == '-'

namespace Quoted

def hexValue? (c : Char) : Option Nat :=
  if c.isDigit then some (c.toNat - '0'.toNat)
  else if 'a' ≤ c ∧ c ≤ 'f' then some (c.toNat - 'a'.toNat + 10)
  else if 'A' ≤ c ∧ c ≤ 'F' then some (c.toNat - 'A'.toNat + 10)
  else none

def ofHex? (digits : Text) : Option Char := do
  let n ← digits.foldlM (fun n c => (hexValue? c).map (16 * n + ·)) 0
  if n.isValidChar then some (Char.ofNat n) else none

def letter? : Char → Option Char
  | 'b' => some '\x08'
  | 't' => some '\t'
  | 'n' => some '\n'
  | 'f' => some '\x0c'
  | 'r' => some '\r'
  | 'e' => some '\x1b'
  | '"' => some '"'
  | '\\' => some '\\'
  | _ => none

/-- The number of digits after a letter that begins a code point. -/
def digits? : Char → Option Nat
  | 'x' => some 2
  | 'u' => some 4
  | 'U' => some 8
  | _ => none

/-- The character that an escape means, given what follows its backslash, and the number of
characters that the escape takes from there. -/
def escape? : Text → Option (Char × Nat)
  | [] => none
  | c :: rest =>
    match letter? c,digits? c with
    | some d,_ => some (d,1)
    | none,some n =>
      if rest.length < n then none else (ofHex? (rest.take n)).map fun d => (d,n + 1)
    | none,none => none

def basic : Text → Option (Text × Text)
  | [] => none
  | c :: rest =>
    if c = '"' then some ([],rest)
    else if c = '\\' then
      match escape? rest with
      | none => none
      | some (d,n) => (basic (rest.drop n)).map fun (t,left) => (d :: t,left)
    else if isPlain c then (basic rest).map fun (t,left) => (c :: t,left)
    else none
termination_by t => t.length
decreasing_by all_goals simp; try omega

/-- A text between apostrophes, in which nothing is escaped. -/
def literal : Text → Option (Text × Text)
  | [] => none
  | c :: rest =>
    if c = '\x27' then some ([],rest)
    else if isPlain c then (literal rest).map fun (t,left) => (c :: t,left)
    else none

def newline? : Text → Option Text
  | '\n' :: rest => some rest
  | '\r' :: '\n' :: rest => some rest
  | _ => none

/-- A line break right after the opening quotes does not count. -/
def trimStart (t : Text) : Text := (newline? t).getD t

/-- Three or more quotes close a text of several lines. Up to two of them still belong to it. -/
def closing? (quote : Char) (t : Text) : Option (Text × Text) :=
  let count := (t.takeWhile (· == quote)).length
  if count < 3 then none
  else
    let kept := min (count - 3) 2
    some (t.take kept,t.drop (kept + 3))

/-- Whether only blanks stand before the next line break, as after a backslash at the end of a line. -/
def endsLine (t : Text) : Bool := (newline? (t.dropWhile isSpacing)).isSome

/-- May stand in a text of several lines before `rest`. Line breaks of either form are kept. -/
def isInLines (c : Char) (rest : Text) : Bool :=
  c == '\n' || isPlain c || (c == '\r' && rest.head? == some '\n')

def skipSpace : Text → Text
  | '\r' :: '\n' :: rest => skipSpace rest
  | c :: rest => if c = ' ' ∨ c = '\t' ∨ c = '\n' then skipSpace rest else c :: rest
  | [] => []

theorem length_skipSpace_le (t : Text) : (skipSpace t).length ≤ t.length := by
  fun_induction skipSpace t with
  | case1 rest ih => simp; omega
  | case2 c rest _ _ ih => simp; omega
  | case3 => simp
  | case4 => simp

/-- A text of several lines between three quotation marks. A backslash at the end of a line joins it
to the next character that is not white space. -/
def basicLines (t : Text) : Option (Text × Text) :=
  match closing? '"' t with
  | some done => some done
  | none =>
    match t with
    | [] => none
    | c :: rest =>
      if c = '\\' then
        if endsLine rest then basicLines (skipSpace rest)
        else
          match escape? rest with
          | none => none
          | some (d,n) => (basicLines (rest.drop n)).map fun (t,left) => (d :: t,left)
      else if c = '"' || isInLines c rest then
        (basicLines rest).map fun (t,left) => (c :: t,left)
      else none
termination_by t.length
decreasing_by
  all_goals
    have := length_skipSpace_le rest
    simp; try omega

/-- A text of several lines between three apostrophes. -/
def literalLines (t : Text) : Option (Text × Text) :=
  match closing? '\x27' t with
  | some done => some done
  | none =>
    match t with
    | [] => none
    | c :: rest =>
      if isInLines c rest then (literalLines rest).map fun (t,left) => (c :: t,left) else none

def read (t : Text) : Option (Text × Text) :=
  match t with
  | '"' :: '"' :: '"' :: rest => basicLines (trimStart rest)
  | '\x27' :: '\x27' :: '\x27' :: rest => literalLines (trimStart rest)
  | '"' :: rest => basic rest
  | '\x27' :: rest => literal rest
  | _ => none

end Quoted

end CorpusQuery.Toml
