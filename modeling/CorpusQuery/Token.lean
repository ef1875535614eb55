import CorpusQuery.Symbol
import CorpusQuery.Text.Bytes

/-! The tokens of a query. Their texts concatenate to the query, so a position among the tokens
is also a byte offset, and no token needs to carry its own. -/
namespace CorpusQuery

structure Token where
  kind : Terminal
  text : Text
  deriving DecidableEq

/-- White space between tokens: blank, tab and the two line-break characters. -/
def isBlank (c : Char) : Bool := c == ' ' || c == '\t' || c == '\r' || c == '\n'

def isNameStart (c : Char) : Bool := c.isAlpha || c == '_'

def isNameChar (c : Char) : Bool := isNameStart c || c.isDigit

def isForeign (c : Char) : Bool := 0x7f < c.val

/-- The token that consists of one ASCII character. -/
def Terminal.ofMark : Char → Terminal
  | '[' => .lBracket
  | ']' => .rBracket
  | '(' => .lParen
  | ')' => .rParen
  | '{' => .lBrace
  | '}' => .rBrace
  | '<' => .lt
  | '>' => .gt
  | '/' => .slash
  | '"' => .quote
  | '\\' => .backslash
  | '=' => .eq
  | '!' => .not
  | '&' => .amp
  | '|' => .pipe
  | '*' => .star
  | '+' => .plus
  | '?' => .question
  | ',' => .comma
  | ';' => .semicolon
  | _ => .unknown

/-- A name is an identifier unless it is spelled like one of the four keywords. -/
def Terminal.ofName (name : Text) : Terminal :=
  if name = "within".toList then .kwWithin
  else if name = "containing".toList then .kwContaining
  else if name = "meet".toList then .kwMeet
  else if name = "union".toList then .kwUnion
  else .ident

namespace Token

/-- How a character begins a token. -/
inductive Opening where
  | blank | name | number | foreign | bang | mark
  deriving DecidableEq

/-- A minus sign belongs to a number only when a digit follows it. -/
def opening (c : Char) (rest : Text) : Opening :=
  if isBlank c then .blank
  else if isNameStart c then .name
  else if c.isDigit || (c == '-' && rest.head?.any Char.isDigit) then .number
  else if isForeign c then .foreign
  else if c == '!' && rest.head? == some '=' then .bang
  else .mark

/-- The characters after the first that belong to the same token. -/
def tail (c : Char) (rest : Text) : Text :=
  match opening c rest with
  | .blank => rest.takeWhile isBlank
  | .name => rest.takeWhile isNameChar
  | .number => rest.takeWhile Char.isDigit
  | .foreign => rest.takeWhile isForeign
  | .bang => rest.take 1
  | .mark => []

/-- The first token of a text that starts with `c`. -/
def first (c : Char) (rest : Text) : Token where
  text := c :: tail c rest
  kind := match opening c rest with
    | .blank => .whitespace
    | .name => .ofName (c :: tail c rest)
    | .number => .number
    | .foreign => .text
    | .bang => .notEq
    | .mark => .ofMark c

end Token

/-- The tokens of a text, each the longest one that starts where the one before ends. -/
def tokenize : Text → List Token
  | [] => []
  | c :: rest => Token.first c rest :: tokenize (rest.drop (Token.tail c rest).length)
termination_by t => t.length
decreasing_by
  rw [List.length_drop,List.length_cons]
  omega

namespace Token

def byteLength (token : Token) : Nat := Text.byteLength token.text

def span : List Token → Nat
  | [] => 0
  | token :: rest => token.byteLength + span rest

@[simp] theorem span_nil : span [] = 0 := rfl

@[simp] theorem span_cons (token : Token) (rest : List Token) :
    span (token :: rest) = token.byteLength + span rest := rfl

@[simp] theorem span_append (front back : List Token) :
    span (front ++ back) = span front + span back := by
  induction front with
  | nil => simp
  | cons token rest ih => simp [ih,Nat.add_assoc]

/-- Each token with the byte offset at which it starts, when the first starts at `offset`. -/
def located (offset : Nat) : List Token → List (Nat × Token)
  | [] => []
  | token :: rest => (offset,token) :: located (offset + token.byteLength) rest

/-- What follows the first character of a token is at the front of what follows it in the text. -/
theorem tail_append_drop (c : Char) (rest : Text) :
    tail c rest ++ rest.drop (tail c rest).length = rest := by
  have run (p : Char → Bool) : rest.takeWhile p ++ rest.drop (rest.takeWhile p).length = rest := by
    rw [← List.prefix_iff_eq_append]
    exact List.takeWhile_prefix p
  unfold tail
  cases opening c rest with
  | blank => exact run _
  | name => exact run _
  | number => exact run _
  | foreign => exact run _
  | bang => cases rest <;> simp
  | mark => simp

theorem flatMap_text_tokenize (t : Text) : (tokenize t).flatMap Token.text = t := by
  fun_induction tokenize t with
  | case1 => rfl
  | case2 c rest ih =>
    simp only [List.flatMap_cons,ih,first,List.cons_append]
    rw [tail_append_drop]

end Token

end CorpusQuery
