import CorpusQuery.Toml.Quoted

/-! The spelling of texts and keys. Of the ways to quote a text the first is taken that needs no
escapes: on one line between quotation marks or apostrophes, then on several lines. -/
namespace CorpusQuery.Toml

inductive Quotes where
  | basic | literal | basicLines | literalLines
  deriving DecidableEq

namespace Spelling

def hasTriple (quote : Char) : Text → Bool
  | a :: b :: c :: rest =>
    (a == quote && b == quote && c == quote) || hasTriple quote (b :: c :: rest)
  | _ => false

/-- The quotes between which a text stands on one line without escapes. -/
def onOneLine? (t : Text) : Option Quotes :=
  if t.any fun c => !isPlain c then none
  else if '"' ∉ t ∧ '\\' ∉ t then some .basic
  else if '\x27' ∉ t then some .literal
  else none

/-- The quotes between which a text stands on several lines without escapes. -/
def onLines? (t : Text) : Option Quotes :=
  if t.any fun c => c != '\n' && !isPlain c then none
  else if '\\' ∉ t ∧ !hasTriple '"' t then some .basicLines
  else if !hasTriple '\x27' t then some .literalLines
  else none

def quotes (t : Text) : Quotes :=
  match onOneLine? t,onLines? t with
  | some q,_ | none,some q => q
  | none,none => if '\n' ∈ t then .basicLines else .basic

def hexDigit (n : Nat) : Char :=
  if n < 10 then Char.ofNat ('0'.toNat + n) else Char.ofNat ('A'.toNat + (n - 10))

def escape (c : Char) : Text :=
  match c with
  | '\x08' => ['\\','b']
  | '\t' => ['\\','t']
  | '\n' => ['\\','n']
  | '\x0c' => ['\\','f']
  | '\r' => ['\\','r']
  | '\\' => ['\\','\\']
  | c =>
    if isPlain c then [c]
    else ['\\','u','0','0',hexDigit (c.toNat / 16),hexDigit (c.toNat % 16)]

def basic (t : Text) : Text := t.flatMap fun c => if c = '"' then ['\\','"'] else escape c

/-- What stands between quotation marks on several lines. They stay open until three quotation marks
in a row, so of those in the text only each third is escaped; `run` many stand right before. -/
def basicLines : (run : Nat) → Text → Text
  | _,[] => []
  | run,c :: rest =>
    if c = '"' then
      if run = 2 then '\\' :: '"' :: basicLines 0 rest else '"' :: basicLines (run + 1) rest
    else if c = '\n' then '\n' :: basicLines 0 rest
    else escape c ++ basicLines 0 rest

/-- A text with line breaks begins on a line of its own. -/
def opening (t : Text) : Text := if '\n' ∈ t then ['\n'] else []

def quoted (q : Quotes) (t : Text) : Text :=
  match q with
  | .basic => ['"'] ++ basic t ++ ['"']
  | .literal => ['\x27'] ++ t ++ ['\x27']
  | .basicLines => ['"','"','"'] ++ opening t ++ basicLines 0 t ++ ['"','"','"']
  | .literalLines => ['\x27','\x27','\x27'] ++ opening t ++ t ++ ['\x27','\x27','\x27']

def text (t : Text) : Text := quoted (quotes t) t

/-- A key has quotes only if it needs them, and stays on one line. -/
def key (t : Text) : Text :=
  if t ≠ [] ∧ t.all isBareKeyChar then t else quoted ((onOneLine? t).getD .basic) t

end Spelling

end CorpusQuery.Toml
