import CorpusQuery.Text.Bytes
import CorpusQuery.Text.Invisible

/-! Characters and texts in quotes, as messages and log lines show them. What would not be seen, or
would be mistaken for the closing quote, is written as an escape. -/
namespace CorpusQuery.Quoted

def escape (quote c : Char) : Text :=
  if c = '\x00' then ['\\','0']
  else if c = '\t' then ['\\','t']
  else if c = '\n' then ['\\','n']
  else if c = '\r' then ['\\','r']
  else if c = quote || c = '\\' then ['\\',c]
  else if isInvisible c then "\\u\x7b".toList ++ Nat.toDigits 16 c.toNat ++ ['}']
  else [c]

def char (c : Char) : String := String.ofList ('\x27' :: escape '\x27' c ++ ['\x27'])

def text (t : Text) : String := String.ofList ('"' :: t.flatMap (escape '"') ++ ['"'])

end CorpusQuery.Quoted
