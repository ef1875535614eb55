import CorpusQuery.Symbol
import CorpusQuery.Text.Bytes

/-! Marked-up text as a list of fragments, and the HTML that the fragments stand for. Every text
and every attribute value is escaped exactly once, when it becomes HTML. -/
namespace CorpusQuery

inductive Style where
  | operator | bracket | keyword | attributeName | regExp | structureTag
  deriving DecidableEq

def Style.cssClass : Style → String
  | .operator => "sh-operator"
  | .bracket => "sh-bracket"
  | .keyword => "sh-keyword"
  | .attributeName => "sh-attr"
  | .regExp => "sh-regexp"
  | .structureTag => "sh-struct"

/-- The style of a terminal. White space, semicolons and unknown characters have none. -/
def Terminal.style? : Terminal → Option Style
  | .whitespace | .semicolon | .unknown => none
  | .lBracket | .rBracket | .lParen | .rParen | .lBrace | .rBrace => some .bracket
  | .lt | .gt | .slash => some .structureTag
  | .eq | .notEq | .not | .amp | .pipe | .star | .plus | .question | .comma | .number =>
    some .operator
  | .kwWithin | .kwContaining | .kwMeet | .kwUnion => some .keyword
  | .ident | .attrChars => some .attributeName
  | .quote | .backslash | .text | .regExpChars | .regExpEscape => some .regExp

/-- The start of a span around other fragments. -/
inductive Wrapper where
  | tooltip (title : Text)
  /-- Offers the characters `left` to `right` of the query for editing. -/
  | clickable (kind : Text) (left right : Nat)
  deriving DecidableEq

inductive Fragment where
  | styled (style : Option Style) (text : Text)
  | opening (w : Wrapper)
  | closing
  | lineBreak
  | unrecognized (title text : Text)
  deriving DecidableEq

abbrev Markup := List Fragment

namespace Markup

def escapeChar : Char → Text
  | '&' => "&amp;".toList
  | '<' => "&lt;".toList
  | '>' => "&gt;".toList
  | '"' => "&quot;".toList
  | c => [c]

/-- The text as content of an element or as a value between quotation marks. -/
def escape (t : Text) : Text := t.flatMap escapeChar

def closeSpan : Text := "</span>".toList

def lineBreak : Text := "<br />".toList

def classSpan (cssClass : String) (attributes : Text) : Text :=
  "<span class=\"".toList ++ cssClass.toList ++ ['"'] ++ attributes ++ ['>']

def tagAttribute (name : String) (value : Text) : Text :=
  ' ' :: name.toList ++ "=\"".toList ++ escape value ++ ['"']

def number (n : Nat) : Text := Nat.toDigits 10 n

end Markup

open Markup

def Wrapper.html : Wrapper → Text
  | .tooltip title => classSpan "sh-tooltip" (tagAttribute "title" title)
  | .clickable kind left right =>
    classSpan "sh-clickable" (tagAttribute "data-type" kind ++
      tagAttribute "data-left-idx" (number left) ++ tagAttribute "data-right-idx" (number right))

def Fragment.html : Fragment → Text
  | .styled (some style) text => classSpan style.cssClass [] ++ escape text ++ closeSpan
  | .styled none text => escape text
  | .opening w => w.html
  | .closing => closeSpan
  | .lineBreak => Markup.lineBreak
  | .unrecognized title text =>
    classSpan "sh-unrecognized" (tagAttribute "title" title ++
      tagAttribute "style" "text-decoration: underline dotted red".toList) ++ escape text ++ closeSpan

def Markup.html (m : Markup) : Text := m.flatMap Fragment.html

end CorpusQuery
