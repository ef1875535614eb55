/-! The symbols of the query grammar. Terminals cover characters of the query; non-terminals
cover other symbols. The lexer gives every token a terminal; the grammar re-tags a token whose
meaning depends on where it stands. -/
namespace CorpusQuery

/-- A symbol that covers characters. The last three never come from the lexer: a name in the place
of an attribute or structure, a run of characters of a regular expression, and an escape in it. -/
inductive Terminal where
  | whitespace | lBracket | rBracket | lParen | rParen | lBrace | rBrace | lt | gt | slash
  | quote | backslash | eq | notEq | not | amp | pipe | star | plus | question | comma
  | semicolon | kwWithin | kwContaining | kwMeet | kwUnion | number | ident | text | unknown
  | attrChars | regExpChars | regExpEscape
  deriving DecidableEq

/-- A symbol that covers other symbols. -/
inductive NonTerminal where
  | query | withinOrContaining | withinContainingPart | sequence | seq | repetition | atomQuery
  | meetOp | unionOp | repOpt | position | attValList | attValAnd | attVal | attName | regExp
  | regExpRaw | structureTag | phraseQuery | phraseWord
  deriving DecidableEq

inductive Symbol where
  | terminal (t : Terminal)
  | nonTerminal (r : NonTerminal)
  deriving DecidableEq

namespace Terminal

def all : List Terminal :=
  [.whitespace, .lBracket, .rBracket, .lParen, .rParen, .lBrace, .rBrace, .lt, .gt, .slash,
   .quote, .backslash, .eq, .notEq, .not, .amp, .pipe, .star, .plus, .question, .comma,
   .semicolon, .kwWithin, .kwContaining, .kwMeet, .kwUnion, .number, .ident, .text, .unknown,
   .attrChars, .regExpChars, .regExpEscape]

def name : Terminal → String
  | .whitespace => "Whitespace"
  | .lBracket => "LBracket"
  | .rBracket => "RBracket"
  | .lParen => "LParen"
  | .rParen => "RParen"
  | .lBrace => "LBrace"
  | .rBrace => "RBrace"
  | .lt => "Lt"
  | .gt => "Gt"
  | .slash => "Slash"
  | .quote => "Quote"
  | .backslash => "Backslash"
  | .eq => "Eq"
  | .notEq => "NotEq"
  | .not => "Not"
  | .amp => "Amp"
  | .pipe => "Pipe"
  | .star => "Star"
  | .plus => "Plus"
  | .question => "Question"
  | .comma => "Comma"
  | .semicolon => "Semicolon"
  | .kwWithin => "KwWithin"
  | .kwContaining => "KwContaining"
  | .kwMeet => "KwMeet"
  | .kwUnion => "KwUnion"
  | .number => "Number"
  | .ident => "Ident"
  | .text => "Text"
  | .unknown => "Unknown"
  | .attrChars => "AttrChars"
  | .regExpChars => "RegExpChars"
  | .regExpEscape => "RegExpEscape"

def ofName? (name : String) : Option Terminal := all.find? (·.name == name)

def description : Terminal → String
  | .whitespace => "whitespace"
  | .lBracket => "`[`"
  | .rBracket => "`]`"
  | .lParen => "`(`"
  | .rParen => "`)`"
  | .lBrace => "`\x7b`"
  | .rBrace => "`\x7d`"
  | .lt => "`<`"
  | .gt => "`>`"
  | .slash => "`/`"
  | .quote => "`\"`"
  | .backslash => "`\\`"
  | .eq => "`=`"
  | .notEq => "`!=`"
  | .not => "`!`"
  | .amp => "`&`"
  | .pipe => "`|`"
  | .star => "`*`"
  | .plus => "`+`"
  | .question => "`?`"
  | .comma => "`,`"
  | .semicolon => "`;`"
  | .kwWithin => "`within`"
  | .kwContaining => "`containing`"
  | .kwMeet => "`meet`"
  | .kwUnion => "`union`"
  | .number => "number"
  | .ident => "name"
  | .text => "text"
  | .unknown => "character"
  | .attrChars => "name"
  | .regExpChars => "regular expression"
  | .regExpEscape => "regular expression"

end Terminal

namespace NonTerminal

def all : List NonTerminal :=
  [.query, .withinOrContaining, .withinContainingPart, .sequence, .seq, .repetition,
   .atomQuery, .meetOp, .unionOp, .repOpt, .position, .attValList, .attValAnd, .attVal,
   .attName, .regExp, .regExpRaw, .structureTag, .phraseQuery, .phraseWord]

def name : NonTerminal → String
  | .query => "Query"
  | .withinOrContaining => "WithinOrContaining"
  | .withinContainingPart => "WithinContainingPart"
  | .sequence => "Sequence"
  | .seq => "Seq"
  | .repetition => "Repetition"
  | .atomQuery => "AtomQuery"
  | .meetOp => "MeetOp"
  | .unionOp => "UnionOp"
  | .repOpt => "RepOpt"
  | .position => "Position"
  | .attValList => "AttValList"
  | .attValAnd => "AttValAnd"
  | .attVal => "AttVal"
  | .attName => "AttName"
  | .regExp => "RegExp"
  | .regExpRaw => "RegExpRaw"
  | .structureTag => "Structure"
  | .phraseQuery => "PhraseQuery"
  | .phraseWord => "PhraseWord"

def ofName? (name : String) : Option NonTerminal := all.find? (·.name == name)

end NonTerminal

namespace Symbol

def name : Symbol → String
  | .terminal t => t.name
  | .nonTerminal r => r.name

/-- The name together with the kind of symbol, as log lines show it. -/
def qualifiedName : Symbol → String
  | .terminal t => s!"Terminal({t.name})"
  | .nonTerminal r => s!"NonTerminal({r.name})"

/-- No terminal shares its name with a non-terminal. -/
def ofName? (name : String) : Option Symbol :=
  match Terminal.ofName? name with
  | some t => some (.terminal t)
  | none => (NonTerminal.ofName? name).map .nonTerminal

end Symbol

end CorpusQuery
