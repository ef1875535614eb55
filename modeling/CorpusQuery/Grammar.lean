import CorpusQuery.Recognizer

/-! The query language as data. A rule's body is an expression over the other rules; evaluating it
gives a recognizer. A rule may enter another one only after reading a token or when the other one
ranks lower, so every evaluation ends. -/
namespace CorpusQuery

namespace Grammar

/-- What the body of a rule is made of. -/
inductive Expr where
  /-- Reads nothing. -/
  | done
  /-- Fails and reports the terminals as missing. -/
  | reject (kinds : List Terminal)
  /-- A token of one kind, reported as `tag`. -/
  | token (kind tag : Terminal)
  /-- White space, if any. -/
  | trivia
  /-- A backslash and the token after it, if any. -/
  | escape
  /-- The longest run of tokens that are neither backslashes nor of the kind `stop`. -/
  | run (stop : Terminal)
  | call (r : NonTerminal)
  | andThen (first second : Expr)
  | orElse (first second : Expr)
  /-- The result of `body` does not matter. -/
  | optional (body : Expr)
  /-- `body`, with a return to the start on failure. -/
  | attempt (body : Expr)
  /-- `body` as often as it matches. -/
  | many (body : Expr)
  /-- A choice by the kind of the next token. -/
  | next (kinds : List Terminal) (yes no : Expr)

namespace Expr

def steps (parts : List Expr) : Expr := parts.foldr .andThen .done

/-- A token reported as the terminal that it is. -/
def mark (kind : Terminal) : Expr := .token kind kind

def markIfAny (kind : Terminal) (more : Expr := .done) : Expr :=
  .next [kind] (steps [mark kind,.trivia,more]) .done

def separated (item : Expr) (separator : Terminal) : Expr :=
  .andThen item (.many (steps [.trivia,mark separator,.trivia,item]))

/-- Escapes and runs up to a token of the kind `stop`; at least one. -/
def elements (stop : Terminal) : Expr :=
  let element := .orElse .escape (.run stop)
  .andThen (.orElse element (.reject [.regExpChars])) (.many element)

def recognizer (call : NonTerminal → Recognizer) : Expr → Recognizer
  | .done => Recognizer.done
  | .reject kinds => (Recognizer.miss kinds).andThen .reject
  | .token kind tag => .token kind tag
  | .trivia => .trivia
  | .escape => .escape
  | .run stop => .run stop
  | .call r => call r
  | .andThen first second => (first.recognizer call).andThen (second.recognizer call)
  | .orElse first second => (first.recognizer call).orElse (second.recognizer call)
  | .optional body => (body.recognizer call).optional
  | .attempt body => (body.recognizer call).attempt
  | .many body => (body.recognizer call).many
  | .next kinds yes no => fun c =>
    if c.kind?.any kinds.contains then yes.recognizer call c else no.recognizer call c

end Expr

open Grammar.Expr

def grouped : Expr :=
  .next [.kwMeet] (.call .meetOp) <| .next [.kwUnion] (.call .unionOp) <| .call .sequence

def positionPair : Expr := steps [.trivia,.call .position,.trivia,.call .position]

def body : NonTerminal → Expr
  | .query => steps [.trivia,.call .sequence,.many (steps [.trivia,.call .withinOrContaining]),
      .trivia,mark .semicolon]
  | .withinOrContaining => steps [markIfAny .not,.orElse (mark .kwWithin) (mark .kwContaining),
      .trivia,.call .withinContainingPart]
  | .withinContainingPart => .call .sequence
  | .sequence => separated (.call .seq) .pipe
  | .seq => .andThen (.call .repetition) (.many (steps [.trivia,.call .repetition]))
  | .repetition => .andThen (.call .atomQuery)
      (.next [.star,.plus,.question,.lBrace] (.optional (.call .repOpt)) .done)
  | .atomQuery =>
    .next [.lBracket] (.call .position) <|
    .next [.quote] (.call .regExp) <|
    .next [.lt] (.call .structureTag) <|
    .next [.lParen] (steps [mark .lParen,.trivia,grouped,.trivia,mark .rParen]) <|
    .reject [.lBracket,.quote,.lt,.lParen]
  | .meetOp => steps [mark .kwMeet,positionPair,
      .optional (.attempt (steps [.trivia,mark .number,.trivia,mark .number]))]
  | .unionOp => steps [mark .kwUnion,positionPair]
  | .repOpt =>
    .next [.star] (mark .star) <|
    .next [.plus] (mark .plus) <|
    .next [.question] (mark .question) <|
    steps [mark .lBrace,.trivia,mark .number,.trivia,markIfAny .comma (markIfAny .number),
      mark .rBrace]
  | .position => steps [mark .lBracket,.trivia,
      .next [.rBracket] .done (.optional (.call .attValList)),.trivia,mark .rBracket]
  | .attValList => separated (.call .attValAnd) .pipe
  | .attValAnd => separated (.call .attVal) .amp
  | .attVal =>
    .next [.not] (steps [mark .not,.trivia,.call .attVal]) <|
    .next [.lParen] (steps [mark .lParen,.trivia,.call .attValList,.trivia,mark .rParen]) <|
    steps [.call .attName,.trivia,.orElse (mark .notEq) (mark .eq),.trivia,.call .regExp]
  | .attName => .token .ident .attrChars
  | .regExp => steps [mark .quote,.next [.quote] .done (.optional (.call .regExpRaw)),mark .quote]
  | .regExpRaw => elements .quote
  | .structureTag => steps [mark .lt,.trivia,markIfAny .slash,.call .attName,
      .many (steps [.trivia,.call .attVal]),.trivia,markIfAny .slash,mark .gt]
  | .phraseQuery => .andThen (.call .phraseWord) (.many (steps [mark .whitespace,.call .phraseWord]))
  | .phraseWord => elements .whitespace

/-- A rule ranks above those that it may enter before reading a token. -/
def rank : NonTerminal → Nat
  | .query => 6
  | .withinContainingPart => 5
  | .sequence => 4
  | .seq | .attValList => 3
  | .repetition | .attValAnd => 2
  | .atomQuery | .attVal | .phraseQuery => 1
  | _ => 0

def recognize (r : NonTerminal) (c : Cursor) : Outcome :=
  Recognizer.rule r ((body r).recognizer fun s d =>
    if d.rest.length < c.rest.length ∨ d.rest.length = c.rest.length ∧ rank s < rank r then
      recognize s d
    else Recognizer.reject d) c
termination_by (c.rest.length,rank r)
decreasing_by
  rename_i h
  rcases h with less | ⟨same,lower⟩
  · exact Prod.Lex.left _ _ less
  · rw [same]; exact Prod.Lex.right _ lower

end Grammar

end CorpusQuery
