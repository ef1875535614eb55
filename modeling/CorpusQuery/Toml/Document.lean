import CorpusQuery.Toml.Quoted
import CorpusQuery.Toml.Scalar

/-! Reads a TOML document, version 1.1. Reading goes in two steps: the text into lines that each
open a table or give a value to a key, and the lines into one table. -/
namespace CorpusQuery.Toml

inductive Line where
  | openTable (path : List Text) (key : Text)
  | openNext (path : List Text) (key : Text)
  | pair (path : List Text) (key : Text) (v : Value)

namespace Document

def skipBlanks (t : Text) : Text := t.dropWhile isSpacing

/-- What follows a comment, if there is one; none when the comment holds a control character. -/
def skipComment? : Text → Option Text
  | '#' :: rest =>
    let left := rest.dropWhile isPlain
    if left = [] ∨ (Quoted.newline? left).isSome then some left else none
  | t => some t

def endLine? (t : Text) : Option Text := do
  match ← skipComment? (skipBlanks t) with
  | [] => some []
  | left => Quoted.newline? left

def skipLines : Nat → Text → Option Text
  | 0,t => some t
  | fuel + 1,t => do
    let left ← skipComment? (skipBlanks t)
    match Quoted.newline? left with
    | some rest => skipLines fuel rest
    | none => some left

/-- Skips all blanks, comments and line breaks: there are fewer of them than characters. -/
def skipAll? (t : Text) : Option Text := skipLines t.length t

def keyPart? (t : Text) : Option (Text × Text) :=
  match t with
  | '"' :: rest => Quoted.basic rest
  | '\x27' :: rest => Quoted.literal rest
  | _ =>
    let bare := t.takeWhile isBareKeyChar
    if bare = [] then none else some (bare,t.drop bare.length)

/-- The parts of a dotted key, of which there are at most `count`. -/
def keyParts : (count : Nat) → Text → Option (List Text × Text)
  | 0,_ => none
  | count + 1,t => do
    let (part,left) ← keyPart? t
    match skipBlanks left with
    | '.' :: rest =>
      let (parts,left) ← keyParts count (skipBlanks rest)
      return (part :: parts,left)
    | left => return ([part],left)

/-- Keys have no more parts than this, and values nest no deeper. -/
def maxDepth : Nat := 80

def key? (t : Text) : Option ((List Text × Text) × Text) := do
  let (parts,left) ← keyParts maxDepth t
  let last ← parts.getLast?
  return ((parts.dropLast,last),left)

mutual

/-- A value with at most so many brackets and braces around each of its parts. -/
def value : (fuel depth : Nat) → Text → Option (Value × Text)
  | 0,_,_ => none
  | fuel + 1,depth,t =>
    match t,depth with
    | '[' :: _,0 | '{' :: _,0 => none
    | '[' :: rest,depth + 1 => do
      let (items,left) ← arrayItems fuel depth (← skipAll? rest)
      return (.array false items,left)
    | '{' :: rest,depth + 1 => do
      let (entries,left) ← inlineEntries fuel depth [] (← skipAll? rest)
      return (.table .inline entries,left)
    | '"' :: _,_ | '\x27' :: _,_ => (Quoted.read t).map fun (s,left) => (.string s,left)
    | _,_ =>
      let (spelling,left) := Scalar.split t
      (Scalar.ofSpelling? spelling).map fun v => (v,left)

/-- The items of an array up to its bracket. A comma may follow the last one. -/
def arrayItems : (fuel depth : Nat) → Text → Option (List Value × Text)
  | 0,_,_ => none
  | fuel + 1,depth,t =>
    match t with
    | ']' :: left => some ([],left)
    | _ => do
      let (item,left) ← value fuel depth t
      match ← skipAll? left with
      | ',' :: rest =>
        let (items,left) ← arrayItems fuel depth (← skipAll? rest)
        return (item :: items,left)
      | ']' :: left => return ([item],left)
      | _ => none

/-- The entries of a table in braces up to its brace. Lines may break anywhere but inside a key, and a
comma may follow the last entry. -/
def inlineEntries : (fuel depth : Nat) → Entries → Text → Option (Entries × Text)
  | 0,_,_,_ => none
  | fuel + 1,depth,entries,t =>
    match t with
    | '}' :: left => some (entries,left)
    | _ => do
      let ((path,key),left) ← key? t
      let left ← Scalar.skip? '=' (← skipAll? left)
      let (v,left) ← value fuel depth (← skipAll? left)
      let entries ← entries.add key v path
      match ← skipAll? left with
      | ',' :: rest => inlineEntries fuel depth entries (← skipAll? rest)
      | '}' :: left => return (entries,left)
      | _ => none

end

def line? (t : Text) : Option (Line × Text) :=
  match t with
  | '[' :: '[' :: rest => do
    let ((path,key),left) ← key? (skipBlanks rest)
    let left ← Scalar.skip? ']' (← Scalar.skip? ']' (skipBlanks left))
    return (.openNext path key,left)
  | '[' :: rest => do
    let ((path,key),left) ← key? (skipBlanks rest)
    return (.openTable path key,← Scalar.skip? ']' (skipBlanks left))
  | _ => do
    let ((path,key),left) ← key? t
    let left ← Scalar.skip? '=' (skipBlanks left)
    let (v,left) ← value (t.length + 1) maxDepth (skipBlanks left)
    return (.pair path key v,left)

/-- The lines of a document, each of which takes a character at least. -/
def lines : Nat → Text → Option (List Line)
  | 0,_ => some []
  | fuel + 1,t => do
    match ← skipAll? t with
    | [] => some []
    | start =>
      let (line,left) ← line? start
      return line :: (← lines fuel (← endLine? left))

/-- The table that lines amount to, from the one so far. `path` leads to the table opened last. -/
def assemble : (path : List Text) → Entries → List Line → Option Entries
  | _,entries,[] => some entries
  | path,entries,.pair dotted key v :: rest => do
    assemble path (← entries.within (Entries.add key v dotted) path) rest
  | _,entries,.openTable parents key :: rest => do
    assemble (parents ++ [key]) (← entries.within (Entries.openTable key) parents) rest
  | _,entries,.openNext parents key :: rest => do
    assemble (parents ++ [key]) (← entries.within (Entries.openNext key) parents) rest

/-- A mark of the byte order at the start of a text is not part of it. -/
def skipMark : Text → Text
  | '\ufeff' :: rest => rest
  | t => t

end Document

/-- The table that a text spells; none when the text is no TOML document. -/
def read (t : Text) : Option Entries :=
  let t := Document.skipMark t
  (Document.lines (t.length + 1) t).bind (Document.assemble [] [])

end CorpusQuery.Toml
