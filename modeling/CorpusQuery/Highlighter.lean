import CorpusQuery.Decorate
import CorpusQuery.Dialect
import CorpusQuery.LogRecord
import CorpusQuery.Text.Blank

/-! Highlights a whole query by passes. Each pass reads what is left with one start rule. The text
at which it stops is skipped up to the next word, which the next rule reads; white space alone costs
no rule. Only the first pass checks names, breaks lines and says what was unrecognized: the later
ones are guesses. -/
namespace CorpusQuery

structure Highlighter where
  startRules : StartRules
  wording : Wording := {}
  wrapLines : Bool := false

namespace Highlighter

def ofDialect (dialect : Dialect) : Highlighter := { startRules := dialect.startRules }

structure Pass where
  rendering : Rendering
  /-- Number of bytes of the text that it could use. -/
  consumed : Nat
  error : Option SyntaxError
  faults : List TraceFault

/-- Reads a text with one start rule. The ending that the rule requires is parsed with the text but
is not part of it. -/
def pass (t : Text) (start : StartRule) (o : DecorateOptions) : Pass :=
  let p := parse (t ++ start.ending) start
  let (b,faults) := (SpanTable.Builder.start t).run p.events
  { rendering := b.table.render o
    consumed := min b.reach t.byteLength
    error := p.error
    faults := faults ++ b.close.toList }

/-- A text split into its first word, the white space after it, and the rest. -/
def splitWord (t : Text) : Text × Text × Text :=
  let word := t.takeWhile fun c => !isWhiteSpace c
  let after := t.dropWhile fun c => !isWhiteSpace c
  (word,after.takeWhile isWhiteSpace,after.dropWhile isWhiteSpace)

/-- What is left after the first `n` bytes. -/
def remainder (t : Text) (n : Nat) : Text := (t.dropBytes? n).getD []

theorem length_remainder_le (t : Text) (n : Nat) : (remainder t n).length ≤ t.length := by
  have drop : ∀ (n : Nat) (t r : Text), t.dropBytes? n = some r → r.length ≤ t.length := by
    intro n t
    fun_induction Text.dropBytes? n t with
    | case1 t => simp
    | case2 => simp
    | case3 n c rest fits ih => intro r h; have := ih r h; simp; omega
    | case4 => simp
  unfold remainder
  cases h : t.dropBytes? n with
  | none => simp
  | some r => simpa using drop n t r h

theorem length_splitWord_lt {t : Text} (nonempty : t ≠ []) : (splitWord t).2.2.length < t.length := by
  obtain ⟨c,rest,rfl⟩ := List.exists_cons_of_ne_nil nonempty
  have shorter (p : Char → Bool) (l : Text) : (l.dropWhile p).length ≤ l.length :=
    (List.dropWhile_sublist p).length_le
  have h := shorter isWhiteSpace rest
  by_cases blank : isWhiteSpace c = true
  · simp only [splitWord,List.dropWhile_cons,blank,Bool.not_true,Bool.false_eq_true,if_false,
      if_true,List.length_cons]
    omega
  · have := shorter isWhiteSpace (rest.dropWhile fun c => !isWhiteSpace c)
    have := shorter (fun c => !isWhiteSpace c) rest
    simp only [splitWord,List.dropWhile_cons,blank,Bool.not_false,if_true,List.length_cons]
    omega

structure Passage where
  /-- Number of passes before this one. -/
  depth : Nat
  start : StartRule
  /-- The rules not tried so far. -/
  fallbacks : List StartRule
  text : Text
  pass : Pass
  skipped : Text

/-- The first pass checks names and breaks lines. -/
def options (h : Highlighter) (v : Vocabulary) (depth : Nat) : DecorateOptions :=
  if depth = 0 then { vocabulary := some v, wording := h.wording, wrapLines := h.wrapLines }
  else { wording := h.wording }

/-- The passes over `t` from a start rule on. With no rule left, all the text that a pass could not
use is skipped; otherwise one word is, and the white space after it. -/
def passages (h : Highlighter) (v : Vocabulary) (depth : Nat) (start : StartRule)
    (fallbacks : List StartRule) (t : Text) : List Passage :=
  let pass := pass t start (h.options v depth)
  let left := remainder t pass.consumed
  let stop (skipped : Text) : Passage := { depth, start, fallbacks, text := t, pass, skipped }
  if left = [] then [stop []]
  else
    match fallbacks with
    | [] => [stop left]
    | next :: later =>
      let split := splitWord left
      let rest := split.2.2
      stop (split.1 ++ split.2.1) ::
        if rest = [] then []
        else if split.1 = [] then h.passages v (depth + 1) start (next :: later) rest
        else h.passages v (depth + 1) next later rest
termination_by t.length
decreasing_by
  all_goals exact Nat.lt_of_lt_of_le (length_splitWord_lt (by assumption)) (length_remainder_le ..)

namespace Passage

/-- The first pass says where and why it stopped: where parsing failed, or where the pass had read
to; an offset past the end stands for the end. Later passes show skipped text as it is. -/
def skippedMarkup (p : Passage) (w : Wording) : Markup :=
  if p.skipped = [] then []
  else if p.depth = 0 then
    let reached := (p.pass.error.map SyntaxError.offset).getD p.pass.consumed
    let offset := min reached p.text.byteLength
    let title := w.unrecognized (p.text.charAt? offset) (p.text.charsBefore offset + 1)
    [.unrecognized title.toList p.skipped]
  else [.styled none p.skipped]

def markup (p : Passage) (w : Wording) : Markup := p.pass.rendering.markup ++ p.skippedMarkup w

def log (p : Passage) : List LogRecord :=
  let size := p.text.byteLength
  let passed := p.pass.faults.map .fault ++ p.pass.error.toList.map (.refused p.start) ++
    [.passed p.depth p.start p.pass.consumed size]
  let skipped := Text.byteLength p.skipped
  if p.skipped = [] then passed
  else if p.fallbacks = [] then passed ++ [.outOfRules skipped]
  else passed ++ [.skipped p.skipped (size - p.pass.consumed - skipped)]

end Passage

def allPassages (h : Highlighter) (v : Vocabulary) (query : Text) : List Passage :=
  if query = [] then [] else h.passages v 0 h.startRules.first h.startRules.fallbacks query

/-- The markup of all passes, with the problems that the first one found. Without a vocabulary every
name is accepted. -/
def render (h : Highlighter) (query : Text) (v : Option Vocabulary) : Rendering :=
  let passages := h.allPassages (v.getD .permissive) query
  { markup := passages.flatMap (·.markup h.wording)
    hint := passages.head?.bind (·.pass.rendering.hint) }

def log (h : Highlighter) (query : Text) (v : Option Vocabulary) : List LogRecord :=
  (h.allPassages (v.getD .permissive) query).flatMap Passage.log

end Highlighter

end CorpusQuery
