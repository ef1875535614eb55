/-! Sets of characters given as ranges of code points. -/
namespace CorpusQuery

/-- First and last code point. -/
abbrev CharRange := Nat × Nat

def CharRange.holds (range : CharRange) (c : Char) : Bool :=
  range.1 ≤ c.toNat && c.toNat ≤ range.2

def inRanges (ranges : List CharRange) (c : Char) : Bool := ranges.any (·.holds c)

end CorpusQuery
