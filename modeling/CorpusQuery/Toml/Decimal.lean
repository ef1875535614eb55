/-! Numbers in decimal notation, without a sign. -/
namespace CorpusQuery.Toml

/-- `digits` times ten to the power `exponent`. -/
structure Decimal where
  digits : Nat
  exponent : Int
  deriving DecidableEq

namespace Decimal

/-- The least number that rounds to infinity in binary notation of 64 bits: the midpoint between the
greatest finite one and the next power of two. -/
def infinityBound : Nat := (Nat.pow 2 54 - 1) * Nat.pow 2 970

/-- Whether the number is at least `bound`. -/
def reaches (d : Decimal) (bound : Nat) : Bool :=
  if 0 ≤ d.exponent then bound ≤ d.digits * Nat.pow 10 d.exponent.toNat
  else bound * Nat.pow 10 (-d.exponent).toNat ≤ d.digits

/-- The number of places before the point, when the digits do not begin with a zero. -/
def size (d : Decimal) : Int := (Nat.toDigits 10 d.digits).length + d.exponent

/-- Whether the number rounds to infinity. Of nonzero numbers those with more than 310 places do, and
those with less than 300 do not, so that no larger power is ever computed. -/
def overflows (d : Decimal) : Bool :=
  d.digits != 0 && (310 < d.size || (300 ≤ d.size && d.reaches infinityBound))

end Decimal

end CorpusQuery.Toml
