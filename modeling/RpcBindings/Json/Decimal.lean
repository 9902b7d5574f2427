/-!
# Decimal numbers and the range of a double

A number is kept as its digits stand in the document. Whether it fits into a double is told
from its leading digits: as many as a 64-bit word takes make a coefficient, the others only
shift the power of ten, and the coefficient and the power are each rounded to a double
before they are multiplied. A number next to the largest double can therefore count as too
large though its exact value is not.
-/
namespace RpcBindings.Json

/-- A number as it is written, without its sign. -/
structure Decimal where
  /-- The digits before the point. -/
  whole : List Nat
  /-- The digits behind the point. -/
  fraction : List Nat
  /-- The power of ten that the number is multiplied by. -/
  power : Int
deriving DecidableEq

namespace Decimal

/-- The least number that a coefficient cannot be. -/
def coefficientLimit : Nat := Nat.pow 2 64

/-- Appends digits to a coefficient up to the first one that it has no room for. Gives the
coefficient and the digits that are left. -/
def absorb (coefficient : Nat) : List Nat → Nat × List Nat
  | [] => (coefficient, [])
  | digit :: rest =>
    if coefficient * 10 + digit < coefficientLimit then absorb (coefficient * 10 + digit) rest
    else (coefficient, digit :: rest)

/-- The coefficient of the whole digits, and the whole digits left out of it. -/
def leading (d : Decimal) : Nat × List Nat :=
  absorb 0 d.whole

/-- The coefficient of all digits, and the fraction digits left out of it. The fraction is
tried from its first digit even if whole digits were left out. -/
def absorbed (d : Decimal) : Nat × List Nat :=
  absorb d.leading.1 d.fraction

/-- The leading digits as one number. -/
def coefficient (d : Decimal) : Nat :=
  d.absorbed.1

/-- The power of ten that belongs to the coefficient. -/
def exponent (d : Decimal) : Int :=
  d.power + d.leading.2.length - (d.fraction.length - d.absorbed.2.length : Nat)

/-- The number with 53 significant bits that is nearest to a number. Halfway between two of
them, the one whose last bit is zero is taken. -/
def nearestDouble (n : Nat) : Nat :=
  let unit := Nat.pow 2 (n.log2 - 52)
  let quotient := n / unit
  let twice := n % unit * 2
  if twice > unit || (twice == unit && quotient % 2 == 1) then (quotient + 1) * unit
  else quotient * unit

/-- The least number that a double rounds to infinity: the largest double and half of its
last place. -/
def doubleLimit : Nat := Nat.pow 2 1024 - Nat.pow 2 970

/-- The largest power of ten that is a double. -/
def maxExponent : Int := 308

/-- Whether the number fits into a double. -/
def isFinite (d : Decimal) : Bool :=
  d.coefficient == 0 || d.exponent < 0
    || (d.exponent ≤ maxExponent
      && nearestDouble d.coefficient * nearestDouble (Nat.pow 10 d.exponent.toNat) < doubleLimit)

end Decimal

end RpcBindings.Json
