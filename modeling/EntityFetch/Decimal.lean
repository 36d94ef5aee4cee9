/-!
# Decimals

Decimals are written with digits and a power of ten. The float of a decimal is
the nearest one to it.
-/

namespace EntityFetch

/-- The decimal `digits · 10 ^ exponent`. -/
structure Decimal where
  digits : Nat
  exponent : Int
deriving DecidableEq, Repr

namespace Decimal

/-- The number that digits stand for in a base. -/
def ofDigits (base : Nat) (digit : Char → Nat) (cs : List Char) : Nat :=
  cs.foldl (fun n c => base * n + digit c) 0

/-- The value of a digit in a base up to sixteen. -/
def digitValue (c : Char) : Nat :=
  if c.isDigit then c.toNat - '0'.toNat
  else if 'a' ≤ c && c ≤ 'f' then c.toNat - 'a'.toNat + 10
  else if 'A' ≤ c && c ≤ 'F' then c.toNat - 'A'.toNat + 10
  else 0

/-- The number that decimal digits stand for. -/
def natOf (cs : List Char) : Nat :=
  ofDigits 10 digitValue cs

/-- The exponent of the first digit. -/
def leading (d : Decimal) : Int :=
  d.exponent + d.digits.repr.length - 1

/-- The float that is nearest to a decimal, or to its negative. Decimals that are
    far too large or too small for a float are not worked out. -/
def toFloat (negative : Bool) (d : Decimal) : Float :=
  let magnitude :=
    if d.digits = 0 ∨ d.leading < -400 then 0
    else if 400 < d.leading then 1 / 0
    else Float.ofScientific d.digits (d.exponent < 0) d.exponent.natAbs
  if negative then -magnitude else magnitude

end Decimal

end EntityFetch
