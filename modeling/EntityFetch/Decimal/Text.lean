import EntityFetch.Decimal.Shortest

/-!
# Floats as text

A finite float is written with the digits of its shortest decimal, either
positionally, always with a point and a digit on both sides of it, or with a
power of ten. Where the one ends and the other begins is for each format to
say.
-/

namespace EntityFetch.Decimal

/-- Zeros in a row. -/
def zeros (n : Nat) : String :=
  String.ofList (List.replicate n '0')

/-- All digits around the point: `120.0`, `1.2`, `0.012`. -/
def positional (d : Decimal) : String :=
  let ds := d.digits.repr
  let whole := d.leading + 1
  if 0 ≤ d.exponent then ds ++ zeros d.exponent.toNat ++ ".0"
  else if 0 < whole then
    String.ofList (ds.toList.take whole.toNat) ++ "." ++ String.ofList (ds.toList.drop whole.toNat)
  else "0." ++ zeros (-whole).toNat ++ ds

/-- One digit before the point and the power of ten with its sign: `1e+16`,
    `1.5e-7`. -/
def scientific (d : Decimal) : String :=
  let power := (if 0 ≤ d.leading then "+" else "-") ++ d.leading.natAbs.repr
  match d.digits.repr.toList with
  | [] => "0e" ++ power
  | [c] => String.ofList [c] ++ "e" ++ power
  | c :: cs => String.ofList [c] ++ "." ++ String.ofList cs ++ "e" ++ power

/-- How floats are written. -/
structure FloatFormat where
  /-- Whether all digits are written around the point, for each exponent of the first
      one. -/
  isPositional : Int → Bool
  /-- Which of two shortest decimals is written if they are equally near. -/
  tie : Tie

/-- The text of a finite float. The zero of either sign has a sign of its own. -/
def FloatFormat.text (format : FloatFormat) (x : Float) : String :=
  let d := shortest format.tie x
  let sign := if 0x8000000000000000 ≤ x.toBits.toNat then "-" else ""
  sign ++ if format.isPositional d.leading then d.positional else d.scientific

end EntityFetch.Decimal
