import EntityFetch.Decimal

/-!
# The shortest decimal of a float

A binary64 number is the nearest one to every real in an interval around it.
Its shortest decimal is a decimal in that interval with as few digits as
possible and, among those, one nearest to the number. It lies on the coarsest
decimal grid with a point in the interval, and is then one of the number's two
neighbours on that grid: the search goes from one digit to seventeen, in exact
arithmetic on naturals, and the first hit wins.
-/

namespace EntityFetch.Decimal

/-- The reals that round to a positive float, as multiples of
    `numerator / denominator`. -/
structure Interval where
  /-- The float itself. -/
  value : Nat
  /-- The least of the reals, or the greatest below them. -/
  lower : Nat
  /-- The greatest of the reals, or the least above them. -/
  upper : Nat
  /-- Whether the two ends belong to the interval. -/
  closed : Bool
  /-- The common denominator of the other three. -/
  denominator : Nat

/-- The interval of the float with the bits of exponent `e` and fraction `f`.
    Below a power of two the floats are twice as dense, so that there the lower
    half of the interval has half the width. Of two floats that are equally
    near the one with the even fraction is taken. -/
def Interval.ofBits (e f : Nat) : Interval :=
  let mantissa := if e = 0 then f else f + Nat.pow 2 52
  -- The float is `4 * mantissa` quarters of its last binary place.
  let place : Int := (max e 1 : Nat) - 1077
  let scale := Nat.pow 2 place.toNat
  let down := if f = 0 ∧ 1 < e then 1 else 2
  { value := 4 * mantissa * scale
    lower := (4 * mantissa - down) * scale
    upper := (4 * mantissa + 2) * scale
    closed := mantissa % 2 = 0
    denominator := Nat.pow 2 (-place).toNat }

/-- The decimal exponent of the first digit of the positive rational
    `numerator / denominator`. -/
def leadingExponent (numerator denominator : Nat) : Int :=
  if denominator ≤ numerator then
    (Nat.toDigits 10 (numerator / denominator)).length - 1
  else
    -(Nat.toDigits 10 ((denominator + numerator - 1) / numerator - 1)).length

/-- Which of two neighbours on a grid is taken if they are equally near. -/
inductive Tie where
  | even
  | upper
deriving DecidableEq, Repr

/-- The one of `n` and `n + 1` that is taken if they are equally near. -/
def Tie.choose (t : Tie) (n : Nat) : Nat :=
  match t with
  | even => n + n % 2
  | upper => n + 1

/-- The point on the grid with step `10 ^ exponent` that lies in the interval
    and is nearest to its float, if there is one. -/
def Interval.gridPoint? (i : Interval) (tie : Tie) (exponent : Int) : Option Nat :=
  let up := Nat.pow 10 (-exponent).toNat
  let step := i.denominator * Nat.pow 10 exponent.toNat
  let value := i.value * up
  let below := value / step
  let inside (n : Nat) : Bool :=
    if i.closed then i.lower * up ≤ n * step && n * step ≤ i.upper * up
    else i.lower * up < n * step && n * step < i.upper * up
  match inside below, inside (below + 1) with
  | true, false => some below
  | false, true => some (below + 1)
  | false, false => none
  | true, true =>
    let down := value - below * step
    let rest := (below + 1) * step - value
    if down < rest then some below
    else if rest < down then some (below + 1)
    else some (tie.choose below)

/-- The first hit on the grids with `digits` digits and more, of which `left`
    are tried. -/
def Interval.search (i : Interval) (tie : Tie) (leading : Int) (digits : Nat) : Nat → Decimal
  | 0 => ⟨i.value / i.denominator, 0⟩
  | left + 1 =>
    let exponent := leading - digits + 1
    match i.gridPoint? tie exponent with
    | some n => ⟨n, exponent⟩
    | none => i.search tie leading (digits + 1) left

/-- The same decimal without zeros at its end, of which at most `left` are
    dropped. -/
def dropZeros (d : Decimal) : Nat → Decimal
  | 0 => d
  | left + 1 =>
    if d.digits % 10 = 0 then dropZeros ⟨d.digits / 10, d.exponent + 1⟩ left else d

/-- The shortest decimal that rounds to the magnitude of a finite float. -/
def shortest (tie : Tie) (x : Float) : Decimal :=
  let bits := x.toBits.toNat
  let e := bits / Nat.pow 2 52 % Nat.pow 2 11
  let f := bits % Nat.pow 2 52
  if e = 0 ∧ f = 0 then ⟨0, 0⟩ else
  let i := Interval.ofBits e f
  dropZeros (i.search tie (leadingExponent i.value i.denominator) 1 17) 17

end EntityFetch.Decimal
