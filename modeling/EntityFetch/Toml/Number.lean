import EntityFetch.Decimal
import EntityFetch.Text.Reader
import EntityFetch.Toml
import EntityFetch.Value

/-!
# Numbers and dates in TOML

Integers have 64 bits. Between two digits there may be an underscore. Dates and
times are given back in one form, whatever of the allowed spellings was used.
-/

namespace EntityFetch.Toml

open Reader

/-- Digits of a kind. -/
def digits (p : Char → Bool) : Reader (List Char) := do
  let d ← char p
  return d :: (← many (optional (exactly "_") *> char p))

/-- Whether a minus sign stands first; a plus sign is passed over. -/
def sign : Reader Bool := do
  return (← optional (char fun c => c == '-' || c == '+')) = some '-'

/-- An integer, if it has 64 bits. -/
def integer? (n : Int) : Option Toml :=
  if Value.minInt ≤ n && n ≤ Value.maxInt then some (int n) else none

/-- An integer in a base of its own. -/
def based (mark : String) (base : Nat) (p : Char → Bool) : Reader Toml := do
  exactly mark
  integer? (Decimal.ofDigits base Decimal.digitValue (← digits p))

/-- The power of ten of a float. -/
def power : Reader Int := do
  let _ ← char fun c => c == 'e' || c == 'E'
  let negative ← sign
  let n : Int := Decimal.natOf (← digits Char.isDigit)
  return if negative then -n else n

/-- An integer or a float. A float too great for 64 bits is refused, but not one
    that is too small. -/
def decimal : Reader Toml := do
  let negative ← sign
  let whole ← digits Char.isDigit
  guard (whole.length = 1 || whole.head? != some '0')
  let places ← optional (exactly "." *> digits Char.isDigit)
  let power ← optional power
  match places, power with
  | none, none =>
    let n : Int := Decimal.natOf whole
    integer? (if negative then -n else n)
  | _, _ =>
    let places := places.getD []
    let d : Decimal :=
      { digits := Decimal.natOf (whole ++ places), exponent := power.getD 0 - places.length }
    let x := d.toFloat negative
    guard (x.isFinite || negative)
    return float x

/-- An infinity, or what is no number. -/
def special : Reader Toml := do
  let negative ← sign
  let x ← (exactly "inf" *> pure (1 / 0)) <|> (exactly "nan" *> pure (0 / 0))
  return float (if negative then -x else x)

/-- A number. -/
def number : Reader Toml :=
  based "0x" 16 isHexDigit <|> based "0o" 8 (fun c => '0' ≤ c && c ≤ '7') <|>
    based "0b" 2 (fun c => c == '0' || c == '1') <|> decimal <|> special

/-- A number with a fixed number of digits and limits, as its digits. -/
def field (width least greatest : Nat) : Reader Nat := do
  let n := Decimal.natOf (← exactlyMany width Char.isDigit)
  guard (least ≤ n && n ≤ greatest)
  return n

/-- A number with zeros before it, up to a width. -/
def padded (width n : Nat) : String :=
  String.ofList (n.repr.toList.leftpad width '0')

/-- The number of days of a month. -/
def daysOf (year month : Nat) : Nat :=
  if month = 2 then
    if year % 4 = 0 && (year % 100 != 0 || year % 400 = 0) then 29 else 28
  else if month ∈ [4, 6, 9, 11] then 30
  else 31

/-- A day. -/
def date : Reader String := do
  let year ← field 4 0 9999
  exactly "-"
  let month ← field 2 1 12
  exactly "-"
  let day ← field 2 1 (daysOf year month)
  return padded 4 year ++ "-" ++ padded 2 month ++ "-" ++ padded 2 day

/-- The decimal places of a second: nine count, and zeros at their end do not. -/
def places (cs : List Char) : String :=
  let kept := ((cs.take 9).reverse.dropWhile (· == '0')).reverse
  if kept.isEmpty then "" else "." ++ String.ofList kept

/-- A time of day. -/
def time : Reader String := do
  let hour ← field 2 0 23
  exactly ":"
  let minute ← field 2 0 59
  exactly ":"
  let second ← field 2 0 60
  let rest ← optional (exactly "." *> do
    let cs ← span Char.isDigit
    guard (!cs.isEmpty)
    return cs)
  return padded 2 hour ++ ":" ++ padded 2 minute ++ ":" ++ padded 2 second ++
    places (rest.getD [])

/-- The distance from universal time. -/
def offset : Reader String :=
  (do
    let _ ← char fun c => c == 'Z' || c == 'z'
    return "Z") <|>
  (do
    let negative := (← char fun c => c == '+' || c == '-') == '-'
    let hours ← field 2 0 23
    exactly ":"
    let minutes ← field 2 0 59
    let sign := if negative && 0 < hours + minutes then "-" else "+"
    return sign ++ padded 2 hours ++ ":" ++ padded 2 minutes)

/-- A day, a time of day, or both. -/
def moment : Reader Toml :=
  (do
    let day ← date
    let rest ← optional do
      let _ ← char fun c => c == 'T' || c == 't' || c == ' '
      let time ← time
      return "T" ++ time ++ (← optional offset).getD ""
    return datetime (day ++ rest.getD "")) <|>
  datetime <$> time

end EntityFetch.Toml
