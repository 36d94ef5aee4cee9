import EntityFetch.Decimal
import EntityFetch.Text.Reader
import EntityFetch.Value

/-!
# Reading JSON

A JSON text is read into a value that lists the entries of objects as they come.
A number with neither point nor exponent is an integer if it fits into 64 bits,
with or without a sign, and a float otherwise.
-/

namespace EntityFetch.Json

open Reader

/-- Blanks. -/
def blanks : Reader Unit := do
  let _ ← span fun c => c == ' ' || c == '\n' || c == '\t' || c == '\r'

/-- A code of four digits in base sixteen. -/
def code : Reader Nat := do
  return Decimal.ofDigits 16 Decimal.digitValue (← exactlyMany 4 isHexDigit)

/-- The character that an escape stands for, after its backslash. Characters
    beyond four digits are escaped as two codes. -/
def escaped : Reader Char := do
  match ← char fun _ => true with
  | '"' => return '"'
  | '\\' => return '\\'
  | '/' => return '/'
  | 'b' => return '\x08'
  | 'f' => return '\x0c'
  | 'n' => return '\n'
  | 'r' => return '\r'
  | 't' => return '\t'
  | 'u' =>
    let n ← code
    if 0xD800 ≤ n && n < 0xDC00 then
      exactly "\\u"
      let m ← code
      guard (0xDC00 ≤ m && m < 0xE000)
      return Char.ofNat (0x10000 + (n - 0xD800) * 0x400 + (m - 0xDC00))
    else
      guard (n < 0xDC00 || 0xE000 ≤ n)
      return Char.ofNat n
  | _ => failure

/-- A string. -/
def string : Reader String := do
  exactly "\""
  let cs ← many (char (fun c => c != '"' && c != '\\') <|> (exactly "\\" *> escaped))
  exactly "\""
  return String.ofList cs

/-- An integer within 64 bits, or a float. -/
def ofInteger (negative : Bool) (n : Nat) : Json :=
  let z : Int := if negative then -(n : Int) else n
  if (negative && n = 0) || z < Value.minInt || UInt64.size ≤ z then
    float (Decimal.toFloat negative ⟨n, 0⟩)
  else int z

/-- Decimal digits, one at least. -/
def digits : Reader (List Char) := do
  let ds ← span Char.isDigit
  guard (!ds.isEmpty)
  return ds

/-- The power of ten of a number. -/
def power : Reader Int := do
  let _ ← char fun c => c == 'e' || c == 'E'
  let sign ← optional (char fun c => c == '-' || c == '+')
  let n : Int := Decimal.natOf (← digits)
  return if sign = some '-' then -n else n

/-- A number. -/
def number : Reader Json := do
  let negative := (← optional (exactly "-")).isSome
  let whole ← digits
  let places ← optional (exactly "." *> digits)
  let power ← optional power
  match places, power with
  | none, none => return ofInteger negative (Decimal.natOf whole)
  | _, _ =>
    let places := places.getD []
    let d : Decimal :=
      { digits := Decimal.natOf (whole ++ places), exponent := power.getD 0 - places.length }
    return float (d.toFloat negative)

/-- A value; `depth` bounds how deep arrays and objects nest. -/
def value : Nat → Reader Json
  | 0 => failure
  | depth + 1 => do
    blanks
    let j ←
      (exactly "null" *> pure null) <|> (exactly "true" *> pure (bool true)) <|>
      (exactly "false" *> pure (bool false)) <|> (str <$> string) <|> number <|>
      (do
        exactly "["
        let items ← separated (value depth) (exactly ",")
        blanks
        exactly "]"
        return arr items) <|>
      (do
        exactly "\x7b"
        let entries ← separated
          (do
            blanks
            let name ← string
            blanks
            exactly ":"
            return (name, ← value depth))
          (exactly ",")
        blanks
        exactly "\x7d"
        return obj entries)
    blanks
    return j

/-- The value that a text stands for, if it is JSON. -/
def read? (text : String) : Option Json :=
  (value (text.length + 1)).all? text

end EntityFetch.Json
