import EntityFetch.Decimal.Text
import EntityFetch.Json

/-!
# Compact JSON text

A value is written without spaces and its entries in the order in which the
object lists them. In a string only the quote, the backslash and the control
characters up to U+001F are escaped.
-/

namespace EntityFetch.Json

/-- Floats are positional from `0.00001` up to sixteen digits before the point, and
    of two shortest decimals that are equally near the even one is written. -/
def floatFormat : Decimal.FloatFormat where
  isPositional leading := -5 ≤ leading && leading ≤ 15
  tie := .even

/-- The text of a float. JSON knows no infinite numbers, which become null. -/
def floatText (x : Float) : String :=
  if x.isFinite then floatFormat.text x else "null"

/-- A digit in base sixteen. -/
def hexDigit (n : Nat) : Char :=
  if n < 10 then Char.ofNat (48 + n) else Char.ofNat (87 + n)

/-- The characters that stand for a character of a string. -/
def escapeChar (c : Char) : List Char :=
  match c with
  | '"' => ['\\', '"']
  | '\\' => ['\\', '\\']
  | '\x08' => ['\\', 'b']
  | '\x0c' => ['\\', 'f']
  | '\n' => ['\\', 'n']
  | '\r' => ['\\', 'r']
  | '\t' => ['\\', 't']
  | c =>
    if c.toNat < 0x20 then
      ['\\', 'u', '0', '0', hexDigit (c.toNat / 16), hexDigit (c.toNat % 16)]
    else [c]

/-- A string in quotes. -/
def stringText (s : String) : String :=
  String.ofList ('"' :: s.toList.flatMap escapeChar ++ ['"'])

mutual

/-- The parts of the text of a value, in order. -/
def pieces : Json → List String
  | null => ["null"]
  | bool b => [if b then "true" else "false"]
  | int n => [toString n]
  | float x => [floatText x]
  | str s => [stringText s]
  | arr [] => ["[]"]
  | arr (j :: js) => "[" :: pieces j ++ itemPieces js
  | obj [] => ["\x7b\x7d"]
  | obj ((k, v) :: es) => "\x7b" :: stringText k :: ":" :: pieces v ++ entryPieces es

/-- The parts of the items after the first and the end of their array. -/
def itemPieces : List Json → List String
  | [] => ["]"]
  | j :: js => "," :: pieces j ++ itemPieces js

/-- The parts of the entries after the first and the end of their object. -/
def entryPieces : List (String × Json) → List String
  | [] => ["\x7d"]
  | (k, v) :: es => "," :: stringText k :: ":" :: pieces v ++ entryPieces es

end

/-- The compact text of a value. -/
def text (j : Json) : String :=
  String.join j.pieces

end EntityFetch.Json
