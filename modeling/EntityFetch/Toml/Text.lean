import EntityFetch.Decimal
import EntityFetch.Text.Reader

/-!
# Keys, strings and space in TOML

Strings are on one line or in a block of lines between triple quotes, and in
double quotes they have escapes. A key is bare or a string on one line, and a
dotted key is a path of such keys.
-/

namespace EntityFetch.Toml

open Reader

/-- Spaces and tabs. -/
def blanks : Reader Unit := do
  let _ ← span fun c => c == ' ' || c == '\t'

/-- The end of a line. -/
def newline : Reader Unit :=
  exactly "\n" <|> exactly "\r\n"

/-- Whether a character may stand in comments and strings: any but control
    characters, of which only the tab may. -/
def isPlain (c : Char) : Bool :=
  c == '\t' || (0x20 ≤ c.toNat && c.toNat != 0x7F)

/-- A comment up to the end of its line. -/
def comment : Reader Unit := do
  exactly "#"
  let _ ← span isPlain

/-- Space over any number of lines. -/
def gap : Reader Unit := do
  blanks
  let _ ← many do
    let _ ← optional comment
    newline
    blanks

/-- A character given by the digits of its code. -/
def code (digits : Nat) : Reader Char := do
  let n := Decimal.ofDigits 16 Decimal.digitValue (← exactlyMany digits isHexDigit)
  guard n.isValidChar
  return Char.ofNat n

/-- A character given by an escape. -/
def escaped : Reader Char := do
  exactly "\\"
  match ← char fun _ => true with
  | 'b' => return '\x08'
  | 't' => return '\t'
  | 'n' => return '\n'
  | 'f' => return '\x0c'
  | 'r' => return '\r'
  | '"' => return '"'
  | '\\' => return '\\'
  | 'u' => code 4
  | 'U' => code 8
  | _ => failure

/-- A character in double quotes. -/
def basicChar : Reader Char :=
  char (fun c => isPlain c && c != '"' && c != '\\') <|> escaped

/-- A character in single quotes. -/
def literalChar : Reader Char :=
  char fun c => isPlain c && c != '\''

/-- A string in double quotes, on one line. -/
def basicString : Reader String := do
  exactly "\""
  let cs ← many basicChar
  exactly "\""
  return String.ofList cs

/-- A string in single quotes, on one line. -/
def literalString : Reader String := do
  exactly "'"
  let cs ← many literalChar
  exactly "'"
  return String.ofList cs

/-- A block of lines between triple quotes. A line end right after the quotes is
    no part of it. One or two quotes may stand anywhere in it, at its end too. -/
def block (quote : Char) (piece : Reader (List Char)) : Reader String := do
  let _ ← exactlyMany 3 (· == quote)
  let _ ← optional newline
  let pieces ← many (newline *> pure ['\n'] <|> piece <|> do
    let quotes ← span (· == quote)
    guard (0 < quotes.length && quotes.length < 3)
    return quotes)
  let quotes ← span (· == quote)
  guard (3 ≤ quotes.length && quotes.length ≤ 5)
  return String.ofList (pieces.flatten ++ quotes.drop 3)

/-- A backslash at the end of a line, which takes away the space up to the next
    character. -/
def continuation : Reader Unit := do
  exactly "\\"
  blanks
  newline
  let _ ← many (newline <|> do
    let _ ← char fun c => c == ' ' || c == '\t')

/-- A string. -/
def string : Reader String :=
  block '"' (continuation *> pure [] <|> (fun c => [c]) <$> basicChar) <|> basicString <|>
    block '\'' ((fun c => [c]) <$> literalChar) <|> literalString

/-- A key without quotes. -/
def bareKey : Reader String := do
  let cs ← span fun c => c.isAlphanum || c == '_' || c == '-'
  guard (!cs.isEmpty)
  return String.ofList cs

/-- A dotted key has fewer parts than this, and arrays and inline tables nest less
    deep. -/
def depthLimit : Nat := 80

/-- A dotted key. -/
def path : Reader (List String) := do
  let keys ← separated (blanks *> (basicString <|> literalString <|> bareKey) <* blanks)
    (exactly ".")
  guard (0 < keys.length && keys.length < depthLimit)
  return keys

end EntityFetch.Toml
