import EntityFetch.Toml.Number
import EntityFetch.Toml.Text

/-!
# Documents in TOML

A document is a list of lines. A line gives a value to a key, or its header names
the table to which the lines after it belong, or it says nothing.
-/

namespace EntityFetch.Toml

open Reader

/-- What a line says. -/
inductive Line where
  | assignment (path : List String) (value : Toml)
  /-- A header in single or double brackets. -/
  | header (double : Bool) (path : List String)

/-- A key and its value. -/
def assignment (value : Reader Toml) : Reader (List String × Toml) := do
  let keys ← path
  exactly "="
  blanks
  return (keys, ← value)

/-- The items of an array and its end. -/
def items (value : Reader Toml) : Reader Toml := do
  exactly "["
  let vs ← separated (gap *> value <* gap) (exactly ",")
  if !vs.isEmpty then
    let _ ← optional (exactly ",")
  gap
  exactly "]"
  return array vs

/-- A table in braces, all on one line. -/
def braced (value : Reader Toml) : Reader Toml := do
  exactly "\x7b"
  let given ← separated (assignment value <* blanks) (exactly ",")
  blanks
  exactly "\x7d"
  table .inline <$> (given.foldlM (fun es (e : List String × Toml) => assign e.2 e.1 es) [] :
    Option Entries)

/-- A value in which arrays and inline tables nest no deeper than `depth`. -/
def value : Nat → Reader Toml
  | 0 => scalar
  | depth + 1 => scalar <|> items (value depth) <|> braced (value depth)
where
  /-- A value that holds no other. -/
  scalar : Reader Toml :=
    str <$> string <|> moment <|> number <|> (exactly "true" *> pure (bool true)) <|>
      (exactly "false" *> pure (bool false))

/-- What a line says, if anything. -/
def line : Reader (Option Line) := do
  blanks
  let said ← optional
    ((do
      exactly "[["
      let keys ← path
      exactly "]]"
      return Line.header true keys) <|>
    (do
      exactly "["
      let keys ← path
      exactly "]"
      return Line.header false keys) <|>
    (do
      let (keys, v) ← assignment (value (depthLimit - 1))
      return Line.assignment keys v))
  blanks
  let _ ← optional comment
  return said

/-- The lines of a document that say something, after a mark of byte order. -/
def lines : Reader (List Line) := do
  let _ ← optional (exactly "\ufeff")
  return (← separated line newline).filterMap id

/-- The path of the table to which the next lines belong, and all entries so far,
    after a line. -/
def step : List String × Entries → Line → Option (List String × Entries)
  | (here, es), .assignment keys v => do return (here, ← within (assign v keys) here es)
  | (_, es), .header double keys => do
    let k ← keys.getLast?
    return (keys, ← within (if double then pushTable k else openTable k) keys.dropLast es)

/-- The entries of a document, if it is TOML. -/
def read? (text : String) : Option Entries := do
  let (_, es) ← (← lines.all? text).foldlM step ([], [])
  return es

end EntityFetch.Toml
