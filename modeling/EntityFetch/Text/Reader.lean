/-!
# Reading text

A reader takes a value off the front of a text, or fails. Readers are put
together in sequence, as alternatives of which the first that succeeds is taken
(`<|>`, `optional`), and in repetition (`many`, `separated`).
-/

namespace EntityFetch

/-- A reader of values of a type: the value and the characters after it. -/
abbrev Reader := StateT (List Char) Option

namespace Reader

variable {α β : Type}

/-- Reads all of a text. -/
def all? (r : Reader α) (text : String) : Option α :=
  match r.run text.toList with
  | some (a, []) => some a
  | _ => none

/-- The next character, of a kind. -/
def char (p : Char → Bool) : Reader Char := fun cs =>
  match cs with
  | c :: cs => if p c then some (c, cs) else none
  | [] => none

/-- The characters of a kind up to the first of another. -/
def span (p : Char → Bool) : Reader (List Char) := fun cs =>
  some (cs.takeWhile p, cs.dropWhile p)

/-- A given text. -/
def exactly (text : String) : Reader Unit := fun cs =>
  if text.toList.isPrefixOf cs then some ((), cs.drop text.length) else none

/-- What a reader reads time after time, but not more than `n` times. -/
def atMost (r : Reader α) : Nat → Reader (List α)
  | 0 => pure []
  | n + 1 => do
    match ← optional r with
    | none => return []
    | some a => return a :: (← atMost r n)

/-- What a reader reads time after time until it fails. Each time it takes a
    character at least, so that their number bounds the times. -/
def many (r : Reader α) : Reader (List α) := fun cs =>
  atMost r cs.length cs

/-- What a reader reads time after time, with a separator between. -/
def separated (r : Reader α) (separator : Reader β) : Reader (List α) := do
  match ← optional r with
  | none => return []
  | some a => return a :: (← many (separator *> r))

/-- A number of characters of a kind. -/
def exactlyMany (n : Nat) (p : Char → Bool) : Reader (List Char) := fun cs =>
  let read := cs.take n
  if read.length = n && read.all p then some (read, cs.drop n) else none

/-- Whether a character is a digit in base sixteen. -/
def isHexDigit (c : Char) : Bool :=
  c.isDigit || ('a' ≤ c && c ≤ 'f') || ('A' ≤ c && c ≤ 'F')

end Reader

end EntityFetch
