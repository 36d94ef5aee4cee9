/-!
# Texts in parts

A text is cut at a separating character into one part more than there are
separators, and parts are joined again with a text between them.
-/

namespace EntityFetch.Text

/-- The parts of a text between the occurrences of a separator; a text without
    one is its only part. -/
def split (separator : Char) (s : String) : List String :=
  (s.toList.splitOn separator).map String.ofList

/-- The part before the first separator and all of the text after it. -/
def splitFirst? (separator : Char) (s : String) : Option (String × String) :=
  match s.toList.span (· != separator) with
  | (_, []) => none
  | (before, _ :: after) => some (String.ofList before, String.ofList after)

/-- The first `n` characters of a text. -/
def truncate (n : Nat) (s : String) : String :=
  String.ofList (s.toList.take n)

/-- A text with each occurrence of a character replaced. -/
def replaceChar (c : Char) (replacement : String) (s : String) : String :=
  String.ofList (s.toList.flatMap fun d => if d = c then replacement.toList else [d])

end EntityFetch.Text
