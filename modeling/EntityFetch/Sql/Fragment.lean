import EntityFetch.Sql.Dialect
import EntityFetch.Sql.Identifier
import EntityFetch.Value

/-!
# Fragments of SQL

SQL is put together from words, names and parameters. A fragment knows neither
the database nor how many parameters come before it: both matter only when its
text is written (`Fragment.text`), and then only for the placeholders. The
parameters themselves are the same for every database (`Fragment.params`).
-/

namespace EntityFetch

/-- A piece of SQL. -/
inductive Piece where
  /-- Words and punctuation. -/
  | word (s : String)
  /-- A name, quoted if it has to be. -/
  | name (s : String)
  /-- A name that is quoted in any case. -/
  | label (s : String)
  /-- A parameter, bound to a value. -/
  | param (v : Value)

/-- The value bound by a piece. -/
def Piece.param? : Piece → Option Value
  | param v => some v
  | _ => none

/-- Pieces of SQL in a row. -/
abbrev Fragment := List Piece

namespace Fragment

/-- A column of the table with an alias. -/
def column (aliasName column : String) : Fragment :=
  [.name aliasName, .word ".", .name column]

/-- Fragments with a word between them. -/
def separated (word : String) : List Fragment → Fragment
  | [] => []
  | [f] => f
  | f :: g :: fs => f ++ .word word :: separated word (g :: fs)

/-- The texts of the pieces, the first placeholder having a given number. -/
def texts (d : Dialect) : Nat → Fragment → List String
  | _, [] => []
  | n, .word s :: ps => s :: texts d n ps
  | n, .name s :: ps => Identifier.text s :: texts d n ps
  | n, .label s :: ps => Identifier.quoted s :: texts d n ps
  | n, .param _ :: ps => d.placeholder n :: texts d (n + 1) ps

/-- The text of a fragment that stands alone. -/
def text (d : Dialect) (f : Fragment) : String :=
  String.join (f.texts d 1)

/-- The bound values in the order of their placeholders. -/
def params (f : Fragment) : List Value :=
  f.filterMap Piece.param?

end Fragment

end EntityFetch
