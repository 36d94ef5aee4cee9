/-!
# Databases

The databases whose SQL is written differ in one thing, the placeholder of a
parameter.
-/

namespace EntityFetch

/-- A database. -/
inductive Dialect where
  | postgresql
  | mysql
  | sqlite
deriving DecidableEq, Repr, Inhabited

namespace Dialect

/-- The placeholder of the parameter with a number, counted from one. -/
def placeholder (d : Dialect) (number : Nat) : String :=
  match d with
  | postgresql => "$" ++ number.repr
  | mysql => "?"
  | sqlite => "?"

/-- The name of the database in a configuration. -/
def name : Dialect → String
  | postgresql => "postgresql"
  | mysql => "mysql"
  | sqlite => "sqlite"

end Dialect

end EntityFetch
