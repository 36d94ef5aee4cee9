import EntityFetch.Sql.Fragment

/-!
# Orderings

Rows are ordered by columns of one table, each upwards or downwards.
-/

namespace EntityFetch

/-- The direction of an ordering. -/
inductive Direction where
  | ascending
  | descending
deriving DecidableEq, Repr, Inhabited

/-- The SQL word for a direction. -/
def Direction.keyword : Direction → String
  | ascending => "ASC"
  | descending => "DESC"

/-- An ordering by one column. -/
structure OrderBy where
  column : String
  direction : Direction := .ascending
deriving DecidableEq, Repr

/-- The ordering in SQL, by the column of the table with an alias. -/
def OrderBy.fragment (aliasName : String) (o : OrderBy) : Fragment :=
  Fragment.column aliasName o.column ++ [.word " ", .word o.direction.keyword]

end EntityFetch
