import EntityFetch.Assoc
import EntityFetch.Text.Split
import EntityFetch.Value

/-!
# Rows of a result

A row of a result holds, for every alias of a statement, the values of the
columns that were read there. A database that knows columns by their labels only
gives rows as values with labels (`Row.ofLabelled`).
-/

namespace EntityFetch

/-- A row of a result: values by alias and column. -/
structure Row where
  values : List (String × List (String × Value)) := []

namespace Row

/-- The row with a value at a column of an alias. -/
def insert (r : Row) (aliasName column : String) (v : Value) : Row :=
  { values := Assoc.update aliasName (fun cs => Assoc.insert column v (cs.getD [])) r.values }

/-- The row with the values of some columns of an alias. -/
def insertAll (r : Row) (aliasName : String) (columns : List String) (value : String → Value) :
    Row :=
  columns.foldl (fun r c => r.insert aliasName c (value c)) r

/-- The row of some values with labels. A label is an alias and a column with a
    dot between them; values with other labels are left out. -/
def ofLabelled (values : List (String × Value)) : Row :=
  values.foldl (fun r e =>
    match Text.splitFirst? '.' e.1 with
    | some (aliasName, column) => r.insert aliasName column e.2
    | none => r) {}

/-- The values at an alias. -/
def alias? (r : Row) (aliasName : String) : Option (List (String × Value)) :=
  r.values.lookup aliasName

/-- The value at a column of an alias. -/
def get? (r : Row) (aliasName column : String) : Option Value :=
  (r.alias? aliasName).bind (List.lookup column)

/-- Whether an alias has no value but null. -/
def isAliasNull (r : Row) (aliasName : String) : Bool :=
  ((r.alias? aliasName).getD []).all (·.2.isNull)

end Row

end EntityFetch
