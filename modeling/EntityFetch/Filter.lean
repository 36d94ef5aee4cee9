import EntityFetch.Distinct
import EntityFetch.Value

/-!
# Filters

A filter is a condition on the columns of one entity. It names the columns
without saying of which table: that is settled where the filter is put into a
statement, so that the same filter serves wherever its entity is read.

* `Filter.and`, `Filter.or`, `Filter.not`, `Filter.andThen` put filters
  together and leave the one that always holds aside;
* `Filter.columns`: the columns on which a filter depends.

What a filter says of a row is in `EntityFetch.Filter.Eval`, how it is written
in SQL in `EntityFetch.Filter.Fragment`.
-/

namespace EntityFetch

/-- A comparison of a column with a value. -/
inductive Comparison where
  | eq
  | ne
  | lt
  | le
  | gt
  | ge
deriving DecidableEq, Repr

/-- Where in a text a pattern has to be found. -/
inductive Position where
  | anywhere
  | start
  | finish
deriving DecidableEq, Repr

/-- A condition on the columns of one entity. -/
inductive Filter where
  /-- Holds of every row. -/
  | always
  | compare (op : Comparison) (column : String) (value : Value)
  /-- The column has one of the values. -/
  | member (column : String) (values : List Value)
  /-- The column has none of the values. -/
  | notMember (column : String) (values : List Value)
  /-- The pattern is found in the column, taken literally. -/
  | like (position : Position) (column : String) (pattern : Value)
  | isNull (column : String)
  | isNotNull (column : String)
  | all (filters : List Filter)
  | any (filters : List Filter)
  | negation (filter : Filter)
deriving Inhabited, Repr

namespace Filter

/-- Whether a filter is the one that always holds. -/
def isAlways : Filter → Bool
  | always => true
  | _ => false

/-- The filters that do not always hold, joined unless there is only one. -/
def combine (join : List Filter → Filter) (filters : List Filter) : Filter :=
  match filters.filter (!·.isAlways) with
  | [] => always
  | [f] => f
  | fs => join fs

/-- All of some filters. -/
def and (filters : List Filter) : Filter :=
  combine all filters

/-- Any of some filters. One that always holds is left aside here too. -/
def or (filters : List Filter) : Filter :=
  combine any filters

/-- The opposite of a filter, but of the one that always holds itself. -/
def not (f : Filter) : Filter :=
  if f.isAlways then always else negation f

/-- A filter and one more, added to the conjunction that the first may be. -/
def andThen (f g : Filter) : Filter :=
  if f.isAlways then g
  else if g.isAlways then f
  else match f with
    | all fs => all (fs ++ [g])
    | f => all [f, g]

/-! ### Columns -/

mutual

/-- The columns seen before and those of a filter after them. -/
def collect (seen : List String) : Filter → List String
  | always => seen
  | compare _ c _ => addNew seen c
  | member c _ => addNew seen c
  | notMember c _ => addNew seen c
  | like _ c _ => addNew seen c
  | isNull c => addNew seen c
  | isNotNull c => addNew seen c
  | all fs => collectAll seen fs
  | any fs => collectAll seen fs
  | negation f => collect seen f

/-- The columns seen before and those of some filters after them. -/
def collectAll (seen : List String) : List Filter → List String
  | [] => seen
  | f :: fs => collectAll (collect seen f) fs

end

/-- The columns of a filter, each once, in the order of their first occurrence. -/
def columns (f : Filter) : List String :=
  collect [] f

end Filter

end EntityFetch
