import EntityFetch.GlobalFilter
import EntityFetch.Filter.Fragment
import EntityFetch.Order

/-!
# Statements

A statement reads the rows of one table, its root, and joins rows of other tables
to them. Its conditions are of three sorts: those of the caller, the look-up of
keys by which a statement finds rows for owners loaded before, and global
filters. Conditions on a joined table are part of the join, so that they decide
what is joined and not which rows of the root are read.

A statement is a value and belongs to no database; its SQL is
`Statement.fragment`.
-/

namespace EntityFetch

/-- A table with its alias. -/
structure TableRef where
  table : String
  aliasName : String
deriving DecidableEq, Repr

/-- A column of the table with an alias. -/
structure ColumnRef where
  aliasName : String
  column : String
deriving DecidableEq, Repr

/-- The label of a column in the rows of a result. -/
def ColumnRef.label (c : ColumnRef) : String :=
  c.aliasName ++ "." ++ c.column

/-- A kind of join. -/
inductive JoinKind where
  /-- A row to which nothing can be joined is dropped. -/
  | inner
  /-- A row to which nothing can be joined is filled up with nulls. -/
  | left
deriving DecidableEq, Repr

/-- The SQL words for a join. -/
def JoinKind.keyword : JoinKind → String
  | inner => "INNER JOIN"
  | left => "LEFT JOIN"

/-- A join of one relation: the rows of a table whose column equals the column
    of the parent, and of which the filters are true. -/
structure Join where
  kind : JoinKind
  table : TableRef
  parentAlias : String
  parentColumn : String
  column : String
  filters : List ActiveFilter
  /-- The path of the relation that is joined. -/
  path : String
deriving Repr

namespace Join

/-- The alias of the joined table. -/
def aliasName (j : Join) : String :=
  j.table.aliasName

/-- Whether no filter can keep a row from being joined. -/
def isFilterSafe (j : Join) : Bool :=
  j.filters.isEmpty

/-- The join in SQL. -/
def fragment (j : Join) : Fragment :=
  [.word " ", .word j.kind.keyword, .word " ", .name j.table.table, .word " AS ", .name j.aliasName,
    .word " ON "] ++ Fragment.column j.parentAlias j.parentColumn ++ .word " = " ::
    Fragment.column j.aliasName j.column ++
    j.filters.flatMap fun a => .word " AND " :: a.filter.fragment j.aliasName

end Join

/-- Where a condition of a statement comes from. -/
inductive PredicateSource where
  /-- The caller. -/
  | criteria
  /-- The keys of owners loaded before. -/
  | keyLookup
  /-- The global filter with a name. -/
  | globalFilter (name : String)
deriving DecidableEq, Repr

/-- A condition of a statement, on the table with an alias. -/
structure Predicate where
  aliasName : String
  filter : Filter
  source : PredicateSource
deriving Repr

/-- A statement that reads rows. -/
structure Statement where
  /-- The table of which the rows are read. -/
  root : TableRef
  /-- What is read of every row. -/
  columns : List ColumnRef
  /-- The joins, parents before their children. -/
  joins : List Join
  /-- The conditions, all of which have to be true. -/
  predicates : List Predicate
  /-- Orderings by columns of the root, the first one being decisive. -/
  orderBy : List OrderBy
  /-- The greatest number of rows. -/
  limit : Option Nat
  /-- The number of rows to leave out at the start. -/
  offset : Option Nat
deriving Repr

namespace Statement

/-- The aliases, that of the root being the first. -/
def aliases (s : Statement) : List String :=
  s.root.aliasName :: s.joins.map Join.aliasName

/-- The join with an alias. -/
def join? (s : Statement) (aliasName : String) : Option Join :=
  s.joins.find? (·.aliasName == aliasName)

/-- What is read of the table with an alias. -/
def columnsOf (s : Statement) (aliasName : String) : List String :=
  (s.columns.filter (·.aliasName == aliasName)).map ColumnRef.column

/-- The tables that are read. -/
def tables (s : Statement) : List String :=
  s.root.table :: s.joins.map fun j => j.table.table

/-! ### Keys -/

/-- Conditions, of which the first look-up of keys gets other keys. -/
def bindIn (keys : List Value) : List Predicate → List Predicate
  | [] => []
  | p :: ps =>
    match p.source, p.filter with
    | .keyLookup, .member c _ => { p with filter := .member c keys } :: ps
    | _, _ => p :: bindIn keys ps

/-- The statement with other keys to look up. -/
def bindKeys (s : Statement) (keys : List Value) : Statement :=
  { s with predicates := bindIn keys s.predicates }

/-- The keys that are looked up. -/
def boundKeys (s : Statement) : List Value :=
  match (s.predicates.find? (·.source = .keyLookup)).map Predicate.filter with
  | some (.member _ keys) => keys
  | _ => []

/-! ### SQL -/

/-- A column that is read, with its label. -/
def columnFragment (c : ColumnRef) : Fragment :=
  Fragment.column c.aliasName c.column ++ [.word " AS ", .label c.label]

/-- Fragments after a keyword, with a word between them, or nothing. -/
def clause (keyword word : String) (fs : List Fragment) : Fragment :=
  if fs.isEmpty then [] else .word keyword :: Fragment.separated word fs

/-- A number after a keyword, or nothing. -/
def numberClause (keyword : String) : Option Nat → Fragment
  | some n => [.word (keyword ++ n.repr)]
  | none => []

/-- The statement in SQL. -/
def fragment (s : Statement) : Fragment :=
  .word "SELECT " :: Fragment.separated ", " (s.columns.map columnFragment) ++
    [.word " FROM ", .name s.root.table, .word " AS ", .name s.root.aliasName] ++
    s.joins.flatMap Join.fragment ++
    clause " WHERE " " AND " (s.predicates.map fun p => p.filter.fragment p.aliasName) ++
    clause " ORDER BY " ", " (s.orderBy.map (OrderBy.fragment s.root.aliasName)) ++
    numberClause " LIMIT " s.limit ++ numberClause " OFFSET " s.offset

/-- The SQL text of the statement for a database. -/
def sqlText (s : Statement) (d : Dialect) : String :=
  s.fragment.text d

/-- The values that are bound to the placeholders in the SQL text. -/
def params (s : Statement) : List Value :=
  s.fragment.params

/-- The statement as it is shown. -/
def text (s : Statement) : String :=
  s.sqlText .postgresql

end Statement

end EntityFetch
