import EntityFetch.Filter.Eval
import EntityFetch.Row
import EntityFetch.Sorting
import EntityFetch.Statement

/-!
# Tables in memory

A store keeps tables in memory and answers statements as a database does
(`Store.evaluate`): it reads the rows of the root of which all conditions are
true, joins to each of them the matching rows of every join in turn, orders the
result and cuts it to size. Whatever is not true, be it false or unknown, does not
match.

Values of different kinds cannot be compared and are equal in the order, which is no
preorder if a column has several kinds. More than twenty rows are then not always put in
order: the program may end while it sorts them (`Store.breaksOff`).
-/

namespace EntityFetch

/-- A row of a table: values by column. -/
abbrev TableRow := List (String × Value)

/-- The value of a column, null if there is none. -/
def TableRow.value (r : TableRow) (column : String) : Value :=
  (List.lookup column r).getD .null

/-- Tables in memory. -/
structure Store where
  tables : List (String × List TableRow) := []
  /-- A table of which no statement can be read. -/
  failing : Option String := none

namespace Store

/-- The rows of a table. -/
def rows (s : Store) (table : String) : List TableRow :=
  (s.tables.lookup table).getD []

/-- The store with one more row at the end of a table. -/
def insert (s : Store) (table : String) (row : TableRow) : Store :=
  { s with tables := Assoc.update table (fun rs => rs.getD [] ++ [row]) s.tables }

/-- The store with the rows that JSON gives, an object or an array of objects,
    at the end of a table. What is no object is left out. -/
def insertJson (s : Store) (table : String) (j : Json) : Store :=
  let objects :=
    match j with
    | .arr js => js
    | j => [j]
  objects.foldl (fun s j =>
    match j.normalize with
    | .obj es => s.insert table (es.map fun e => (e.1, Value.ofJson e.2))
    | _ => s) s

/-! ### Joining -/

/-- Whether a filter is true of a row. -/
def keeps (r : TableRow) (f : Filter) : Bool :=
  f.holds r.value

/-- Whether a row of the joined table matches, given the value of the parent. -/
def matchesJoin (j : Join) (parent : Value) (candidate : TableRow) : Bool :=
  parent.equal? (candidate.value j.column) == some true &&
    j.filters.all fun a => keeps candidate a.filter

/-- The rows that a join makes of one: one for every match or, if there is none,
    what the kind of the join says. -/
def joinRow (s : Statement) (table : List TableRow) (j : Join) (row : Row) : List Row :=
  let parent := (row.get? j.parentAlias j.parentColumn).getD .null
  let columns := s.columnsOf j.aliasName
  match table.filter (matchesJoin j parent), j.kind with
  | [], .inner => []
  | [], .left => [row.insertAll j.aliasName columns fun _ => .null]
  | found, _ => found.map fun candidate => row.insertAll j.aliasName columns candidate.value

/-! ### Ordering -/

/-- The order of two values of a column: null is the least, and values that cannot
    be compared are equal. -/
def compareValues (a b : Value) : Ordering :=
  match a.isNull, b.isNull with
  | true, true => .eq
  | true, false => .lt
  | false, true => .gt
  | false, false => (a.compare? b).getD .eq

/-- The order of two rows by the columns of an alias, the first difference being
    decisive. -/
def compareRows (aliasName : String) (a b : Row) : List OrderBy → Ordering
  | [] => .eq
  | o :: os =>
    let value (r : Row) := (r.get? aliasName o.column).getD .null
    let c := compareValues (value a) (value b)
    let c :=
      match o.direction with
      | .ascending => c
      | .descending => c.swap
    match c with
    | .eq => compareRows aliasName a b os
    | c => c

/-- The elements in order, those that are equal as they are. If the sort breaks off there is
    no such list; what stands here for it is the list as it was. -/
def sortBy {α : Type} (isBelow : α → α → Bool) (as : List α) : List α :=
  (Sorting.sort? isBelow as).getD as

/-- Whether a row comes strictly before another one in the order of a statement. -/
def isBefore (s : Statement) (a b : Row) : Bool :=
  compareRows s.root.aliasName a b s.orderBy == .lt

/-- Rows in the order that a statement asks for. If every column that it names holds null or
    values of one kind, this is the stable sort; if not, it is what the steps of the sort make
    of the rows, unless it breaks off. -/
def order (s : Statement) (rows : List Row) : List Row :=
  if s.orderBy.isEmpty then rows else sortBy (isBefore s) rows

/-! ### Statements -/

/-- Rows without those before the offset and after the limit. -/
def paginate {α : Type} (offset limit : Option Nat) (rows : List α) : List α :=
  let rows := rows.drop (offset.getD 0)
  match limit with
  | some n => rows.take n
  | none => rows

/-- The rows of the root of a statement of which its conditions are true. -/
def rootRows (store : Store) (s : Statement) : List TableRow :=
  (store.rows s.root.table).filter fun r => s.predicates.all fun p => keeps r p.filter

/-- The rows that a statement reads, in no order and of any number. -/
def joinedRows (store : Store) (s : Statement) : List Row :=
  let start := (store.rootRows s).map fun r =>
    ({} : Row).insertAll s.root.aliasName (s.columnsOf s.root.aliasName) r.value
  s.joins.foldl (fun rows j => rows.flatMap (joinRow s (store.rows j.table.table) j)) start

/-- The rows that a statement reads, unless the program ends while it sorts them
    (`breaksOff`). -/
def evaluate (store : Store) (s : Statement) : List Row :=
  paginate s.offset s.limit (order s (store.joinedRows s))

/-- Whether the sort of the rows that a statement reads breaks off. A program that evaluates the
    statement ends there, so that it has no rows at all. -/
def breaksOff (store : Store) (s : Statement) : Bool :=
  !s.orderBy.isEmpty && (Sorting.sort? (isBefore s) (store.joinedRows s)).isNone

/-- The answer to a statement, which is an error if it reads the failing table. Else it is that
    of a program that goes on (`breaksOff`). -/
def answer (store : Store) (s : Statement) : Except QueryError (List Row) :=
  match store.failing with
  | some t =>
    if s.tables.contains t then
      .error <|
        QueryError.withSql (Fault.execution ("simulated failure reading '" ++ t ++ "'")) s.text
    else .ok (store.evaluate s)
  | none => .ok (store.evaluate s)

end Store

end EntityFetch
