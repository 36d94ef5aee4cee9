import EntityFetch.Record
import EntityFetch.Row
import EntityFetch.Statement.Compile

/-!
# Assembling records

A row of a compiled statement holds the values of the root and of all joined
relations side by side. Assembled, it is the record of the root with the joined
records below it. A joined relation whose values are all null is absent, and so is
whatever is joined to it: there was no row to join. The root is always there.

Rows with the same primary key of the root give one record, that of the first of
them.
-/

namespace EntityFetch

namespace Slot

/-- The record at an alias of a row. -/
def read (s : Slot) (row : Row) : Except QueryError Record := do
  let fields ← s.columns.mapM fun c =>
    match row.get? s.aliasName c with
    | some v => .ok (c, v)
    | none => .error (Fault.missingColumn s.aliasName c)
  return { entity := s.entity, fields := Assoc.ofList fields }

end Slot

namespace CompiledStatement

/-- Whether all fields of a record are null. -/
def isBlank (r : Record) : Bool :=
  r.fields.all (·.2.isNull)

/-- The records before and the one of the next slot, or none if it is absent. -/
def readSlot (row : Row) (before : List (Option Record)) (s : Slot) :
    Except QueryError (List (Option Record)) := do
  let r ← s.read row
  let isPresent :=
    match s.link with
    | none => true
    | some l => (before[l.parent]?.join).isSome && !isBlank r
  return before ++ [if isPresent then some r else none]

/-- The records in which the owner of a slot has a record for its relation. -/
def link (s : Slot) (child : Option Record) (records : List (Option Record)) :
    List (Option Record) :=
  match s.link with
  | none => records
  | some l => records.modify l.parent (Option.map (·.setRelation l.relation (.one child)))

/-- The records with every joined relation below its owner. The relations get
    their places in the order of the slots and then, the last slot first, their
    records, so that a record is complete when it is put below its owner. -/
def linkAll (slots : List Slot) (records : List (Option Record)) : List (Option Record) :=
  let placed := slots.foldl (fun rs s => link s none rs) records
  slots.zipIdx.foldr (fun s rs => link s.1 (rs[s.2]?.join) rs) placed

/-- The record of a row. -/
def assembleRow (c : CompiledStatement) (row : Row) : Except QueryError Record := do
  let records ← c.slots.foldlM (readSlot row) []
  match (linkAll c.slots records)[0]?.join with
  | some r => return r
  | none => .error (Fault.internal "statement root was not materialized")

/-- The first record with every key of a field that has not been seen, and all
    records without a key. -/
def firstByKey (field : String) (seen : List Key) : List Record → List Record
  | [] => []
  | r :: rs =>
    match r.key? field with
    | none => r :: firstByKey field seen rs
    | some k =>
      if seen.contains k then firstByKey field seen rs
      else r :: firstByKey field (k :: seen) rs

/-- The primary key of the root. -/
def rootKey (c : CompiledStatement) : String :=
  ((c.slots.head?).map Slot.primaryKey).getD ""

/-- The records of the rows of a statement. -/
def assemble (c : CompiledStatement) (rows : List Row) : Except QueryError (List Record) := do
  return firstByKey c.rootKey [] (← rows.mapM c.assembleRow)

end CompiledStatement

end EntityFetch
