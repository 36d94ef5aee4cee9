import EntityFetch.Assoc
import EntityFetch.Value.Key

/-!
# Records

A record is a row of an entity together with the records to which its loaded
relations lead. The records at the end of a path of relations can be listed
(`Record.reached`) and changed (`Record.updateAt`).
-/

namespace EntityFetch

/-- What a loaded relation leads to. -/
inductive Related (ρ : Type) where
  /-- At most one record. -/
  | one (record : Option ρ)
  /-- Any number of records. -/
  | many (records : List ρ)
deriving Repr

namespace Related

variable {ρ σ : Type}

/-- The records in order. -/
def toList : Related ρ → List ρ
  | one r => r.toList
  | many rs => rs

/-- Whether there is no record. -/
def isEmpty (r : Related ρ) : Bool :=
  r.toList.isEmpty

/-- Every record changed. -/
def map (f : ρ → σ) : Related ρ → Related σ
  | one r => one (r.map f)
  | many rs => many (rs.map f)

end Related

/-- A row of an entity with its loaded relations. -/
structure Record where
  entity : String
  /-- The values of the columns. -/
  fields : List (String × Value) := []
  relations : List (String × Related Record) := []
deriving Repr

namespace Record

/-- The value of a field. -/
def get? (r : Record) (field : String) : Option Value :=
  r.fields.lookup field

/-- The key of a field. -/
def key? (r : Record) (field : String) : Option Key :=
  (r.get? field).bind Value.key?

/-- A loaded relation. -/
def relation? (r : Record) (name : String) : Option (Related Record) :=
  r.relations.lookup name

/-- The record to which a relation to one leads. -/
def one? (r : Record) (name : String) : Option Record :=
  match r.relation? name with
  | some (.one r) => r
  | _ => none

/-- The records to which a relation to many leads. -/
def many (r : Record) (name : String) : List Record :=
  match r.relation? name with
  | some (.many rs) => rs
  | _ => []

/-- The record with a value in a field. -/
def setField (r : Record) (field : String) (v : Value) : Record :=
  { r with fields := Assoc.insert field v r.fields }

/-- The record with a loaded relation. -/
def setRelation (r : Record) (name : String) (related : Related Record) : Record :=
  { r with relations := Assoc.insert name related r.relations }

/-! ### Paths -/

/-- The records that are reached from some records along a path, in order. Where
    a relation is absent or not loaded nothing is reached. -/
def reached : List String → List Record → List Record
  | [], rs => rs
  | name :: path, rs =>
    rs.flatMap fun r => reached path (((r.relation? name).map Related.toList).getD [])

/-- The record in which every record that is reached along a path is changed. -/
def updateAt : List String → (Record → Record) → Record → Record
  | [], f, r => f r
  | name :: path, f, r =>
    { r with relations := Assoc.modify name (Related.map (updateAt path f)) r.relations }

/-! ### JSON -/

mutual

/-- The record as an object, fields first and then relations, each in order. A
    relation does not take the place of a field of the same name. -/
def tree : Record → Json
  | ⟨_, fields, relations⟩ =>
    .obj (fields.map (fun f => (f.1, f.2.toJson)) ++ relationTrees relations)

/-- Relations as entries. -/
def relationTrees : List (String × Related Record) → List (String × Json)
  | [] => []
  | (name, .one none) :: rest => (name, .null) :: relationTrees rest
  | (name, .one (some r)) :: rest => (name, tree r) :: relationTrees rest
  | (name, .many rs) :: rest => (name, .arr (trees rs)) :: relationTrees rest

/-- Records as objects. -/
def trees : List Record → List Json
  | [] => []
  | r :: rs => tree r :: trees rs

end

/-- The text of a record. -/
def text (r : Record) : String :=
  r.tree.text

/-- The record as JSON in normal form. -/
def toJson (r : Record) : Json :=
  r.tree.normalize

end Record

end EntityFetch
