import EntityFetch.Json

/-!
# Values

The values of table columns, of conditions on them and of the fields of
records. They are compared as a database compares them: whatever has to do with
null is unknown, and so is the order of two values that do not belong together.

* `Value.compare?`: the order of two values, if they have one;
* `Value.equal?`: equality, unknown only for null;
* `Value.toJson`, `Value.ofJson`: values as JSON. A value is read back by its
  shape alone, so that what was an array or an object stays JSON.
-/

namespace EntityFetch

/-- A column value. -/
inductive Value where
  | null
  | bool (b : Bool)
  | int (n : Int)
  | float (x : Float)
  | str (s : String)
  | json (j : Json)
  | list (items : List Value)
deriving Inhabited, Repr

/-- The order of two floats, none if one is not a number. -/
def compareFloats? (x y : Float) : Option Ordering :=
  if x < y then some .lt
  else if x == y then some .eq
  else if y < x then some .gt
  else none

namespace Value

mutual

/-- Equality of values as data: null equals null, and an integer is no float. -/
def beq : Value → Value → Bool
  | null, null => true
  | bool a, bool b => a == b
  | int a, int b => a == b
  | float a, float b => a == b
  | str a, str b => a == b
  | json a, json b => a == b
  | list as, list bs => beqItems as bs
  | _, _ => false

/-- Equality item by item. -/
def beqItems : List Value → List Value → Bool
  | [], [] => true
  | a :: as, b :: bs => beq a b && beqItems as bs
  | _, _ => false

end

instance : BEq Value := ⟨beq⟩

/-- Whether a value is null. -/
def isNull : Value → Bool
  | null => true
  | _ => false

/-- The order of two values of one kind, integers and floats being one. JSON
    has no order but that of equals, lists have none at all. -/
def compare? : Value → Value → Option Ordering
  | bool a, bool b => some (compare a b)
  | int a, int b => some (compare a b)
  | float a, float b => compareFloats? a b
  | int a, float b => compareFloats? (Float.ofInt a) b
  | float a, int b => compareFloats? a (Float.ofInt b)
  | str a, str b => some (compare a b)
  | json a, json b => if a == b then some .eq else none
  | _, _ => none

/-- Equality of two values, unknown if one is null. -/
def equal? (a b : Value) : Option Bool :=
  if a.isNull || b.isNull then none else some (a.compare? b == some .eq)

/-- The text of a string value. -/
def str? : Value → Option String
  | str s => some s
  | _ => none

/-! ### JSON -/

mutual

/-- The value as JSON. A float that is no finite number becomes null. -/
def toJson : Value → Json
  | null => .null
  | bool b => .bool b
  | int n => .int n
  | float x => if x.isFinite then .float x else .null
  | str s => .str s
  | json j => j
  | list items => .arr (itemsToJson items)

/-- Every item as JSON. -/
def itemsToJson : List Value → List Json
  | [] => []
  | v :: vs => toJson v :: itemsToJson vs

end

/-- The least integer of 64 bits. -/
def minInt : Int := -0x8000000000000000

/-- The greatest integer of 64 bits. -/
def maxInt : Int := 0x7FFFFFFFFFFFFFFF

/-- The value that JSON stands for: the first kind of value with that shape. An
    integer beyond 64 bits is read as a float, and arrays and objects stay JSON. -/
def ofJson : Json → Value
  | .null => null
  | .bool b => bool b
  | .int n => if minInt ≤ n ∧ n ≤ maxInt then int n else float (Float.ofInt n)
  | .float x => float x
  | .str s => str s
  | j => json j

end Value

end EntityFetch
