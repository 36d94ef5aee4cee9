import EntityFetch.Json.Printer
import EntityFetch.Value

/-!
# Keys

A value by which rows find their owners and are told apart. Keys are compared
as data, not as a database does: null has no key, and a whole float has the key
of the integer.
-/

namespace EntityFetch

/-- The key of a value. -/
inductive Key where
  | bool (b : Bool)
  | int (n : Int)
  | str (s : String)
  /-- Any other value, by its JSON text. -/
  | other (text : String)
deriving DecidableEq, Repr

/-- Whether a float is a whole number. -/
def isWhole (x : Float) : Bool :=
  x.isFinite && x.floor == x

/-- The key of a value. A whole float beyond 64 bits has the key of the nearest
    integer within. -/
def Value.key? : Value → Option Key
  | .null => none
  | .bool b => some (.bool b)
  | .int n => some (.int n)
  | .float x =>
    if isWhole x then some (.int x.toInt64.toInt) else some (.other (Value.float x).toJson.text)
  | .str s => some (.str s)
  | v => some (.other v.toJson.text)

end EntityFetch
