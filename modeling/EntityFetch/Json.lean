/-!
# JSON values

JSON as a data format: numbers are integers or floats, and the two are never
equal, not even `1` and `1.0`. An object is the list of its entries. In a
normal object (`Json.normalize`) every name occurs once and the names go in the
order of their code points, so that two normal values are the same value
exactly if they are equal.
-/

namespace EntityFetch

/-- A JSON value. -/
inductive Json where
  | null
  | bool (b : Bool)
  | int (n : Int)
  | float (x : Float)
  | str (s : String)
  | arr (items : List Json)
  | obj (entries : List (String × Json))
deriving Inhabited, Repr

namespace Json

mutual

/-- Equality of normal values. Floats are compared as numbers. -/
def beq : Json → Json → Bool
  | null, null => true
  | bool a, bool b => a == b
  | int a, int b => a == b
  | float a, float b => a == b
  | str a, str b => a == b
  | arr as, arr bs => beqItems as bs
  | obj as, obj bs => beqEntries as bs
  | _, _ => false

/-- Equality item by item. -/
def beqItems : List Json → List Json → Bool
  | [], [] => true
  | a :: as, b :: bs => beq a b && beqItems as bs
  | _, _ => false

/-- Equality entry by entry. -/
def beqEntries : List (String × Json) → List (String × Json) → Bool
  | [], [] => true
  | (k, a) :: as, (l, b) :: bs => k == l && beq a b && beqEntries as bs
  | _, _ => false

end

instance : BEq Json := ⟨beq⟩

/-- The entries with one more in the order of the names; it takes the place of
    an entry of the same name. -/
def insertEntry (k : String) (v : Json) : List (String × Json) → List (String × Json)
  | [] => [(k, v)]
  | (l, w) :: es =>
    match compare k l with
    | .lt => (k, v) :: (l, w) :: es
    | .eq => (k, v) :: es
    | .gt => (l, w) :: insertEntry k v es

/-- Entries in the order of their names; of those with the same name the last
    stays. -/
def sortEntries (es : List (String × Json)) : List (String × Json) :=
  es.foldl (fun sorted e => insertEntry e.1 e.2 sorted) []

mutual

/-- The value with all its objects in normal form. -/
def normalize : Json → Json
  | null => null
  | bool b => bool b
  | int n => int n
  | float x => float x
  | str s => str s
  | arr items => arr (normalizeItems items)
  | obj entries => obj (sortEntries (normalizeEntries entries))

/-- Every item in normal form. -/
def normalizeItems : List Json → List Json
  | [] => []
  | j :: js => normalize j :: normalizeItems js

/-- The value of every entry in normal form. -/
def normalizeEntries : List (String × Json) → List (String × Json)
  | [] => []
  | (k, v) :: es => (k, normalize v) :: normalizeEntries es

end

end Json

end EntityFetch
