import EntityFetch.Assoc

/-!
# TOML

A TOML text gives values to keys. The keys of a table keep the order in which
they were given. Headers and dotted keys add to tables that are there already;
how a table has come to be (`TableForm`) settles what may still be added to it.

* `assign` gives a value to a dotted key;
* `openTable` and `pushTable` start the table of a header;
* `within` changes the table that a header has started.

Each of them fails where a key would be given twice or a table be added to
against the rules.
-/

namespace EntityFetch

/-- How a table has come to be. -/
inductive TableForm where
  /-- In braces. Nothing is added to it. -/
  | inline
  /-- By a header of its own. -/
  | header
  /-- By a header of a table inside it. Its own header may follow. -/
  | implied
  /-- By a dotted key. -/
  | dotted
  /-- By a header in double brackets, as an element of an array. -/
  | element
deriving DecidableEq, Repr

/-- A value. -/
inductive Toml where
  | str (s : String)
  | int (n : Int)
  | float (x : Float)
  | bool (b : Bool)
  /-- A date, a time of day, or both. -/
  | datetime (text : String)
  | array (items : List Toml)
  | table (form : TableForm) (entries : List (String × Toml))

namespace TableForm

/-- Whether a dotted key may lead through a table. The table that holds the last
    part of the key (`last`) must itself be one of dotted keys. -/
def isOpenToDots (last : Bool) : TableForm → Bool
  | dotted => true
  | implied => !last
  | element => !last
  | header => false
  | inline => false

/-- Whether a header may lead through a table. -/
def isOpenToHeaders (form : TableForm) : Bool :=
  form != inline

end TableForm

namespace Toml

/-- The entries of a table, in order. -/
abbrev Entries := List (String × Toml)

/-- The entries in which the value of a key is recomputed in place, from nothing
    if the key is new; a new key comes last. -/
def update? (k : String) (f : Option Toml → Option Toml) : Entries → Option Entries
  | [] => do return [(k, ← f none)]
  | (k', v) :: es =>
    if k = k' then do return (k', ← f (some v)) :: es
    else do return (k', v) :: (← update? k f es)

/-- Changes a table to which a key leads; for an array of tables its last element
    is meant. The table must have a form that allows it. -/
def descend (allowed : TableForm → Bool) (f : Entries → Option Entries) : Toml → Option Toml
  | table form es => if allowed form then table form <$> f es else none
  | array items =>
    match items.getLast? with
    | some (table .element es) =>
      if allowed .element then do return array (items.dropLast ++ [table .element (← f es)])
      else none
    | _ => none
  | _ => none

/-- The entries with a value given to a dotted key, which must be new. -/
def assign (v : Toml) : List String → Entries → Option Entries
  | [], _ => none
  | [k], es => update? k (fun old => if old.isNone then some v else none) es
  | k :: ks, es =>
    let change : Option Toml → Option Toml
      | none => table .dotted <$> assign v ks []
      | some t => t.descend (TableForm.isOpenToDots (ks.length == 1)) (assign v ks)
    update? k change es

/-- Changes the table at a path of keys. Tables that are missing are implied. -/
def within (f : Entries → Option Entries) : List String → Entries → Option Entries
  | [], es => f es
  | k :: ks, es =>
    let change : Option Toml → Option Toml
      | none => table .implied <$> within f ks []
      | some t => t.descend TableForm.isOpenToHeaders (within f ks)
    update? k change es

/-- Starts the table of a header `[k]`. A table that has been implied keeps its
    entries and moves to the end. -/
def openTable (k : String) (es : Entries) : Option Entries :=
  match es.lookup k with
  | none => some (es ++ [(k, table .header [])])
  | some (table .implied old) => some (es.filter (·.1 != k) ++ [(k, table .header old)])
  | some _ => none

/-- Starts the table of a header `[[k]]`, a further element of its array. -/
def pushTable (k : String) (es : Entries) : Option Entries :=
  let change : Option Toml → Option Toml
    | none => some (array [table .element []])
    | some (array items) =>
      match items.getLast? with
      | some (table .element _) => some (array (items ++ [table .element []]))
      | _ => none
    | some _ => none
  update? k change es

end Toml

end EntityFetch
