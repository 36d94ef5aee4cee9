import EntityFetch.Assoc
import EntityFetch.Value

/-!
# Overrides

An override switches a global filter on or off by its name and may give it
arguments. Overrides come in layers, of which a higher one is merged into a
lower one (`Overrides.merged`): a filter that the higher layer names is switched
as it says there, and its arguments are those of both, the higher ones winning.
-/

namespace EntityFetch

/-- Arguments of a filter, by name. -/
abbrev Args := List (String × Value)

/-- What is said of one filter. -/
structure Setting where
  enabled : Bool := false
  args : Args := []

/-- What is said of some filters, by name. -/
structure Overrides where
  settings : List (String × Setting) := []

namespace Setting

/-- A setting with another one over it. -/
def merged (lower higher : Setting) : Setting :=
  { enabled := higher.enabled, args := Assoc.extend lower.args higher.args }

end Setting

namespace Overrides

/-- The overrides that say nothing. -/
def empty : Overrides := {}

/-- The setting of a filter. -/
def get? (o : Overrides) (name : String) : Option Setting :=
  o.settings.lookup name

/-- Whether nothing is said of any filter. -/
def isEmpty (o : Overrides) : Bool :=
  o.settings.isEmpty

/-- Switches a filter on or off; it keeps its arguments. -/
def set (o : Overrides) (name : String) (enabled : Bool) : Overrides :=
  { settings := Assoc.update name (fun s => { s.getD {} with enabled }) o.settings }

/-- Switches a filter on. -/
def enable (o : Overrides) (name : String) : Overrides :=
  o.set name true

/-- Switches a filter off. -/
def disable (o : Overrides) (name : String) : Overrides :=
  o.set name false

/-- Switches a filter on and gives it arguments, besides those it has. -/
def withArgs (o : Overrides) (name : String) (args : Args) : Overrides :=
  let change (old : Option Setting) : Setting := (old.getD {}).merged { enabled := true, args }
  { settings := Assoc.update name change o.settings }

/-- The overrides with a higher layer over them. -/
def merged (lower higher : Overrides) : Overrides :=
  { settings := higher.settings.foldl
      (fun m e => Assoc.update e.1 (fun s => (s.getD {}).merged e.2) m) lower.settings }

end Overrides

end EntityFetch
