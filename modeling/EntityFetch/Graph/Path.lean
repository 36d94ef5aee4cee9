import EntityFetch.Error
import EntityFetch.Text.Blank

/-!
# Relation paths

A relation path leads from the root of a fetch along relations, by their names
with dots between them. Blanks around a name do not count; a name that is empty
is no name.
-/

namespace EntityFetch

/-- The names of relations in a row. -/
structure RelationPath where
  segments : List String
deriving DecidableEq, Repr

/-- Names with dots between them. -/
def dotted (names : List String) : String :=
  ".".intercalate names

namespace RelationPath

/-- The path that a text gives. -/
def parse (s : String) : Except QueryError RelationPath :=
  let segments := (Text.split '.' s).map Text.trim
  if segments.any (·.isEmpty) then .error (Fault.invalidPopulate s) else .ok { segments }

/-- The number of relations on a path. -/
def depth (p : RelationPath) : Nat :=
  p.segments.length

/-- The dotted form of the first `n` names. -/
def upTo (p : RelationPath) (n : Nat) : String :=
  dotted (p.segments.take n)

/-- The dotted form. -/
def text (p : RelationPath) : String :=
  dotted p.segments

end RelationPath

end EntityFetch
