/-!
# Classes of characters

A class of characters is given by a table of ranges of codes.
-/

namespace EntityFetch.Text

/-- Ranges of codes, each given by its first and its last code. -/
abbrev Ranges := List (Nat × Nat)

namespace Ranges

/-- Whether the code of a character lies in one of the ranges. -/
def contains (ranges : Ranges) (c : Char) : Bool :=
  ranges.any fun r => r.1 ≤ c.toNat && c.toNat ≤ r.2

end Ranges

end EntityFetch.Text
