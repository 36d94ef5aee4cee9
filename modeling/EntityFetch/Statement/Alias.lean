import EntityFetch.Error

/-!
# Aliases

Inside a statement every table goes by an alias. It is made from the name of an
entity or from the path of a relation, in snake case, cut to the length that a
database allows, and numbered if it is taken (`AliasPool.allocate`).
-/

namespace EntityFetch

/-! ### Snake case -/

/-- Characters in snake case: words of small letters and digits with underscores
    between them. A capital letter starts a new word after a small letter or a
    digit, which is what `afterSmall` tells of the character before. -/
def snakeChars (afterSmall : Bool) : List Char → List Char
  | [] => []
  | c :: cs =>
    if c.isUpper then
      if afterSmall then '_' :: c.toLower :: snakeChars false cs
      else c.toLower :: snakeChars false cs
    else if c.isAlphanum then c :: snakeChars true cs
    else '_' :: snakeChars false cs

/-- A name in snake case: `lastDocument` becomes `last_document`. -/
def snakeCase (name : String) : String :=
  String.ofList (snakeChars false name.toList)

/-- The alias for a path of relations: `account.lastOwner` becomes
    `account__last_owner`. -/
def pathAlias (path : String) : String :=
  "__".intercalate ((Text.split '.' path).map snakeCase)

/-! ### Allocation -/

/-- The aliases in use in a statement. -/
structure AliasPool where
  /-- The greatest number of characters of an alias. -/
  maxLength : Nat
  /-- The greatest number that is put after an alias. -/
  maxSuffix : Nat
  used : List String := []
deriving DecidableEq, Repr

namespace AliasPool

/-- Whether an alias is taken. -/
def contains (p : AliasPool) (aliasName : String) : Bool :=
  p.used.contains aliasName

/-- A base with a number after it, cut so that both fit. -/
def numbered (p : AliasPool) (base : String) (n : Nat) : String :=
  let suffix := "_" ++ n.repr
  Text.truncate (p.maxLength - suffix.length) base ++ suffix

/-- The first of the bases with the numbers from `n` on, `left` of them, that
    is free. -/
def firstNumbered? (p : AliasPool) (base : String) (n : Nat) : Nat → Option String
  | 0 => none
  | left + 1 =>
    let candidate := p.numbered base n
    if p.contains candidate then p.firstNumbered? base (n + 1) left else some candidate

/-- The alias that a base gets: the base itself or the first numbered one that
    is free. -/
def free? (p : AliasPool) (base : String) : Option String :=
  if p.contains base then p.firstNumbered? base 1 p.maxSuffix else some base

/-- An alias for a base and the pool in which it is taken. -/
def allocate (p : AliasPool) (base : String) : Except QueryError (String × AliasPool) :=
  let base := Text.truncate p.maxLength base
  match p.free? base with
  | some aliasName => .ok (aliasName, { p with used := aliasName :: p.used })
  | none => .error (Fault.aliasCollision base p.maxSuffix)

end AliasPool

end EntityFetch
