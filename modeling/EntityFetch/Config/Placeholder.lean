import EntityFetch.Environment

/-!
# Placeholders in a configuration

A placeholder is a name between `${` and the next `}`, and has at least one
character. Reading from the left, each placeholder whose name is a variable that
is set gives way to the value of the variable; one whose variable is not set
stays as it is. What a value brings in is not read for placeholders again
(`Placeholder.expandFrom_closed`).
-/

namespace EntityFetch.Placeholder

/-- What a placeholder with a name stands for. -/
def valueOf (env : Environment) (name : List Char) : List Char :=
  match env (String.ofList name) with
  | some value => value.toList
  | none => '$' :: '\x7b' :: (name ++ ['\x7d'])

/-- The text that is read on from outside a placeholder, or from inside one whose
    name has begun so. A placeholder that is never closed is none. -/
def expandFrom (env : Environment) : Option (List Char) → List Char → List Char
  | none, '$' :: '\x7b' :: c :: cs =>
    if c = '\x7d' then '$' :: '\x7b' :: '\x7d' :: expandFrom env none cs
    else expandFrom env (some [c]) cs
  | none, c :: cs => c :: expandFrom env none cs
  | none, [] => []
  | some name, c :: cs =>
    if c = '\x7d' then valueOf env name ++ expandFrom env none cs
    else expandFrom env (some (name ++ [c])) cs
  | some name, [] => '$' :: '\x7b' :: name

/-- A text with the values of its placeholders. -/
def expand (env : Environment) (text : String) : String :=
  String.ofList (expandFrom env none text.toList)

/-- Inside a placeholder the name goes on to the next `}`. -/
theorem expandFrom_open (env : Environment) (name more rest : List Char)
    (h : '\x7d' ∉ more) :
    expandFrom env (some name) (more ++ '\x7d' :: rest) =
      valueOf env (name ++ more) ++ expandFrom env none rest := by
  induction more generalizing name with
  | nil => simp [expandFrom]
  | cons c more ih =>
    rw [List.mem_cons, not_or] at h
    simp only [List.cons_append, expandFrom, if_neg (Ne.symm h.1)]
    rw [ih (name ++ [c]) h.2]
    simp

/-- A placeholder gives way to what it stands for. -/
theorem expandFrom_closed (env : Environment) (c : Char) (more rest : List Char)
    (hc : c ≠ '\x7d') (h : '\x7d' ∉ more) :
    expandFrom env none ('$' :: '\x7b' :: c :: (more ++ '\x7d' :: rest)) =
      valueOf env (c :: more) ++ expandFrom env none rest := by
  simp only [expandFrom, if_neg hc]
  exact expandFrom_open env [c] more rest h

end EntityFetch.Placeholder
