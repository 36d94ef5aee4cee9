/-!
# Insertion-ordered maps

A map from keys to values that remembers the order in which its keys were
first given is the list of its entries. It is read with `List.lookup`. Giving
a value to a key that is there keeps the key's place.

* `lookup_insert`: after an insertion the key has the new value and every
  other key the value it had;
* `keys_insert`: an insertion adds the key at the end, if it is not there yet.
-/

namespace EntityFetch.Assoc

universe u v

variable {α : Type u} {β : Type v}

/-- The keys in the order of their first insertion. -/
def keys (m : List (α × β)) : List α :=
  m.map Prod.fst

@[simp]
theorem keys_nil : keys ([] : List (α × β)) = [] := rfl

@[simp]
theorem keys_cons (e : α × β) (m : List (α × β)) : keys (e :: m) = e.1 :: keys m := rfl

variable [BEq α]

/-- The map in which the value of a key is recomputed, from nothing if the key
    is new; a new key comes last. -/
def update (k : α) (f : Option β → β) : List (α × β) → List (α × β)
  | [] => [(k, f none)]
  | (k', v) :: m => if k == k' then (k', f (some v)) :: m else (k', v) :: update k f m

/-- The map with a value given to a key. -/
def insert (k : α) (v : β) (m : List (α × β)) : List (α × β) :=
  update k (fun _ => v) m

/-- The entries of the second map inserted into the first, in their order. -/
def extend (m n : List (α × β)) : List (α × β) :=
  n.foldl (fun m e => insert e.1 e.2 m) m

/-- The map of a list of entries, of which a later one wins. -/
def ofList (entries : List (α × β)) : List (α × β) :=
  extend [] entries

/-- The map in which the value of a key, if it has one, is changed in place. -/
def modify (k : α) (f : β → β) : List (α × β) → List (α × β)
  | [] => []
  | (k', v) :: m => if k == k' then (k', f v) :: m else (k', v) :: modify k f m

section Lawful

variable [LawfulBEq α]

/-- After an update the key has the recomputed value and every other key the
    value it had. -/
theorem lookup_update (k j : α) (f : Option β → β) (m : List (α × β)) :
    (update k f m).lookup j = if j == k then some (f (m.lookup k)) else m.lookup j := by
  induction m with
  | nil => simp only [update, List.lookup_cons]; split <;> simp_all
  | cons e m ih =>
    obtain ⟨k', v⟩ := e
    simp only [update]
    split
    · next h =>
      rw [beq_iff_eq] at h
      subst h
      simp only [List.lookup_cons, beq_self_eq_true]
      cases j == k <;> rfl
    · next h =>
      simp only [List.lookup_cons, ih]
      by_cases hj : (j == k') = true
      · have hk : (j == k) = false := by
          rw [beq_iff_eq] at hj
          subst hj
          rw [Bool.eq_false_iff]
          intro hc
          exact h (by rw [beq_iff_eq] at hc ⊢; exact hc.symm)
        simp [hj, hk]
      · simp only [Bool.not_eq_true] at hj h
        simp [hj, h]

/-- After an insertion the key has the new value and every other key the value
    it had. -/
theorem lookup_insert (k j : α) (v : β) (m : List (α × β)) :
    (insert k v m).lookup j = if j == k then some v else m.lookup j :=
  lookup_update k j _ m

/-- An update adds the key at the end, if it is not there yet. -/
theorem keys_update (k : α) (f : Option β → β) (m : List (α × β)) :
    keys (update k f m) = if (keys m).contains k then keys m else keys m ++ [k] := by
  induction m with
  | nil => rfl
  | cons e m ih =>
    obtain ⟨k', v⟩ := e
    by_cases h : (k == k') = true
    · simp [update, h]
    · by_cases hc : (keys m).contains k = true <;>
        simp_all [update]

/-- An insertion adds the key at the end, if it is not there yet. -/
theorem keys_insert (k : α) (v : β) (m : List (α × β)) :
    keys (insert k v m) = if (keys m).contains k then keys m else keys m ++ [k] :=
  keys_update k _ m

end Lawful

end EntityFetch.Assoc
