import EntityFetch.Row
import EntityFetch.Statement
import Mathlib.Tactic.Common

/-!
# Reading rows

A row is read by alias and column. What was put at one place is found there and
nowhere else, so that the columns of different aliases do not disturb each other
(`Row.get?_insertAll`, `Row.get?_ofColumns`).
-/

namespace EntityFetch.Row

/-- After an insertion its place has the new value, and every other place the
    value it had. -/
theorem get?_insert (r : Row) (a c : String) (v : Value) (b d : String) :
    (r.insert a c v).get? b d = if b = a ∧ d = c then some v else r.get? b d := by
  simp only [get?, alias?, insert, Assoc.lookup_update, beq_iff_eq]
  by_cases hb : b = a
  · subst hb
    simp only [if_true, true_and, Option.bind_some, Assoc.lookup_insert, beq_iff_eq]
    split
    · rfl
    · cases r.values.lookup b <;> rfl
  · rw [if_neg hb, if_neg fun h => hb h.1]

/-- After columns of an alias are inserted they have the new values, and every
    other place the value it had. -/
theorem get?_insertAll (r : Row) (a : String) (cs : List String) (value : String → Value)
    (b d : String) :
    (r.insertAll a cs value).get? b d = if b = a ∧ d ∈ cs then some (value d) else r.get? b d := by
  induction cs generalizing r with
  | nil => simp [insertAll]
  | cons c cs ih =>
    rw [show r.insertAll a (c :: cs) value = (r.insert a c (value c)).insertAll a cs value from rfl,
      ih, get?_insert]
    by_cases hb : b = a
    · by_cases hd : d ∈ cs
      · rw [if_pos ⟨hb, hd⟩, if_pos ⟨hb, List.mem_cons_of_mem c hd⟩]
      · by_cases hc : d = c
        · rw [if_neg fun h => hd h.2, if_pos ⟨hb, hc⟩, if_pos ⟨hb, hc ▸ List.mem_cons_self⟩, hc]
        · rw [if_neg fun h => hd h.2, if_neg fun h => hc h.2,
            if_neg fun h => (List.mem_cons.1 h.2).elim hc hd]
    · rw [if_neg fun h => hb h.1, if_neg fun h => hb h.1, if_neg fun h => hb h.1]

/-- The row with a value at each of some columns. -/
def ofColumns (cs : List ColumnRef) (value : ColumnRef → Value) : Row :=
  cs.foldl (fun r c => r.insert c.aliasName c.column (value c)) {}

/-- A row has a value at just the columns it was made of. -/
theorem get?_ofColumns (cs : List ColumnRef) (value : ColumnRef → Value) (c : ColumnRef) :
    (ofColumns cs value).get? c.aliasName c.column = if c ∈ cs then some (value c) else none := by
  suffices hfoldl : ∀ r : Row,
      (cs.foldl (fun r c => r.insert c.aliasName c.column (value c)) r).get? c.aliasName c.column =
        if c ∈ cs then some (value c) else r.get? c.aliasName c.column from
    hfoldl {}
  induction cs with
  | nil => exact fun r => rfl
  | cons c' cs ih =>
    intro r
    have heq : c.aliasName = c'.aliasName ∧ c.column = c'.column ↔ c = c' :=
      Iff.of_eq (ColumnRef.mk.injEq ..).symm
    rw [List.foldl_cons, ih, get?_insert, if_congr heq rfl rfl]
    by_cases hmem : c ∈ cs
    · rw [if_pos hmem, if_pos (List.mem_cons_of_mem c' hmem)]
    · rw [if_neg hmem]
      by_cases hhead : c = c'
      · rw [if_pos hhead, if_pos (List.mem_cons.2 (.inl hhead)), hhead]
      · rw [if_neg hhead, if_neg fun h => (List.mem_cons.1 h).elim hhead hmem]

end EntityFetch.Row
