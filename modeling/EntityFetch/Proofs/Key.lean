import EntityFetch.Proofs.Batch
import EntityFetch.Proofs.JsonText
import EntityFetch.Proofs.Nested

/-!
# Keys and equality

Rows find their owners by keys, and statements compare the same columns as values. Of values
without floats the two say the same, but for lists: a list equals nothing, not even itself,
while its key is that of every value with the same JSON (`Value.key?_eq_iff`).
-/

namespace EntityFetch

namespace Json

mutual

/-- Values without floats are equal as data if they are the same. -/
theorem beq_iff : ∀ {a b : Json}, a.isFloatFree → (a.beq b ↔ a = b)
  | null, b, _ => by cases b <;> simp [beq]
  | bool _, b, _ => by cases b <;> simp [beq]
  | int _, b, _ => by cases b <;> simp [beq]
  | float _, _, h => absurd h Bool.false_ne_true
  | str _, b, _ => by cases b <;> simp [beq]
  | arr items, b, h => by
    cases b with
    | arr items' => rw [beq, beqItems_iff h, arr.injEq]
    | _ => simp [beq]
  | obj entries, b, h => by
    cases b with
    | obj entries' => rw [beq, beqEntries_iff h, obj.injEq]
    | _ => simp [beq]

theorem beqItems_iff : ∀ {as bs : List Json}, areFloatFree as → (beqItems as bs ↔ as = bs)
  | [], [], _ => by simp [beqItems]
  | [], _ :: _, _ => by simp [beqItems]
  | _ :: _, [], _ => by simp [beqItems]
  | a :: as, b :: bs, h => by
    obtain ⟨ha, has⟩ := areFloatFree_cons h
    rw [beqItems, Bool.and_eq_true, beq_iff ha, beqItems_iff has, List.cons.injEq]

theorem beqEntries_iff : ∀ {as bs : List (String × Json)}, entriesFloatFree as →
    (beqEntries as bs ↔ as = bs)
  | [], [], _ => by simp [beqEntries]
  | [], _ :: _, _ => by simp [beqEntries]
  | _ :: _, [], _ => by simp [beqEntries]
  | (k, a) :: as, (l, b) :: bs, h => by
    obtain ⟨ha, has⟩ := entriesFloatFree_cons h
    rw [beqEntries, Bool.and_eq_true, Bool.and_eq_true, beq_iff ha, beqEntries_iff has,
      List.cons.injEq, Prod.mk.injEq, beq_iff_eq]

end

end Json

namespace Value

mutual

/-- Whether a value has no floats in it. -/
def isFloatFree : Value → Bool
  | float _ => false
  | json j => j.isFloatFree
  | list items => areFloatFree items
  | _ => true

/-- Whether no item has floats in it. -/
def areFloatFree : List Value → Bool
  | [] => true
  | v :: vs => isFloatFree v && areFloatFree vs

end

/-- Whether a value is a list. -/
def isList : Value → Bool
  | list _ => true
  | _ => false

mutual

theorem isFloatFree_toJson : ∀ {v : Value}, v.isFloatFree → v.toJson.isFloatFree
  | null, _ => rfl
  | bool _, _ => rfl
  | int _, _ => rfl
  | float _, h => absurd h Bool.false_ne_true
  | str _, _ => rfl
  | json _, h => h
  | list items, h => @areFloatFree_itemsToJson items h

theorem areFloatFree_itemsToJson : ∀ {vs : List Value}, areFloatFree vs →
    Json.areFloatFree (itemsToJson vs)
  | [], _ => rfl
  | v :: vs, h => by
    rw [areFloatFree, Bool.and_eq_true] at h
    rw [itemsToJson, Json.areFloatFree, isFloatFree_toJson h.1, areFloatFree_itemsToJson h.2]
    rfl

end

variable {v w : Value}

/-- The keys of values that are known by their text are the same if these are. -/
theorem other_text_eq_iff (hv : v.isFloatFree) (hw : w.isFloatFree) :
    some (Key.other v.toJson.text) = some (Key.other w.toJson.text) ↔ v.toJson = w.toJson := by
  rw [Option.some_inj, Key.other.injEq,
    Json.text_inj (isFloatFree_toJson hv) (isFloatFree_toJson hw)]

theorem equal?_json {a b : Json} (ha : a.isFloatFree) :
    (json a).equal? (json b) = some true ↔ a = b := by
  rw [← Json.beq_iff ha]
  show some ((if a == b then some Ordering.eq else none) == some .eq) = some true ↔ (a == b) = true
  cases a == b <;> simp

/-- Nothing equals a list. -/
theorem equal?_list (hv : v ≠ .null) (hw : w ≠ .null) (h : v.isList || w.isList) :
    v.equal? w = some false := by
  cases v <;> cases w <;> first
    | rfl
    | exact absurd rfl hv
    | exact absurd rfl hw
    | cases h

/-- The key of a list is that of its JSON, which no other value has but JSON. -/
theorem key?_list_iff {vs : List Value} (hvs : (list vs).isFloatFree) (hw : w ≠ .null)
    (hw' : w.isFloatFree) : (list vs).key? = w.key? ↔ (list vs).toJson = w.toJson := by
  cases w with
  | null => exact absurd rfl hw
  | float x => exact absurd hw' Bool.false_ne_true
  | json j => exact other_text_eq_iff hvs hw'
  | list ws => exact other_text_eq_iff hvs hw'
  | _ => exact iff_of_false nofun nofun

/-- Without lists, keys are the same just if the values are equal. -/
theorem key?_eq_iff_equal? (hv : v ≠ .null) (hw : w ≠ .null) (hv' : v.isFloatFree)
    (hw' : w.isFloatFree) (hvlist : v.isList = false) (hwlist : w.isList = false) :
    v.key? = w.key? ↔ v.equal? w = some true := by
  have hplain : ∀ {u : Value}, u ≠ .null → u.isFloatFree → u.isList = false →
      u.IsPlain ∨ ∃ j, u = json j := by
    intro u hu hu' hulist
    cases u with
    | float x => exact absurd hu' Bool.false_ne_true
    | list us => cases hulist
    | json j => exact .inr ⟨j, rfl⟩
    | _ => exact .inl (isPlain_iff.2 (by simp))
  -- A plain value and a JSON value have keys of different kinds and are never equal.
  obtain hvp | ⟨j, rfl⟩ := hplain hv hv' hvlist <;> obtain hwp | ⟨k, rfl⟩ := hplain hw hw' hwlist
  · have hsome : v.key?.isSome := by
      rw [Option.isSome_iff_ne_none, ne_eq, key?_eq_none_iff]
      exact hv
    rw [equal?_iff hvp hwp, and_iff_right hsome]
  · obtain rfl | ⟨b, rfl⟩ | ⟨n, rfl⟩ | ⟨s, rfl⟩ := isPlain_iff.1 hvp
    · exact absurd rfl hv
    all_goals exact iff_of_false nofun nofun
  · obtain rfl | ⟨b, rfl⟩ | ⟨n, rfl⟩ | ⟨s, rfl⟩ := isPlain_iff.1 hwp
    · exact absurd rfl hw
    all_goals exact iff_of_false nofun nofun
  · exact (other_text_eq_iff hv' hw').trans (equal?_json hv').symm

/-- Values that are not null and have no floats have the same key just if they are equal, or if
    one of them is a list and they have the same JSON. -/
theorem key?_eq_iff (hv : v ≠ .null) (hw : w ≠ .null) (hv' : v.isFloatFree)
    (hw' : w.isFloatFree) :
    (v.key? = w.key? ↔
        v.equal? w = some true ∨ ((v.isList || w.isList) = true ∧ v.toJson = w.toJson)) ∧
      ((v.isList || w.isList) = true → v.equal? w = some false) := by
  refine ⟨?_, equal?_list hv hw⟩
  cases hlist : v.isList || w.isList with
  | false =>
    obtain ⟨hvlist, hwlist⟩ := Bool.or_eq_false_iff.1 hlist
    rw [key?_eq_iff_equal? hv hw hv' hw' hvlist hwlist]
    exact (or_iff_left fun h => Bool.false_ne_true h.1).symm
  | true =>
    -- A list equals nothing, so that only the text of its key is left.
    have hunequal : v.equal? w ≠ some true := by
      rw [equal?_list hv hw hlist]
      nofun
    have hkey : v.key? = w.key? ↔ v.toJson = w.toJson := by
      rw [Bool.or_eq_true] at hlist
      rcases hlist with h | h
      · cases v with
        | list vs => exact key?_list_iff hv' hw hw'
        | _ => cases h
      · cases w with
        | list ws => rw [eq_comm, key?_list_iff hw' hv hv', eq_comm]
        | _ => cases h
    rw [hkey, or_iff_right hunequal, and_iff_right rfl]

/-- A list with a number in it. -/
def numberList : Value :=
  .list [.int 1]

/-- The same as JSON. -/
def numberArray : Value :=
  .json (.arr [.int 1])

/-- A list and an array in JSON have one key without being equal. -/
theorem key?_eq_iff_numbers :
    (numberList.key? = numberArray.key? ↔
        numberList.equal? numberArray = some true ∨
          ((numberList.isList || numberArray.isList) = true ∧
            numberList.toJson = numberArray.toJson)) ∧
      ((numberList.isList || numberArray.isList) = true →
        numberList.equal? numberArray = some false) :=
  key?_eq_iff nofun nofun rfl rfl

/-- A list has the key of an array in JSON and that of itself, but equals neither. -/
theorem shared_key?_numbers :
    numberList.key? = numberArray.key? ∧ numberList.equal? numberArray = some false ∧
      numberList.equal? numberList = some false := by
  decide

end Value

end EntityFetch
