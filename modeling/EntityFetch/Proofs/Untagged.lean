import EntityFetch.Value
import Mathlib.Data.List.Basic

/-!
# Values read without tags

The JSON of a value does not say of which variant the value was. It is read by an order of the
variants: the first that accepts it is taken (`Value.untagged`), for the items of an array as for
the whole. Some JSON is accepted by several variants, and all of it as mere JSON, so that it is a
matter of the order whether a value is read back.

* `Value.untagged_declared`: reading goes by the order in which the variants are declared.
* `Value.untagged_toJson_iff`: the values that are basic, without floats and JSON, are read back in
  just the orders that have integers before floats and the variants of basic values before JSON.
* `Value.ofJson_toJson_iff`: as declared, JSON comes before lists, so that all basic values are
  read back but lists.
-/

namespace EntityFetch

namespace Value

/-! ### Reading by an order of variants -/

/-- The variants of values. -/
inductive Variant where
  | null
  | bool
  | int
  | float
  | str
  | json
  | list
deriving DecidableEq, Repr

/-- The value that a variant accepts JSON as, given what the items of an array are read as. -/
def Variant.accept? (items : Option (List Value)) : Variant → Json → Option Value
  | null, .null => some .null
  | bool, .bool b => some (.bool b)
  | int, .int n => if minInt ≤ n ∧ n ≤ maxInt then some (.int n) else none
  | float, .int n => some (.float (Float.ofInt n))
  | float, .float x => some (.float x)
  | str, .str s => some (.str s)
  | json, j => some (.json j)
  | list, .arr _ => items.map .list
  | _, _ => none

/-- The value of the first variant that accepts JSON. -/
def firstAccepted (order : List Variant) (j : Json) (items : Option (List Value)) : Option Value :=
  order.findSome? fun k => k.accept? items j

mutual

/-- What JSON is read as by an order of variants. -/
def untagged (order : List Variant) : Json → Option Value
  | .arr items => firstAccepted order (.arr items) (untaggedItems order items)
  | j => firstAccepted order j none

/-- What the items of an array are read as. -/
def untaggedItems (order : List Variant) : List Json → Option (List Value)
  | [] => some []
  | j :: js =>
    match untagged order j, untaggedItems order js with
    | some v, some vs => some (v :: vs)
    | _, _ => none

end

/-- The order in which the variants are declared. -/
def declared : List Variant :=
  [.null, .bool, .int, .float, .str, .json, .list]

/-- What is read in the order of declaration. -/
theorem untagged_declared (j : Json) : untagged declared j = some (ofJson j) := by
  cases j with
  | int n =>
    by_cases h : minInt ≤ n ∧ n ≤ maxInt
    · simp [untagged, firstAccepted, declared, Variant.accept?, ofJson, h]
    · simp [untagged, firstAccepted, declared, Variant.accept?, ofJson, h]
  | _ => rfl

/-! ### Orders -/

/-- Whether one variant comes before another in an order. -/
def Variant.Before (k : Variant) (order : List Variant) (k' : Variant) : Prop :=
  order.idxOf k < order.idxOf k'

instance (k : Variant) (order : List Variant) (k' : Variant) : Decidable (k.Before order k') :=
  inferInstanceAs (Decidable (_ < _))

variable {order : List Variant} {j : Json} {items : Option (List Value)} {k k' : Variant}
variable {v : Value}

/-- The variant that is taken is in the order, and none that would do comes before it. -/
theorem firstAccepted_eq_some_iff : firstAccepted order j items = some v ↔
    ∃ k ∈ order, k.accept? items j = some v ∧
      ∀ k', k'.accept? items j ≠ none → order.idxOf k ≤ order.idxOf k' := by
  induction order with
  | nil => simp [firstAccepted]
  | cons k₀ order ih =>
    have hnext (k : Variant) (hne : k₀ ≠ k) : (k₀ :: order).idxOf k = order.idxOf k + 1 :=
      List.idxOf_cons_ne order hne
    rw [firstAccepted, List.findSome?_cons]
    cases hk₀ : k₀.accept? items j with
    | some w =>
      constructor
      · intro h
        refine ⟨k₀, List.mem_cons_self, hk₀.trans h, fun k' _ => ?_⟩
        rw [List.idxOf_cons_self]
        exact Nat.zero_le _
      · -- None comes before the first one, which does, so that it is that one.
        rintro ⟨k, -, hk, hfirst⟩
        have hle := hfirst k₀ (hk₀ ▸ Option.some_ne_none w)
        rw [List.idxOf_cons_self] at hle
        obtain rfl : k₀ = k := by
          by_contra hne
          rw [hnext k hne] at hle
          exact Nat.not_succ_le_zero _ hle
        exact hk₀.symm.trans hk
    | none =>
      -- The first one does not do, so that all that do are one place further on.
      have hne (k : Variant) (hk : k.accept? items j ≠ none) : k₀ ≠ k := fun h => hk (h ▸ hk₀)
      refine ih.trans ⟨?_, ?_⟩
      · rintro ⟨k, hmem, hk, hfirst⟩
        refine ⟨k, List.mem_cons_of_mem k₀ hmem, hk, fun k' hk' => ?_⟩
        rw [hnext k (hne k (hk ▸ Option.some_ne_none v)), hnext k' (hne k' hk')]
        exact Nat.succ_le_succ (hfirst k' hk')
      · rintro ⟨k, hmem, hk, hfirst⟩
        have hne₀ := hne k (hk ▸ Option.some_ne_none v)
        refine ⟨k, (List.mem_cons.1 hmem).resolve_left hne₀.symm, hk, fun k' hk' => ?_⟩
        have hle := hfirst k' hk'
        rw [hnext k hne₀, hnext k' (hne k' hk')] at hle
        exact Nat.le_of_succ_le_succ hle

/-- A variant is taken if it comes before all others that would do. -/
theorem firstAccepted_of_before (hk : k.accept? items j = some v) (hjson : k.Before order .json)
    (hbefore : ∀ k', k'.accept? items j ≠ none → k' ≠ k → k.Before order k') :
    firstAccepted order j items = some v := by
  have hmem : k ∈ order :=
    List.idxOf_lt_length_iff.1 (Nat.lt_of_lt_of_le hjson List.idxOf_le_length)
  refine firstAccepted_eq_some_iff.2 ⟨k, hmem, hk, fun k' hk' => ?_⟩
  by_cases heq : k' = k
  · exact heq ▸ Nat.le_refl _
  · exact Nat.le_of_lt (hbefore k' hk' heq)

/-- If only one variant gives a value, it comes before all others that would do. -/
theorem before_of_firstAccepted (h : firstAccepted order j items = some v)
    (hk : ∀ k', k'.accept? items j = some v → k' = k) (hk' : k'.accept? items j ≠ none)
    (hne : k' ≠ k) : k.Before order k' := by
  obtain ⟨k₀, hmem, hk₀, hfirst⟩ := firstAccepted_eq_some_iff.1 h
  obtain rfl := hk k₀ hk₀
  refine Nat.lt_of_le_of_ne (hfirst k' hk') fun heq => hne ?_
  exact ((List.idxOf_inj hmem).1 heq).symm

/-! ### Basic values -/

mutual

/-- Whether a value has only null, truth values, integers of 64 bits, texts and lists in it. -/
def isBasic : Value → Bool
  | null => true
  | bool _ => true
  | int n => minInt ≤ n ∧ n ≤ maxInt
  | float _ => false
  | str _ => true
  | json _ => false
  | list items => areBasic items

/-- Whether all items are basic. -/
def areBasic : List Value → Bool
  | [] => true
  | v :: vs => isBasic v && areBasic vs

end

/-- The variant of a value. -/
def variant : Value → Variant
  | null => .null
  | bool _ => .bool
  | int _ => .int
  | float _ => .float
  | str _ => .str
  | json _ => .json
  | list _ => .list

/-- The variants of basic values. -/
def basicVariants : List Variant :=
  [.null, .bool, .int, .str, .list]

theorem variant_mem_basicVariants (hv : v.isBasic) : v.variant ∈ basicVariants := by
  cases v with
  | float => cases hv
  | json => cases hv
  | _ => simp [variant, basicVariants]

/-- What is accepted as of a variant is of that variant. -/
theorem variant_eq_of_accept? (h : k.accept? items j = some v) : k = v.variant := by
  cases k with
  | json =>
    obtain rfl := Option.some.inj h
    rfl
  | int =>
    cases j with
    | int n =>
      obtain ⟨-, heq⟩ := Option.ite_none_right_eq_some.1 h
      obtain rfl := Option.some.inj heq
      rfl
    | _ => cases h
  | list =>
    cases j with
    | arr =>
      obtain ⟨vs, -, rfl⟩ := Option.map_eq_some_iff.1 h
      rfl
    | _ => cases h
  | _ =>
    cases j with
    | _ => cases h <;> rfl

/-- The items of a list. -/
def items? : Value → Option (List Value)
  | list vs => some vs
  | _ => none

theorem accept?_toJson (hv : v.isBasic) : v.variant.accept? v.items? v.toJson = some v := by
  cases v with
  | int n => exact if_pos (of_decide_eq_true hv)
  | float => cases hv
  | json => cases hv
  | _ => rfl

/-- The JSON of an integer is accepted as a float too, and all JSON as mere JSON. -/
theorem eq_variant_or_of_accept? (hv : v.isBasic) (h : k.accept? items v.toJson ≠ none) :
    k = v.variant ∨ k = .json ∨ v.variant = .int ∧ k = .float := by
  cases v with
  | float => cases hv
  | json => cases hv
  | _ =>
    cases k with
    | json => exact .inr (.inl rfl)
    | _ => first | exact .inl rfl | exact .inr (.inr ⟨rfl, rfl⟩) | exact absurd rfl h

/-! ### Orders that read back -/

/-- What an order needs in order that basic values are read back. -/
structure Variant.KeepsBasic (order : List Variant) : Prop where
  float : Variant.int.Before order .float
  json : ∀ k ∈ basicVariants, k.Before order .json

theorem firstAccepted_toJson (h : Variant.KeepsBasic order) (hv : v.isBasic) :
    firstAccepted order v.toJson v.items? = some v := by
  have hjson := h.json v.variant (variant_mem_basicVariants hv)
  refine firstAccepted_of_before (accept?_toJson hv) hjson fun k hk hne => ?_
  rcases eq_variant_or_of_accept? hv hk with heq | rfl | ⟨hint, rfl⟩
  · exact absurd heq hne
  · exact hjson
  · exact hint ▸ h.float

mutual

/-- In such an order every basic value is read back, since its items are. -/
theorem untagged_toJson (h : Variant.KeepsBasic order) :
    ∀ {v : Value}, v.isBasic → untagged order v.toJson = some v
  | null, hv => firstAccepted_toJson h hv
  | bool _, hv => firstAccepted_toJson h hv
  | int _, hv => firstAccepted_toJson h hv
  | str _, hv => firstAccepted_toJson h hv
  | list vs, hv => by
    rw [toJson, untagged, untaggedItems_toJson h hv]
    exact firstAccepted_toJson (v := list vs) h hv

theorem untaggedItems_toJson (h : Variant.KeepsBasic order) :
    ∀ {vs : List Value}, areBasic vs → untaggedItems order (itemsToJson vs) = some vs
  | [], _ => rfl
  | v :: vs, hvs => by
    rw [areBasic, Bool.and_eq_true] at hvs
    rw [itemsToJson, untaggedItems, untagged_toJson h hvs.1, untaggedItems_toJson h hvs.2]

end

/-- Whatever the items of an array are read as, the first variant that accepts it is taken. -/
theorem exists_untagged_eq (order : List Variant) (j : Json) :
    ∃ items, untagged order j = firstAccepted order j items := by
  cases j with
  | arr items => exact ⟨untaggedItems order items, rfl⟩
  | _ => exact ⟨none, rfl⟩

/-- A value that is read back is of a variant that comes before all others that would do. -/
theorem before_of_untagged (h : untagged order v.toJson = some v)
    (hk : ∀ items, k.accept? items v.toJson ≠ none) (hne : k ≠ v.variant) :
    v.variant.Before order k := by
  obtain ⟨items, hfirst⟩ := exists_untagged_eq order v.toJson
  exact before_of_firstAccepted (hfirst.symm.trans h) (fun _ => variant_eq_of_accept?) (hk items)
    hne

theorem keepsBasic_of_forall (h : ∀ v : Value, v.isBasic → untagged order v.toJson = some v) :
    Variant.KeepsBasic order where
  float := before_of_untagged (h (.int 0) (by decide)) (fun _ => Option.some_ne_none _) nofun
  json := by
    have hjson (v : Value) (hv : v.isBasic) (hne : Variant.json ≠ v.variant) :
        v.variant.Before order .json :=
      before_of_untagged (h v hv) (fun _ => Option.some_ne_none _) hne
    intro k hk
    cases k with
    | null => exact hjson .null rfl nofun
    | bool => exact hjson (.bool true) rfl nofun
    | int => exact hjson (.int 0) (by decide) nofun
    | str => exact hjson (.str "") rfl nofun
    | list => exact hjson (.list []) rfl nofun
    | float => exact absurd hk (by decide)
    | json => exact absurd hk (by decide)

/-! ### The order of declaration -/

/-- As declared, basic values are read back unless they are lists. -/
theorem ofJson_toJson_iff (hv : v.isBasic) : ofJson v.toJson = v ↔ v.variant ≠ .list := by
  cases v with
  | int n => exact iff_of_true (if_pos (of_decide_eq_true hv)) nofun
  | list => exact iff_of_false nofun fun h => h rfl
  | float => cases hv
  | json => cases hv
  | _ => exact iff_of_true rfl nofun

/-- JSON is read in the order in which the variants are declared. In it lists come after JSON, so
    that a basic value is read back just if it is no list. All basic values would be in the orders
    that have integers before floats and the variants of basic values before JSON, and in no
    other. -/
theorem untagged_toJson_iff (hv : v.isBasic) :
    (∀ j, untagged declared j = some (ofJson j)) ∧
    (ofJson v.toJson = v ↔ v.variant ≠ .list) ∧
    ∀ order, (∀ v : Value, v.isBasic → untagged order v.toJson = some v) ↔
      Variant.KeepsBasic order :=
  ⟨untagged_declared, ofJson_toJson_iff hv,
    fun _ => ⟨keepsBasic_of_forall, fun h _ => untagged_toJson h⟩⟩

/-- A text is read back, and with lists before JSON all basic values would be. -/
theorem untagged_toJson_iff_text : (Value.str "a").isBasic ∧
    ofJson (Value.str "a").toJson = .str "a" ∧
    ∀ v : Value, v.isBasic →
      untagged [.null, .bool, .int, .float, .str, .list, .json] v.toJson = some v := by
  obtain ⟨-, hread, horder⟩ := untagged_toJson_iff (v := .str "a") rfl
  exact ⟨rfl, hread.2 (by decide), (horder _).2 ⟨by decide, by decide⟩⟩

/-- A list of one integer is read as JSON, and no longer as a list. -/
theorem unread_list : ∃ v : Value, v = .list [.int 1] ∧ v.isBasic ∧
    untagged declared v.toJson = some (.json (.arr [.int 1])) ∧
    untagged declared v.toJson ≠ some v :=
  ⟨_, rfl, by decide, rfl, fun h => nomatch Option.some.inj h⟩

end Value

end EntityFetch
