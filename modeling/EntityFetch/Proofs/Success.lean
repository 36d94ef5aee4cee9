import Mathlib.Data.List.Forall2

/-!
# Computations that succeed

A computation with errors succeeds if all its steps do. What it gives is read off
its steps: of a sequence (`bind_eq_ok`), of one computation for every element of a
list (`mapM_eq_ok`, `forM_eq_ok`) and of one that goes through a list with a state
(`foldlM_induct`).
-/

namespace EntityFetch

universe u v w

variable {ε : Type u} {α β γ : Type v}

/-- A sequence succeeds if both steps do. -/
theorem bind_eq_ok {x : Except ε α} {f : α → Except ε β} {b : β} :
    x >>= f = .ok b ↔ ∃ a, x = .ok a ∧ f a = .ok b := by
  cases x with
  | error e => exact ⟨nofun, fun ⟨_, h, _⟩ => nomatch h⟩
  | ok a =>
    constructor
    · exact fun h => ⟨a, rfl, h⟩
    · rintro ⟨_, ⟨⟩, h⟩
      exact h

/-- What a sequence gives changes with what its second step gives. -/
theorem bind_eq_map {x : Except ε α} {f : α → Except ε β} {g : α → Except ε γ} {change : β → γ}
    (h : ∀ a, x = .ok a → g a = (f a).map change) : x >>= g = (x >>= f).map change := by
  cases x with
  | error e => rfl
  | ok a => exact h a rfl

/-- A sequence depends on its second step only where the first succeeds. -/
theorem bind_congr_ok {x : Except ε α} {f g : α → Except ε β} (h : ∀ a, x = .ok a → f a = g a) :
    x >>= f = x >>= g := by
  cases x with
  | error e => rfl
  | ok a => exact h a rfl

/-- Returning a value is succeeding with it. -/
theorem pure_eq_ok {a b : α} : (pure a : Except ε α) = .ok b ↔ a = b :=
  ⟨fun h => Except.ok.inj h, fun h => congrArg _ h⟩

/-- A computation for every element of a list succeeds with the list of what it
    gives for each. -/
theorem mapM_eq_ok {f : α → Except ε β} {as : List α} {bs : List β} :
    as.mapM f = .ok bs ↔ List.Forall₂ (fun a b => f a = .ok b) as bs := by
  induction as generalizing bs with
  | nil =>
    rw [List.mapM_nil, pure_eq_ok, List.forall₂_nil_left_iff]
    exact eq_comm
  | cons a as ih =>
    simp only [List.mapM_cons, bind_eq_ok, pure_eq_ok, ih, List.forall₂_cons_left_iff]
    constructor
    · rintro ⟨b, hb, bs', hbs, rfl⟩
      exact ⟨b, bs', hb, hbs, rfl⟩
    · rintro ⟨b, bs', hb, hbs, rfl⟩
      exact ⟨b, hb, bs', hbs, rfl⟩

/-- Each value comes from the element at its place. -/
theorem exists_of_mapM_eq_ok {f : α → Except ε β} {as : List α} {bs : List β}
    (h : as.mapM f = .ok bs) {i : ℕ} {b : β} (hb : bs[i]? = some b) :
    ∃ a, as[i]? = some a ∧ f a = .ok b := by
  have hs := mapM_eq_ok.1 h
  obtain ⟨hi, rfl⟩ := List.getElem?_eq_some_iff.1 hb
  have hi' : i < as.length := hs.length_eq ▸ hi
  exact ⟨as[i], List.getElem?_eq_getElem hi', hs.get hi' hi⟩

/-- Each value comes from an element of the list. -/
theorem exists_mem_of_mapM_eq_ok {f : α → Except ε β} {as : List α} {bs : List β}
    (h : as.mapM f = .ok bs) {b : β} (hb : b ∈ bs) : ∃ a ∈ as, f a = .ok b := by
  obtain ⟨i, hi⟩ := List.mem_iff_getElem?.1 hb
  obtain ⟨a, ha, hab⟩ := exists_of_mapM_eq_ok h hi
  exact ⟨a, List.mem_of_getElem? ha, hab⟩

/-- A computation that succeeds for every element of a list, as a function says. -/
theorem mapM_eq_ok_map {f : α → Except ε β} {g : α → β} {as : List α}
    (h : ∀ a ∈ as, f a = .ok (g a)) : as.mapM f = .ok (as.map g) := by
  rw [mapM_eq_ok, List.forall₂_map_right_iff, List.forall₂_same]
  exact h

/-- Computations that agree on the elements of a list. -/
theorem mapM_congr {f g : α → Except ε β} {as : List α} (h : ∀ a ∈ as, f a = g a) :
    as.mapM f = as.mapM g := by
  induction as with
  | nil => rfl
  | cons a as ih =>
    rw [List.mapM_cons, List.mapM_cons, h a List.mem_cons_self,
      ih fun a' ha' => h a' (List.mem_cons_of_mem a ha')]

/-- Steps through a list that agree on its elements. -/
theorem foldlM_congr {f g : β → α → Except ε β} {as : List α}
    (h : ∀ a ∈ as, ∀ b, f b a = g b a) (b : β) : as.foldlM f b = as.foldlM g b := by
  induction as generalizing b with
  | nil => rfl
  | cons a as ih =>
    rw [List.foldlM_cons, List.foldlM_cons, h a List.mem_cons_self]
    exact bind_congr_ok fun b' _ => ih (fun a' ha' => h a' (List.mem_cons_of_mem a ha')) b'

/-- A computation that succeeds for every element of a list. -/
theorem exists_mapM_eq_ok {f : α → Except ε β} {as : List α} (h : ∀ a ∈ as, ∃ b, f a = .ok b) :
    ∃ bs, as.mapM f = .ok bs := by
  induction as with
  | nil => exact ⟨[], rfl⟩
  | cons a as ih =>
    obtain ⟨b, hb⟩ := h a List.mem_cons_self
    obtain ⟨bs, hbs⟩ := ih fun a' ha' => h a' (List.mem_cons_of_mem a ha')
    exact ⟨b :: bs, mapM_eq_ok.2 (.cons hb (mapM_eq_ok.1 hbs))⟩

/-- Each element of the list gives one of the values. -/
theorem exists_of_mem_of_mapM_eq_ok {f : α → Except ε β} {as : List α} {bs : List β}
    (h : as.mapM f = .ok bs) {a : α} (ha : a ∈ as) : ∃ b ∈ bs, f a = .ok b := by
  obtain ⟨i, hi, rfl⟩ := List.mem_iff_getElem.1 ha
  have hs := mapM_eq_ok.1 h
  have hi' : i < bs.length := hs.length_eq ▸ hi
  exact ⟨bs[i], List.getElem_mem hi', hs.get hi hi'⟩

/-- What comes from an element of the list is one of the values. -/
theorem mem_of_mapM_eq_ok {f : α → Except ε β} {as : List α} {bs : List β}
    (h : as.mapM f = .ok bs) {a : α} (ha : a ∈ as) {b : β} (hb : f a = .ok b) : b ∈ bs := by
  obtain ⟨b', hmem, hb'⟩ := exists_of_mem_of_mapM_eq_ok h ha
  exact Except.ok.inj (hb.symm.trans hb') ▸ hmem

/-- Lists that are put together are gone through one after the other. -/
theorem mapM_flatMap_eq_ok {γ : Type w} {f : γ → List α} {g : α → Except ε β} {h : γ → List β}
    {as : List γ} (hall : ∀ a ∈ as, (f a).mapM g = .ok (h a)) :
    (as.flatMap f).mapM g = .ok (as.flatMap h) := by
  induction as with
  | nil => rfl
  | cons a as ih =>
    rw [List.flatMap_cons, List.flatMap_cons, List.mapM_append, hall a List.mem_cons_self,
      ih fun a' ha' => hall a' (List.mem_cons_of_mem a ha')]
    rfl

/-- What results have in common with the elements from which they come. -/
theorem map_eq_map_of_forall₂ {γ : Type w} {R : α → β → Prop} {as : List α} {bs : List β}
    {f : β → γ} {g : α → γ} (h : List.Forall₂ R as bs) (heq : ∀ a ∈ as, ∀ b, R a b → f b = g a) :
    bs.map f = as.map g := by
  induction h with
  | nil => rfl
  | cons hab _ ih =>
    rw [List.map_cons, List.map_cons, heq _ List.mem_cons_self _ hab,
      ih fun a ha => heq a (List.mem_cons_of_mem _ ha)]

/-- A check of every element of a list succeeds if each does. -/
theorem forM_eq_ok {f : α → Except ε PUnit} {as : List α} :
    as.forM f = .ok ⟨⟩ ↔ ∀ a ∈ as, f a = .ok ⟨⟩ := by
  induction as with
  | nil => exact ⟨fun _ _ h => absurd h List.not_mem_nil, fun _ => rfl⟩
  | cons a as ih =>
    rw [show (a :: as).forM f = f a >>= fun _ => as.forM f from rfl, bind_eq_ok,
      List.forall_mem_cons, ih]
    exact ⟨fun ⟨_, h, hs⟩ => ⟨h, hs⟩, fun ⟨h, hs⟩ => ⟨_, h, hs⟩⟩

/-- What every step through a list keeps holds at its end. The steps know which
    elements come before. -/
theorem foldlM_induct {f : β → α → Except ε β} (P : List α → β → Prop) {b c : β}
    {as : List α} (start : P [] b)
    (step : ∀ before a s t, a ∈ as → P before s → f s a = .ok t → P (before ++ [a]) t)
    (h : as.foldlM f b = .ok c) : P as c := by
  suffices H : ∀ rest before s, P before s → (∀ a ∈ rest, a ∈ as) → rest.foldlM f s = .ok c →
      P (before ++ rest) c from H as [] b start (fun _ ha => ha) h
  intro rest
  induction rest with
  | nil =>
    intro before s hs _ h
    rw [List.foldlM_nil, pure_eq_ok] at h
    rwa [List.append_nil, ← h]
  | cons a rest ih =>
    intro before s hs hmem h
    rw [List.foldlM_cons, bind_eq_ok] at h
    obtain ⟨t, ht, h⟩ := h
    rw [← List.singleton_append, ← List.append_assoc]
    exact ih _ t (step before a s t (hmem a List.mem_cons_self) hs ht)
      (fun b hb => hmem b (List.mem_cons_of_mem _ hb)) h

/-- What every step through a list keeps, without errors. -/
theorem foldl_induct {f : β → α → β} (P : List α → β → Prop) {b : β} {as : List α}
    (start : P [] b) (step : ∀ before a s, a ∈ as → P before s → P (before ++ [a]) (f s a)) :
    P as (as.foldl f b) := by
  have run : ∀ (as : List α) (b : β),
      as.foldlM (fun s a => (.ok (f s a) : Except Unit β)) b = .ok (as.foldl f b) := by
    intro as
    induction as with
    | nil => exact fun _ => rfl
    | cons a as ih => exact fun b => ih (f b a)
  exact foldlM_induct P start
    (fun before a s t ha hs h => Except.ok.inj h ▸ step before a s ha hs) (run as b)

/-! ### Places in a list -/

/-- The place of what stands between two parts of a list. -/
theorem getElem?_of_append_cons {as before after : List α} {a : α}
    (h : before ++ a :: after = as) : as[before.length]? = some a := by
  rw [← h, List.getElem?_append_right (Nat.le_refl _), Nat.sub_self]
  rfl

/-- What is in a list to which one element is added is in the list, or the element at the end. -/
theorem getElem?_concat_eq_some {as : List α} {a b : α} {i : Nat} :
    (as ++ [a])[i]? = some b ↔ as[i]? = some b ∨ i = as.length ∧ a = b := by
  constructor
  · intro h
    rcases Nat.lt_or_ge i as.length with hlt | hge
    · exact Or.inl (List.getElem?_append_left hlt ▸ h)
    · have hlt := (List.getElem?_eq_some_iff.1 h).1
      rw [List.length_append, List.length_singleton] at hlt
      obtain rfl : i = as.length := by omega
      exact Or.inr ⟨rfl, Option.some.inj (List.getElem?_concat_length.symm.trans h)⟩
  · rintro (h | ⟨rfl, rfl⟩)
    · rw [List.getElem?_append_left (List.getElem?_eq_some_iff.1 h).1]
      exact h
    · exact List.getElem?_concat_length

/-- What holds of every element at its place, if one more is added. -/
theorem forall_getElem?_concat {as : List α} {a : α} {P : Nat → α → Prop} :
    (∀ (i : Nat) (b : α), (as ++ [a])[i]? = some b → P i b) ↔
      (∀ (i : Nat) (b : α), as[i]? = some b → P i b) ∧ P as.length a := by
  constructor
  · exact fun h => ⟨fun i b hb => h i b (getElem?_concat_eq_some.2 (Or.inl hb)),
      h as.length a (getElem?_concat_eq_some.2 (Or.inr ⟨rfl, rfl⟩))⟩
  · rintro ⟨hall, hlast⟩ i b hb
    rcases getElem?_concat_eq_some.1 hb with hb | ⟨rfl, rfl⟩
    · exact hall i b hb
    · exact hlast

end EntityFetch
