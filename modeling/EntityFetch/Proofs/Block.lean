import EntityFetch.Proofs.Ordered
import EntityFetch.Proofs.Repeat

/-!
# Blocks

A statement reads a block of rows for every row of its root, one for each way of joining
others to it. Rows are compared by what is at their root, so that sorting moves whole
blocks, if the comparison is a total preorder (`Store.IsPreorderOn.sortBy_flatMap`); and
since the rows of a block have the primary key of their root, only the first row of every
block is left when repetitions are (`firstBy_flatMap`).
-/

namespace EntityFetch

open Std

variable {α β : Type}

/-! ### Sorting blocks -/

section Sorting

open Sorting

variable {cmp : α → α → Ordering} {as ws : List α} {f : α → List β}

/-- The elements of a block, each with what it belongs to. -/
def block (f : α → List β) (a : α) : List (α × β) :=
  (f a).map (Prod.mk a)

/-- Of blocks those are picked that belong to what is picked. -/
theorem filter_flatMap_block (p : α → Bool) (as : List α) :
    (as.flatMap (block f)).filter (fun x => p x.1) = (as.filter p).flatMap (block f) := by
  induction as with
  | nil => rfl
  | cons a as ih =>
    have hblock : (block f a).filter (fun x => p x.1) = if p a then block f a else [] := by
      rw [block, List.filter_map]
      cases hp : p a <;> simp [Function.comp_def, hp]
    rw [List.flatMap_cons, List.filter_append, ih, hblock, List.filter_cons]
    split <;> rfl

/-- Blocks of what is sorted are sorted, each as it was. -/
theorem Sorting.IsStableSort.flatMap [TransCmp cmp] (h : IsStableSort cmp ws as)
    (f : α → List β) :
    IsStableSort (fun x y : α × β => cmp x.1 y.1) (ws.flatMap (block f)) (as.flatMap (block f)) := by
  refine ⟨List.pairwise_flatMap.2 ⟨fun a _ => ?_, h.sorted.imp fun hle x hx y hy => ?_⟩,
    fun c => ?_⟩
  · refine List.pairwise_map.2 (List.pairwise_of_forall fun x y => ?_)
    have hself : cmp a a = .eq := ReflCmp.compare_self
    rw [hself]
    rfl
  · obtain ⟨_, -, rfl⟩ := List.mem_map.1 hx
    obtain ⟨_, -, rfl⟩ := List.mem_map.1 hy
    exact hle
  · rw [filter_flatMap_block (cmp c.1 · == .eq), filter_flatMap_block (cmp c.1 · == .eq),
      h.alike c.1]

end Sorting

namespace Store

variable {cmp : α → α → Ordering} {as : List α}

/-- Elements that are compared by what they belong to are sorted block by block. -/
theorem IsPreorderOn.sortBy_flatMap (h : IsPreorderOn cmp as) {f : α → List β} {key : β → α}
    (hblock : ∀ a ∈ as, ∀ x ∈ f a, key x = a) :
    sortBy (fun x y => cmp (key x) (key y) == .lt) (as.flatMap f) =
      (sortBy (fun a b => cmp a b == .lt) as).flatMap f := by
  -- The elements are sorted together with what they belong to, which is a member of the list.
  have hcmp : TransCmp fun a b : { a // a ∈ as } => cmp a b := h
  have hpairs : TransCmp fun x y : { a // a ∈ as } × β => cmp x.1 y.1 :=
    { eq_swap := hcmp.eq_swap, isLE_trans := hcmp.isLE_trans }
  have hsnd : ∀ l : List { a // a ∈ as },
      (l.flatMap (block fun a => f a.1)).map Prod.snd = (l.map Subtype.val).flatMap f := by
    intro l
    rw [List.map_flatMap, List.flatMap_map]
    refine List.flatMap_congr fun a _ => ?_
    rw [block, List.map_map]
    exact List.map_id _
  have hkey : ∀ x ∈ as.attach.flatMap (block fun a => f a.1), key x.2 = x.1 := by
    intro x hx
    obtain ⟨a, -, hx⟩ := List.mem_flatMap.1 hx
    obtain ⟨y, hy, rfl⟩ := List.mem_map.1 hx
    exact hblock a.1 a.2 y hy
  have hmerge : Sorting.IsStableSort (fun a b : { a // a ∈ as } => cmp a b) _ as.attach :=
    .mergeSort as.attach
  have hstable := hmerge.flatMap fun a => f a.1
  have hall := hsnd as.attach
  rw [List.attach_map_subtype_val] at hall
  rw [← hall, sortBy_map, sortBy_congr fun x hx y hy => by rw [hkey x hx, hkey y hy]]
  have hsort : sortBy (fun x y : { a // a ∈ as } × β => cmp x.1 y.1 == .lt)
      (as.attach.flatMap (block fun a => f a.1)) = _ :=
    (congrArg (Option.getD · _) (Sorting.sort?_eq _)).trans hstable.eq_mergeSort.symm
  rw [hsort, hsnd, mergeSort_attach, h.sortBy_eq]

/-- What is left out of sorted elements can be left out before. -/
theorem IsPreorderOn.sortBy_filter (h : IsPreorderOn cmp as) (p : α → Bool) :
    sortBy (fun a b => cmp a b == .lt) (as.filter p) =
      (sortBy (fun a b => cmp a b == .lt) as).filter p := by
  have hblock : ∀ a ∈ as, ∀ x ∈ [a].filter p, id x = a := fun a _ x hx =>
    List.mem_singleton.1 (List.mem_filter.1 hx).1
  have hfilter : ∀ l : List α, (l.flatMap fun a => [a].filter p) = l.filter p := fun l => by
    rw [← List.filter_flatMap, List.flatMap_singleton']
  have hsort := h.sortBy_flatMap hblock
  rw [hfilter, hfilter] at hsort
  exact hsort

/-- Repetitions stay together when the list is sorted, and elements that are repeated no times
    do not matter. -/
theorem IsPreorderOn.repeats_sortBy (h : IsPreorderOn cmp as) (times : α → Nat) :
    Repeats (sortBy (fun a b => cmp a b == .lt) (as.filter fun a => 0 < times a))
      (sortBy (fun a b => cmp a b == .lt) (as.flatMap fun a => List.replicate (times a) a)) := by
  have hblock : ∀ a ∈ as, ∀ x ∈ List.replicate (times a) a, id x = a :=
    fun a _ x hx => List.eq_of_mem_replicate hx
  have hflat := h.sortBy_flatMap hblock
  rw [h.sortBy_filter]
  exact hflat ▸ Repeats.of_replicate times _

end Store

/-- Of blocks with one key each, all different, the first elements are left. -/
theorem firstBy_flatMap {key : β → Option Key} {keyOf : α → Option Key} {f : α → List β}
    {as : List α} (hkey : ∀ a ∈ as, ∀ x ∈ f a, key x = keyOf a)
    (hsome : ∀ a ∈ as, (keyOf a).isSome) (hnodup : (as.map keyOf).Nodup) :
    firstBy key [] (as.flatMap f) = as.filterMap fun a => (f a).head? := by
  suffices hall : ∀ seen : List Key, (∀ k ∈ seen, some k ∉ as.map keyOf) →
      firstBy key seen (as.flatMap f) = as.filterMap fun a => (f a).head? from
    hall [] fun _ hk => absurd hk List.not_mem_nil
  induction as with
  | nil => exact fun _ _ => rfl
  | cons a as ih =>
    intro seen hseen
    rw [List.forall_mem_cons] at hkey hsome
    rw [List.map_cons, List.nodup_cons] at hnodup
    have hrest : ∀ k ∈ seen, some k ∉ as.map keyOf :=
      fun k hk hmem => hseen k hk (List.mem_cons_of_mem _ hmem)
    obtain ⟨k, hk⟩ := Option.isSome_iff_exists.1 hsome.1
    have hnew : seen.contains k = false := by
      rw [Bool.eq_false_iff, ne_eq, List.contains_iff_mem]
      exact fun hmem => hseen k hmem (by rw [List.map_cons, hk]; exact List.mem_cons_self)
    rw [List.flatMap_cons]
    rcases hblock : f a with _ | ⟨x, block⟩
    · rw [List.filterMap_cons_none (by rw [hblock]; rfl)]
      exact ih hkey.2 hsome.2 hnodup.2 seen hrest
    · rw [hblock, List.forall_mem_cons, hk] at hkey
      -- Once the first element is there, the rest of the block is left out.
      have hskip : ∀ block : List β, (∀ y ∈ block, key y = some k) → ∀ ys,
          firstBy key (k :: seen) (block ++ ys) = firstBy key (k :: seen) ys := by
        intro block
        induction block with
        | nil => exact fun _ _ => rfl
        | cons y block ihb =>
          intro hall ys
          rw [List.cons_append, firstBy, hall y List.mem_cons_self]
          simp only [List.contains_cons, BEq.rfl, Bool.true_or, if_true]
          exact ihb (fun z hz => hall z (List.mem_cons_of_mem y hz)) ys
      rw [List.filterMap_cons_some (by rw [hblock]; rfl), List.cons_append, firstBy, hkey.1.1]
      simp only [hnew, Bool.false_eq_true, if_false]
      rw [hskip block hkey.1.2, ih hkey.2 hsome.2 hnodup.2 (k :: seen)]
      intro k' hk'
      rcases List.mem_cons.1 hk' with rfl | hk'
      · exact hk ▸ hnodup.1
      · exact hrest k' hk'

end EntityFetch
