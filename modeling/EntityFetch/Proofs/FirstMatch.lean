import EntityFetch.Proofs.LookUp
import Mathlib.Data.Set.Function

/-!
# The first combination of a row

Of all ways of joining others to a row of its root a statement reads the first one first,
and as a repetition of the root the others are left out. In this first combination a slot
has the first row that its joint finds, in the order of the table, that is not lost below:
from which rows can be picked for the inner joins that start there (`Reading.CompletesAt`).

* `Reading.IsSound.exists_mem_expand_of_completesAt`: where one row goes on to a whole
  combination any other one does that completes below, since rows are picked below a slot
  and elsewhere independently;
* `Reading.IsSound.at?_of_head?`: what the first combination has at a slot;
* `CompiledPlan.completes_iff`: what completes is settled by the plan and the tables.
-/

namespace EntityFetch

variable {store : Store}

theorem expand_append (before js : List Joint) (x : Combination) :
    expand store (before ++ js) x = (expand store before x).flatMap (expand store js) := by
  induction before generalizing x with
  | nil => rw [List.nil_append, expand, List.flatMap_singleton]
  | cons j before ih =>
    rw [List.cons_append, expand, expand, List.flatMap_assoc]
    exact List.flatMap_congr fun z _ => ih z

/-- The first combination is made of one that is made by the joints before. -/
theorem exists_head?_of_append {before js : List Joint} {x y : Combination}
    (h : (expand store (before ++ js) x).head? = some y) :
    ∃ z ∈ expand store before x, (expand store js z).head? = some y := by
  rw [expand_append, List.head?_flatMap, List.findSome?_eq_some_iff] at h
  obtain ⟨zs, z, zs', hsplit, hz, -⟩ := h
  exact ⟨z, hsplit ▸ List.mem_append_right zs List.mem_cons_self, hz⟩

/-- What is found is put behind a combination, one by one. -/
theorem Joint.extend_eq_map {j : Joint} {x : Combination} (h : j.found store x ≠ []) :
    j.extend store x = (j.found store x).map fun r => x ++ [some r] := by
  unfold extend
  split
  · next hnil _ => exact absurd hnil h
  · next hnil _ => exact absurd hnil h
  · rfl

namespace Reading

variable {k : Compiler} {plan : LoadPlan} {scope : QueryScope} {root : Entity} {R : Reading}
  {t u : TableRow} {n : Nat} {j : Joint} {x y : Combination}

/-- Whether rows can be picked for all inner joins below a slot with some row, each of which
    matches the one picked for its owner. -/
def CompletesAt (R : Reading) (store : Store) (i : Nat) (u : TableRow) : Prop :=
  ∃ pick : Nat → TableRow, pick i = u ∧
    ∀ (n : Nat) (j : Joint), R.joints[n]? = some j → j.kind = .inner →
      R.chainAt i <+: R.chainAt j.parent →
        pick (n + 1) ∈ store.rows j.target.table ∧ j.edge.Matches (pick j.parent) (pick (n + 1))

/-- All joins of a statement are below its root. -/
theorem IsSound.completesAt_zero_iff (h : R.IsSound k plan scope)
    (hsel : plan.IsSelected k.catalog root) : R.CompletesAt store 0 u ↔ R.Reaches store u := by
  refine exists_congr fun pick => and_congr_right fun _ => ?_
  exact ⟨fun hpick n j hj hkind => hpick n j hj hkind (h.prefix_chainAt hsel hj),
    fun hpick n j hj hkind _ => hpick n j hj hkind⟩

/-- What is below a joint is at its own slot or below the slot where it starts. -/
theorem IsSound.prefix_succ_iff (h : R.IsSound k plan scope)
    (hsel : plan.IsSelected k.catalog root) (hj : R.joints[n]? = some j)
    {chain : List Relation} : chain <+: R.chainAt (n + 1) ↔
      chain = R.chainAt (n + 1) ∨ chain <+: R.chainAt j.parent := by
  rw [chainAt_succ hj, h.chain_eq hsel (List.mem_of_getElem? hj), List.prefix_concat_iff]

/-- What is below a slot comes after it. -/
theorem IsSound.le_of_prefix (h : R.IsSound k plan scope) (hsel : plan.IsSelected k.catalog root)
    (hgroup : R.group ∈ plan.groups) {i m : Nat} (hi : i < R.slots.length)
    (hm : m < R.slots.length) (hpre : R.chainAt i <+: R.chainAt m) : i ≤ m := by
  induction m using Nat.strongRecOn with
  | _ m ih =>
    cases m with
    | zero =>
      -- The way to the root of the statement is the shortest.
      have hroot : R.chainAt 0 <+: R.chainAt i := by
        cases i with
        | zero => exact List.prefix_refl _
        | succ i =>
          rw [length_slots] at hi
          obtain ⟨j, hj⟩ : ∃ j, R.joints[i]? = some j :=
            ⟨_, List.getElem?_eq_getElem (Nat.lt_of_succ_lt_succ hi)⟩
          exact (h.prefix_succ_iff hsel hj).2 (Or.inr (h.prefix_chainAt hsel hj))
      exact Nat.le_of_eq (h.chainAt_inj hsel hgroup hi hm (hpre.eq_of_length_le hroot.length_le))
    | succ m =>
      obtain ⟨j, hj⟩ : ∃ j, R.joints[m]? = some j := by
        rw [length_slots] at hm
        exact ⟨_, List.getElem?_eq_getElem (Nat.lt_of_succ_lt_succ hm)⟩
      rcases (h.prefix_succ_iff hsel hj).1 hpre with heq | hpre
      · exact Nat.le_of_eq (h.chainAt_inj hsel hgroup hi hm heq)
      · have hle := h.parent_le m j hj
        have := ih j.parent (by omega) (by omega) hpre
        omega

/-- The rows of a combination are picked for the inner joins below each of them. -/
theorem IsJoinable.completesAt_of_mem_expand (hR : R.IsJoinable)
    (hy : y ∈ expand store R.joints [some t]) {i : Nat} (hu : y.at? i = some u) :
    R.CompletesAt store i u := by
  refine ⟨fun m => (y.at? m).getD [], congrArg (·.getD []) hu, fun m j hj hkind _ => ?_⟩
  obtain ⟨o, ho⟩ := hR.exists_at?_of_isInner hy (hR.isInner_parent (List.mem_of_getElem? hj) hkind)
  obtain ⟨r, hr, hat⟩ := exists_of_fits_inner ((hR.fits hy).2.2 m j hj) hkind
  simp only [hat, ho]
  exact ⟨(Joint.mem_found.1 hr).1, Joint.matches_of_mem_found ho hr⟩

/-- Rows that are picked below a slot, and elsewhere those of a combination. -/
def graft (R : Reading) (i : Nat) (pick : Nat → TableRow) (y : Combination) (m : Nat) : TableRow :=
  if R.chainAt i <+: R.chainAt m then pick m else (y.at? m).getD []

theorem graft_below {i m : Nat} {pick : Nat → TableRow}
    (hpre : R.chainAt i <+: R.chainAt m) : R.graft i pick y m = pick m :=
  if_pos hpre

theorem graft_elsewhere {i m : Nat} {pick : Nat → TableRow}
    (hpre : ¬R.chainAt i <+: R.chainAt m) (hu : y.at? m = some u) : R.graft i pick y m = u :=
  (if_neg hpre).trans (congrArg (·.getD []) hu)

/-- After a slot rows match those of their owners, be it below the slot or elsewhere: both are
    at the same side, but for the slot itself. -/
theorem IsSound.matches_graft (h : R.IsSound k plan scope) (hsel : plan.IsSelected k.catalog root)
    (hc : k.catalog.IsSound) (hgroup : R.group ∈ plan.groups)
    (hy : y ∈ expand store R.joints [some t]) {pick : Nat → TableRow}
    (hpick : ∀ (m : Nat) (j : Joint), R.joints[m]? = some j → j.kind = .inner →
      R.chainAt (n + 1) <+: R.chainAt j.parent →
        pick (m + 1) ∈ store.rows j.target.table ∧ j.edge.Matches (pick j.parent) (pick (m + 1)))
    {m : Nat} (hj : R.joints[m]? = some j) (hm : n < m) (hkind : j.kind = .inner) :
    R.graft (n + 1) pick y (m + 1) ∈ store.rows j.target.table ∧
      j.edge.Matches (R.graft (n + 1) pick y j.parent) (R.graft (n + 1) pick y (m + 1)) := by
  have hR := h.isJoinable hsel hc
  have hlt := (List.getElem?_eq_some_iff.1 hj).1
  have hsucc : R.chainAt (n + 1) <+: R.chainAt (m + 1) ↔
      R.chainAt (n + 1) = R.chainAt (m + 1) ∨ R.chainAt (n + 1) <+: R.chainAt j.parent :=
    h.prefix_succ_iff hsel hj
  by_cases hpre : R.chainAt (n + 1) <+: R.chainAt j.parent
  · rw [graft_below hpre, graft_below (hsucc.2 (Or.inr hpre))]
    exact hpick m j hj hkind hpre
  · have hslots : R.slots.length = R.joints.length + 1 := R.length_slots
    -- A later slot is another one.
    have hother : ¬R.chainAt (n + 1) = R.chainAt (m + 1) := fun heq => by
      have := h.chainAt_inj hsel hgroup (by omega) (by omega) heq
      omega
    obtain ⟨o, ho⟩ :=
      hR.exists_at?_of_isInner hy (hR.isInner_parent (List.mem_of_getElem? hj) hkind)
    obtain ⟨r, hr, hat⟩ := exists_of_fits_inner ((hR.fits hy).2.2 m j hj) hkind
    rw [graft_elsewhere hpre ho,
      graft_elsewhere (fun hp => (hsucc.1 hp).elim hother hpre) hat]
    exact ⟨(Joint.mem_found.1 hr).1, Joint.matches_of_mem_found ho hr⟩

/-- The rows before a slot go on with any row there that completes, if they go on at all. -/
theorem IsSound.exists_mem_expand_of_completesAt (h : R.IsSound k plan scope)
    (hsel : plan.IsSelected k.catalog root) (hc : k.catalog.IsSound)
    (hgroup : R.group ∈ plan.groups) (hy : y ∈ expand store R.joints [some t])
    (hj : R.joints[n]? = some j) (hx : x <+: y) (hlen : x.length = n + 1)
    (hu : R.CompletesAt store (n + 1) u) :
    ∃ z, z ∈ expand store (R.joints.drop (n + 1)) (x ++ [some u]) := by
  have hR := h.isJoinable hsel hc
  have hslots : R.slots.length = R.joints.length + 1 := R.length_slots
  have hn := (List.getElem?_eq_some_iff.1 hj).1
  obtain ⟨pick, hstart, hpick⟩ := hu
  have hbefore : ∀ i ≤ n + 1, R.IsInner i →
      Combination.at? (x ++ [some u]) i = some (R.graft (n + 1) pick y i) := by
    intro i hi hinner
    -- Slots up to this one are not below it, but for the slot itself.
    rcases Nat.lt_or_eq_of_le hi with hi | rfl
    · have hnot : ¬R.chainAt (n + 1) <+: R.chainAt i := fun hpre => by
        have := h.le_of_prefix hsel hgroup (by omega) hinner.lt_length hpre
        omega
      obtain ⟨o, ho⟩ := hR.exists_at?_of_isInner hy hinner
      rw [graft_elsewhere hnot ho, Combination.at?_append_left (by omega), ← ho]
      obtain ⟨rest, rfl⟩ := hx
      rw [Combination.at?_append_left (by omega)]
    · rw [graft_below (List.prefix_refl _), hstart, ← hlen, Combination.at?_append_length]
  refine hR.exists_mem_expand_drop (by rw [List.length_append, hlen]; rfl) hbefore ?_
  exact fun m j' hj' hm hkind => h.matches_graft hsel hc hgroup hy hpick hj' hm hkind

/-- The first combination comes from one before a joint, and is the first that this one is
    extended to. -/
theorem IsSound.exists_before_joint (h : R.IsSound k plan scope)
    (hy : (expand store R.joints [some t]).head? = some y) (hj : R.joints[n]? = some j) :
    ∃ x : Combination, x.length = n + 1 ∧
      (j.extend store x).findSome?
        (fun z => (expand store (R.joints.drop (n + 1)) z).head?) = some y := by
  have hn := (List.getElem?_eq_some_iff.1 hj).1
  have hsplit : R.joints = R.joints.take n ++ j :: R.joints.drop (n + 1) := by
    obtain ⟨_, rfl⟩ := List.getElem?_eq_some_iff.1 hj
    rw [← List.drop_eq_getElem_cons, List.take_append_drop]
  obtain ⟨x, hx, hhead⟩ := exists_head?_of_append (hsplit ▸ hy)
  obtain ⟨-, hlen, -⟩ := fits_of_mem_expand (fun m j' hj' => by
    rw [List.getElem?_take] at hj'
    have := h.parent_le m j' (Option.ite_none_right_eq_some.1 hj').2
    rw [List.length_singleton]
    omega) hx
  rw [List.length_singleton, List.length_take, Nat.min_eq_left (Nat.le_of_lt hn),
    Nat.add_comm] at hlen
  rw [expand, List.head?_flatMap] at hhead
  exact ⟨x, hlen, hhead⟩

/-- What comes after a joint leaves what is at its slot, and what it finds. -/
theorem IsSound.at?_of_mem_expand_drop (h : R.IsSound k plan scope) (hj : R.joints[n]? = some j)
    (hlen : x.length = n + 1) {o : Option TableRow}
    (hy : y ∈ expand store (R.joints.drop (n + 1)) (x ++ [o])) :
    x ++ [o] <+: y ∧ y.at? (n + 1) = o ∧ j.found store y = j.found store x := by
  have hstart := (fits_of_mem_expand (fun m j' hj' => by
    rw [List.getElem?_drop] at hj'
    have := h.parent_le _ j' hj'
    rw [List.length_append, List.length_singleton]
    omega) hy).1
  refine ⟨hstart, ?_⟩
  obtain ⟨rest, rfl⟩ := hstart
  have hparent := h.parent_le n j hj
  rw [← hlen, Combination.at?_append_left (by rw [List.length_append]; exact Nat.lt_succ_self _),
    Combination.at?_append_length, List.append_assoc, Joint.found_append (by omega)]
  exact ⟨rfl, rfl⟩

/-- In the first combination a slot has the first row that its joint finds of those that
    complete. -/
theorem IsSound.at?_of_head? (h : R.IsSound k plan scope) (hsel : plan.IsSelected k.catalog root)
    (hc : k.catalog.IsSound) (hgroup : R.group ∈ plan.groups)
    (hy : (expand store R.joints [some t]).head? = some y) (hj : R.joints[n]? = some j)
    (completes : TableRow → Bool)
    (hcompletes : ∀ u, completes u = true ↔ R.CompletesAt store (n + 1) u) :
    y.at? (n + 1) = (j.found store y).find? completes := by
  have hR := h.isJoinable hsel hc
  have hmem := List.mem_of_mem_head? (Option.mem_def.2 hy)
  obtain ⟨x, hlen, hhead⟩ := h.exists_before_joint hy hj
  by_cases hnil : j.found store x = []
  · obtain ⟨z, hz, hhead⟩ := List.exists_of_findSome?_eq_some hhead
    rcases Joint.mem_extend.1 hz with ⟨u, hu, -⟩ | ⟨-, -, rfl⟩
    · exact absurd hu (hnil ▸ List.not_mem_nil)
    · obtain ⟨-, hat, hfound⟩ :=
        h.at?_of_mem_expand_drop hj hlen (List.mem_of_mem_head? (Option.mem_def.2 hhead))
      rw [hat, hfound, hnil]
      rfl
  · -- The rows before the first that goes on to a combination do not complete.
    rw [Joint.extend_eq_map hnil, List.findSome?_map, List.findSome?_eq_some_iff] at hhead
    obtain ⟨before, u, after, hfound, hu, hnone⟩ := hhead
    obtain ⟨hpre, hat, hsame⟩ :=
      h.at?_of_mem_expand_drop hj hlen (List.mem_of_mem_head? (Option.mem_def.2 hu))
    rw [hat, hsame, eq_comm, List.find?_eq_some_iff_append]
    refine ⟨(hcompletes u).2 (hR.completesAt_of_mem_expand hmem hat), before, after, hfound,
      fun a ha => ?_⟩
    rw [Bool.not_eq_true', Bool.eq_false_iff, ne_eq, hcompletes]
    intro hcomplete
    obtain ⟨z, hz⟩ := h.exists_mem_expand_of_completesAt hsel hc hgroup hmem hj
      ((List.prefix_append x _).trans hpre) hlen hcomplete
    rw [List.head?_eq_none_iff.1 (hnone a ha)] at hz
    exact absurd hz List.not_mem_nil

end Reading

/-- The slots are known by the relations on the way to them, which tell them apart. -/
theorem Reading.IsSound.exists_slotOf {k : Compiler} {plan : LoadPlan} {scope : QueryScope}
    {R : Reading} {root : Entity} (h : R.IsSound k plan scope)
    (hsel : plan.IsSelected k.catalog root) (hgroup : R.group ∈ plan.groups) :
    ∃ slotOf : List Relation → Nat, ∀ n < R.slots.length, slotOf (R.chainAt n) = n := by
  have hinj : Set.InjOn R.chainAt { n | n < R.slots.length } := fun n hn n' hn' heq =>
    h.chainAt_inj hsel hgroup hn hn' heq
  exact ⟨Function.invFunOn R.chainAt { n | n < R.slots.length }, fun n hn =>
    hinj.leftInvOn_invFunOn hn⟩

namespace CompiledPlan

/-- Whether rows can be picked for all relations below one that its statement joins by inner
    joins, each of which matches the one picked for its owner, if there is some row at the
    relation itself. -/
def Completes (c : CompiledPlan) (catalog : Catalog) (store : Store) (r : PlannedRelation)
    (u : TableRow) : Prop :=
  ∃ pick : List Relation → TableRow, pick r.node.chain = u ∧
    ∀ m ∈ c.plan.relations, r.node.chain <+: m.node.ancestors →
      c.JoinsInner r.group m.node.chain →
        ∀ e, catalog.entity m.node.relation.target = .ok e →
          pick m.node.chain ∈ store.rows e.table ∧
            m.node.relation.Matches (pick m.node.ancestors) (pick m.node.chain)

variable {p : Planner} {req : FetchRequest} {root : Entity} {c : CompiledPlan} {R : Reading}
  {r : PlannedRelation} {u : TableRow}

/-- Every row completes if nothing below is joined by an inner join. -/
theorem completes_of_forall {catalog : Catalog} (h : ∀ m ∈ c.plan.relations,
    r.node.chain <+: m.node.ancestors → ¬c.JoinsInner r.group m.node.chain) :
    c.Completes catalog store r u :=
  ⟨fun _ => u, rfl, fun m hm hpre hinner => absurd hinner (h m hm hpre)⟩

/-- What completes at a slot is settled by the relations of the plan. -/
theorem IsPrepared.completes_iff (h : c.IsPrepared p req root)
    (hsound : R.IsSound p.compiler c.plan (p.layered req.scope))
    (hgroup : R.group ∈ c.plan.groups)
    (hcs : c.statement? r.group = some (R.compiled (p.layered req.scope))) {i : Nat}
    (hi : R.relationAt i = some r) :
    c.Completes p.catalog store r u ↔ R.CompletesAt store i u := by
  have hchain : R.chainAt i = r.node.chain := by
    rw [Reading.chainAt, hi]
    rfl
  have hinner := Planner.joinsInner_iff h hcs hsound
  constructor
  · rintro ⟨pick, rfl, hpick⟩
    refine ⟨fun n => pick (R.chainAt n), congrArg pick hchain, fun n j hj hkind hpre => ?_⟩
    have hmem := List.mem_of_getElem? hj
    have hway := hsound.ancestors_eq h.selected hmem
    rw [hchain, ← hway] at hpre
    have := hpick j.relation (hsound.relation_mem hmem) hpre ((hinner _).2 ⟨j, hmem, rfl, hkind⟩)
      j.target (hsound.settled j hmem).target
    simp only [Reading.chainAt_succ hj, ← hway]
    exact this
  · rintro ⟨pick, rfl, hpick⟩
    -- A row for every relation is picked by the slot at its end.
    obtain ⟨slotOf, hslot⟩ := hsound.exists_slotOf h.selected hgroup
    refine ⟨fun chain => pick (slotOf chain), ?_, fun m hm hpre hjoins e he => ?_⟩
    · rw [← hchain]
      exact congrArg pick (hslot i (Reading.lt_length_of_relationAt hi))
    · obtain ⟨j, hmem, heq, hkind⟩ := (hinner _).1 hjoins
      obtain rfl : j.relation = m := h.selected.eq_of_path (hsound.relation_mem hmem) hm
        (congrArg (fun chain : List Relation => dotted (chain.map Relation.name)) heq)
      obtain ⟨n, hj⟩ := List.mem_iff_getElem?.1 hmem
      have hplace := (List.getElem?_eq_some_iff.1 (Reading.getElem?_joints hj)).1
      have hle := hsound.parent_le n j hj
      obtain rfl := Except.ok.inj (he.symm.trans (hsound.settled j hmem).target)
      have hway := hsound.ancestors_eq h.selected hmem
      rw [hway, ← hchain] at hpre
      simp only [← Reading.chainAt_succ hj, hway, hslot _ hplace,
        hslot j.parent (Nat.lt_of_le_of_lt hle (Nat.lt_of_succ_lt hplace))]
      exact hpick n j hj hkind hpre

end CompiledPlan

end EntityFetch
