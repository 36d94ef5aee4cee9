import EntityFetch.Proofs.Branches
import EntityFetch.Proofs.SameRoots

/-!
# Tables with one answer

What a fetch means does not depend on how it is loaded only if the tables are as its
relations say (`Outline.IsRegular`): primary keys tell rows apart, a relation to one leads
to one row at most, and an inner join leads somewhere from every row. Every statement
of the fetch then combines a row of its root in one way
(`Outline.IsRegular.isDetermined`), and every batch of keys is one of distinct ones
(`Outline.IsRegular.isBatched`).
-/

namespace EntityFetch

/-- Tables that are as the relations of a fetch say. -/
structure Outline.IsRegular (o : Outline) (c : CompiledPlan) (store : Store) : Prop where
  root : store.HasKeys o.root
  /-- A column by which roots are sorted has values of one kind. -/
  ordered : ∀ x ∈ o.orderBy, ∃ k, ∀ r ∈ store.rows o.root.table, (r.value x.column).isNullOr k
  keyed : ∀ b ∈ o.branches, store.HasKeys b.target
  owner : ∀ b ∈ o.branches, ∀ r ∈ store.rows b.owner.table, (r.value b.edge.ownerColumn).IsPlain
  target : ∀ b ∈ o.branches, ∀ t ∈ store.rows b.target.table,
    (t.value b.edge.targetColumn).IsPlain
  /-- A relation to one leads to one row at most. -/
  single : ∀ b ∈ o.branches, b.edge.cardinality = .one → ∀ r ∈ store.rows b.owner.table,
    (b.found store (r.value b.edge.ownerColumn)).length ≤ 1
  /-- A relation that is joined by an inner join leads somewhere from every row. -/
  leads : ∀ b ∈ o.branches, (∃ group, c.JoinsInner group b.node.chain) →
    ∀ r ∈ store.rows b.owner.table, ∃ t ∈ store.rows b.target.table, b.edge.Matches r t

namespace Outline.IsRegular

variable {p : Planner} {req : FetchRequest} {root : Entity} {c : CompiledPlan} {k : Nat}
  {store : Store} {o : Outline} {R : Reading} {b : Branch}

/-- Every statement combines a row of its root in one way. -/
theorem isDetermined (ho : o.IsRegular c store) (h : c.IsPrepared p req root)
    (hgroup : R.group ∈ c.plan.groups)
    (hcs : c.statement? k = some (R.compiled (p.layered req.scope)))
    (hsound : R.IsSound p.compiler c.plan (p.layered req.scope))
    (hmem : ∀ b ∈ R.branches, b ∈ o.branches) : R.IsDetermined store := by
  have hbranch : ∀ j ∈ R.joints, R.branchOf j ∈ o.branches :=
    fun j hj => hmem _ (List.mem_map_of_mem hj)
  -- Single and leading are said of the tables of a branch, which are those of its joint.
  have howner : ∀ (j : Joint) (e : Entity), R.entityAt j.parent = some e →
      (R.branchOf j).owner = e := by
    intro j e he
    rw [Reading.branchOf, he]
    rfl
  constructor
  case single =>
    intro j hj e he r hr
    have hone : (R.branchOf j).edge.cardinality = .one :=
      hsound.cardinality_eq h.selected hgroup hj
    exact ho.single _ (hbranch j hj) hone r (howner j e he ▸ hr)
  case leads =>
    intro j hj hkind e he r hr
    have hinner : c.JoinsInner k (R.branchOf j).node.chain :=
      (Planner.joinsInner_iff h hcs hsound _).2 ⟨j, hj, rfl, hkind⟩
    exact ho.leads _ (hbranch j hj) ⟨k, hinner⟩ r (howner j e he ▸ hr)
  case keyed => exact fun j hj t ht => (ho.keyed _ (hbranch j hj)).isNull_eq_false ht

/-- Batches of the distinct keys of owners. -/
theorem isBatched (ho : o.IsRegular c store) (hb : b ∈ o.branches) {owners : List TableRow}
    (howners : ∀ r ∈ owners, r ∈ store.rows b.owner.table) (n : Nat) :
    b.IsBatched store (chunks n (distinctKeys []
      (owners.map fun r => r.value b.edge.ownerColumn))) := by
  refine Branch.isBatched_chunks (ho.keyed b hb) (ho.target b hb) (fun w hw => ?_) n
  obtain ⟨r, hr, rfl⟩ := List.mem_map.1 hw
  exact ho.owner b hb r (howners r hr)

end Outline.IsRegular

end EntityFetch
