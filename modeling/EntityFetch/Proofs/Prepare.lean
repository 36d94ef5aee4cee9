import EntityFetch.Fetch
import EntityFetch.Proofs.Combination

/-!
# Prepared requests

A request that can be prepared has a plan for the relations of a tree and a
statement for every group of it (`CompiledPlan.IsPrepared`). Each statement has a
sound reading; that of the first group reads the root of the fetch
(`CompiledPlan.IsPrepared.exists_primary`).
-/

namespace EntityFetch

namespace Planner

/-- What the statements of a planner depend on. -/
def compiler (p : Planner) : Compiler :=
  { catalog := p.catalog, filters := p.filters, sql := p.config.sql }

end Planner

namespace CompiledPlan

/-- What is known of the plan and the statements of a request. -/
structure IsPrepared (p : Planner) (req : FetchRequest) (root : Entity) (c : CompiledPlan) :
    Prop where
  root_eq : c.plan.root = req.root
  selected : c.plan.IsSelected p.catalog root
  length_eq : c.statements.length = c.plan.groups.length
  reading : ∀ (i : Nat) (cs : CompiledStatement), c.statement? i = some cs →
    ∃ R : Reading, c.plan.groups[i]? = some R.group ∧
      R.IsSound p.compiler c.plan (p.layered req.scope) ∧ cs = R.compiled (p.layered req.scope)

end CompiledPlan

namespace Planner

variable {p : Planner} {req : FetchRequest} {c : CompiledPlan}

/-- What a request is prepared from: its paths and the graph to which they are resolved. -/
theorem prepare_eq_ok (h : p.prepare req = .ok c) :
    ∃ paths g, req.populate.mapM RelationPath.parse = .ok paths ∧
      Graph.resolve p.catalog p.config.loading.maxDepth req.root paths = .ok g ∧
      p.compiler.compile (p.config.loading.defaults.select g) (p.layered req.scope) = .ok c := by
  obtain ⟨paths, hparse, h⟩ := bind_eq_ok.1 h
  obtain ⟨plan, hplan, h⟩ := bind_eq_ok.1 h
  obtain ⟨g, hresolve, hplan⟩ := bind_eq_ok.1 hplan
  obtain rfl := pure_eq_ok.1 hplan
  exact ⟨paths, g, hparse, hresolve, h⟩

/-- A request that can be prepared is prepared as it should be. -/
theorem isPrepared_of_prepare (h : p.prepare req = .ok c) : ∃ root, c.IsPrepared p req root := by
  obtain ⟨paths, g, hparse, hresolve, h⟩ := prepare_eq_ok h
  have hdot := RelationPath.isDotFree_of_mapM_parse hparse
  obtain ⟨root, hsel⟩ := LoadPlan.isSelected_of_resolve p.config.loading.defaults hdot hresolve
  obtain ⟨hplan, hlength, hreading⟩ := Reading.exists_of_compile h
  obtain ⟨-, -, -, hroot, -⟩ := Graph.isTree_of_resolve hdot hresolve
  exact ⟨root, hplan ▸ hroot, hplan ▸ hsel, hplan ▸ hlength, fun i cs hcs => by
    rw [hplan]
    exact hreading i cs hcs⟩

/-- Compiling a plan for paths that were parsed prepares a request for them. -/
theorem isPrepared_of_compile {name : String} {texts : List String} {paths : List RelationPath}
    {scope : QueryScope} (hparse : texts.mapM RelationPath.parse = .ok paths)
    (h : p.compile name paths scope = .ok c) :
    ∃ root, c.IsPrepared p { root := name, populate := texts, scope } root := by
  refine isPrepared_of_prepare ?_
  rw [prepare, hparse]
  exact h

/-- Every step of a path that is asked for is a relation of the plan. -/
theorem exists_of_step (h : p.prepare req = .ok c) {text : String} (htext : text ∈ req.populate)
    {path : RelationPath} (hpath : RelationPath.parse text = .ok path) {step : List String}
    (hne : step ≠ []) (hstep : step <+: path.segments) :
    ∃ r ∈ c.plan.relations, r.node.names = step := by
  obtain ⟨paths, g, hparse, hresolve, h⟩ := prepare_eq_ok h
  rw [(Reading.exists_of_compile h).1]
  exact LoadPlan.exists_of_step _ (RelationPath.isDotFree_of_mapM_parse hparse) hresolve
    (mem_of_mapM_eq_ok hparse htext hpath) hne hstep

end Planner

namespace CompiledPlan.IsPrepared

variable {p : Planner} {req : FetchRequest} {root : Entity} {c : CompiledPlan}

/-- The relation at the root of a group is that of its reading. -/
theorem root_of_group {k : Nat} {R : Reading} {r : PlannedRelation} (hr : c.groupRoot? k = some r)
    (hgroup : c.plan.groups[k]? = some R.group)
    (hsound : R.IsSound p.compiler c.plan (p.layered req.scope)) : R.root = some r := by
  rw [groupRoot?, hgroup] at hr
  exact hsound.root_eq.trans hr

/-- The first group is that of the root of the fetch. -/
theorem root_of_reading (h : c.IsPrepared p req root) {R : Reading}
    (hgroup : c.plan.groups[0]? = some R.group)
    (hsound : R.IsSound p.compiler c.plan (p.layered req.scope)) :
    R.root = none ∧ R.entity = root := by
  have hroot : R.root = none := by
    have hnone := h.selected.isGrouped.primary.1
    rw [hgroup, Option.bind_some] at hnone
    rw [hsound.root_eq, hnone]
    rfl
  have hentity := hsound.entity
  rw [hroot] at hentity
  exact ⟨hroot, Except.ok.inj (hentity.symm.trans h.selected.entity)⟩

/-- The first statement reads the root of the fetch. -/
theorem exists_primary (h : c.IsPrepared p req root) :
    ∃ R : Reading, c.primary? = some (R.compiled (p.layered req.scope)) ∧
      R.IsSound p.compiler c.plan (p.layered req.scope) ∧ R.group ∈ c.plan.groups ∧
        R.root = none ∧ R.entity = root := by
  have hlen : 0 < c.statements.length := h.length_eq ▸ h.selected.isGrouped.length_pos
  have hprimary : c.primary? = some c.statements[0] := List.getElem?_eq_getElem hlen
  obtain ⟨R, hgroup, hsound, heq⟩ := h.reading 0 _ hprimary
  exact ⟨R, hprimary.trans (congrArg some heq), hsound, List.mem_of_getElem? hgroup,
    h.root_of_reading hgroup hsound⟩

/-- The relation at the root of a group is the one with a statement of its own. -/
theorem groupRoot?_group (h : c.IsPrepared p req root) {q : PlannedRelation}
    (hq : q ∈ c.plan.relations) (hselect : q.strategy = .selectIn) :
    c.groupRoot? q.group = some q := by
  rw [groupRoot?, h.selected.isGrouped.root_of_selectIn q hq hselect, Option.bind_some]
  exact h.selected.isGrouped.getElem?_id hq

end CompiledPlan.IsPrepared

end EntityFetch
