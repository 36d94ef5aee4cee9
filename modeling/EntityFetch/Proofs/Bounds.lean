import EntityFetch.Proofs.CallerFault

/-!
# Bounds on the roots

How many roots are wanted, and from which place on, is said in the statement that reads them
and nowhere else. A request with other bounds is refused for the same reasons, and if it is
not, its statements are the same but for the bounds of the first (`Planner.prepare_within`).
-/

namespace EntityFetch

/-- The request with other bounds on its roots. -/
def FetchRequest.within (q : FetchRequest) (skip take : Option Nat) : FetchRequest :=
  { q with scope := { q.scope with skip, take } }

/-- The statement with other bounds on its rows. -/
def CompiledStatement.window (cs : CompiledStatement) (offset limit : Option Nat) :
    CompiledStatement :=
  { cs with statement := { cs.statement with offset, limit } }

/-- The plan with other bounds on the rows of the first statement. -/
def CompiledPlan.window (c : CompiledPlan) (offset limit : Option Nat) : CompiledPlan :=
  { c with statements := c.statements.modifyHead (·.window offset limit) }

/-- A window of the rows begins as the rows do from its place on. -/
theorem Store.evaluate_take (store : Store) (s : Statement) (offset : Option Nat) (n : Nat) :
    store.evaluate { s with offset, limit := some n } =
      (store.evaluate { s with offset, limit := none }).take n :=
  rfl

namespace CompiledPlan

variable {c : CompiledPlan} {offset limit : Option Nat}

theorem primary?_window :
    (c.window offset limit).primary? = c.primary?.map (·.window offset limit) := by
  rcases c with ⟨plan, _ | ⟨cs, rest⟩⟩ <;> rfl

/-- The statements that follow have no other bounds. -/
theorem statement?_window {k : Nat} (hk : k ≠ 0) :
    (c.window offset limit).statement? k = c.statement? k := by
  obtain ⟨i, rfl⟩ := Nat.exists_eq_succ_of_ne_zero hk
  rcases c with ⟨plan, _ | ⟨cs, rest⟩⟩ <;> rfl

end CompiledPlan

namespace Compiler

variable {k : Compiler} {plan : LoadPlan} {scope : QueryScope} {skip take : Option Nat}

/-- Bounds are not checked. -/
theorem rootClauses_within (e : Entity) (aliasName : String) :
    rootClauses { scope with skip, take } e aliasName =
      (rootClauses scope e aliasName).map fun cl => (cl.1, cl.2.1, take, skip) := by
  unfold rootClauses
  refine bind_eq_map fun _ _ => ?_
  simp only
  split <;> rfl

/-- The bounds on the rows of a statement are no conditions. -/
theorem compileBelow_window {group : LoadGroup} {e : Entity} {path aliasName : String}
    {pool : AliasPool} {predicates : List Predicate} {orderBy : List OrderBy}
    (hpredicates : ∀ p ∈ predicates, p.aliasName = aliasName) (limit offset : Option Nat) :
    k.compileBelow plan scope group e path aliasName pool predicates orderBy take skip =
      (k.compileBelow plan scope group e path aliasName pool predicates orderBy limit offset).map
        (·.window skip take) := by
  unfold compileBelow
  refine bind_eq_map fun active _ => bind_eq_map fun joined _ => bind_eq_map fun d _ => ?_
  have hscoped : ∀ p ∈ predicates ++ active.map fun a =>
      { aliasName, filter := a.filter, source := .globalFilter a.name },
      p.aliasName = aliasName := by
    refine List.forall_mem_append.2 ⟨hpredicates, fun p hp => ?_⟩
    obtain ⟨a, -, rfl⟩ := List.mem_map.1 hp
    rfl
  simp only
  rw [checkScoping_eq_ok hscoped, checkScoping_eq_ok hscoped]
  rfl

/-- With other bounds the statement of the root has these bounds, and all others stay as
    they are. -/
theorem compileGroup_within (group : LoadGroup) :
    k.compileGroup plan { scope with skip, take } group =
      (k.compileGroup plan scope group).map fun cs =>
        if group.root = none then cs.window skip take else cs := by
  unfold compileGroup
  refine bind_eq_map fun root hroot => bind_eq_map fun e _ => ?_
  have hnone : group.root = none ↔ root = none := by
    rw [← Option.not_isSome_iff_eq_none, ← (Reading.root_of_mapM hroot).2,
      Option.not_isSome_iff_eq_none]
  refine bind_eq_map fun ⟨aliasName, pool⟩ _ => ?_
  rcases root with _ | r
  · simp only [if_pos (hnone.2 rfl)]
    rw [rootClauses_within]
    rcases hcl : rootClauses scope e aliasName with err | ⟨predicates, orderBy, limit, offset⟩
    · rfl
    · exact compileBelow_window (Reading.aliasName_of_rootClauses hcl) limit offset
  · simp only [if_neg fun heq => Option.some_ne_none r (hnone.1 heq)]
    exact congrFun Except.map_id.symm _

/-- Of a plan whose first group is that of the root only the first statement has other
    bounds. -/
theorem compile_within {group : LoadGroup} {groups : List LoadGroup}
    (hgroups : plan.groups = group :: groups) (hprimary : group.root = none)
    (hfollow : ∀ g ∈ groups, g.root ≠ none) :
    k.compile plan { scope with skip, take } = (k.compile plan scope).map (·.window skip take) := by
  have hfirst : k.compileGroup plan { scope with skip, take } group = _ :=
    compileGroup_within group
  have hrest : groups.mapM (k.compileGroup plan { scope with skip, take }) =
      groups.mapM (k.compileGroup plan scope) := by
    refine mapM_congr fun g hg => ?_
    rw [compileGroup_within]
    simp only [if_neg (hfollow g hg)]
    exact congrFun Except.map_id _
  simp only [if_pos hprimary] at hfirst
  unfold compile
  rw [hgroups, List.mapM_cons, List.mapM_cons, hfirst, hrest]
  rcases k.compileGroup plan scope group with e | cs
  · rfl
  · rcases groups.mapM (k.compileGroup plan scope) with e | rest <;> rfl

end Compiler

namespace Planner

variable {p : Planner} {q : FetchRequest} {c : CompiledPlan}

/-- What is planned are the relations of a tree. -/
theorem isSelected_of_plan {texts : List String} {paths : List RelationPath} {root : String}
    {plan : LoadPlan} (hparse : texts.mapM RelationPath.parse = .ok paths)
    (hplan : p.plan root paths = .ok plan) : ∃ e, plan.IsSelected p.catalog e := by
  obtain ⟨g, hresolve, hselect⟩ := bind_eq_ok.1 hplan
  obtain rfl := pure_eq_ok.1 hselect
  exact LoadPlan.isSelected_of_resolve p.config.loading.defaults
    (RelationPath.isDotFree_of_mapM_parse hparse) hresolve

/-- A request with other bounds is prepared as the request is, but for these bounds. -/
theorem prepare_within (p : Planner) (q : FetchRequest) (skip take : Option Nat) :
    p.prepare (q.within skip take) = (p.prepare q).map (·.window skip take) := by
  unfold prepare
  refine bind_eq_map fun paths hparse => ?_
  unfold compile
  refine bind_eq_map fun plan hplan => ?_
  obtain ⟨root, hsel⟩ := isSelected_of_plan hparse hplan
  change p.compiler.compile plan { p.layered q.scope with skip, take } =
    (p.compiler.compile plan (p.layered q.scope)).map _
  have hroot := hsel.isPartition.root_eq_none_iff
  rcases hgroups : plan.groups with _ | ⟨group, groups⟩
  · exact absurd hgroups hsel.isPartition.groups_ne_nil
  rw [hgroups] at hroot
  refine Compiler.compile_within hgroups ((hroot 0 group rfl).2 rfl) fun g hg hnone => ?_
  obtain ⟨i, hi⟩ := List.mem_iff_getElem?.1 hg
  exact Nat.succ_ne_zero i ((hroot (i + 1) g hi).1 hnone)

/-- Bounds make no difference to whether a request can be prepared, nor to the error if it
    cannot. -/
theorem prepare_within_eq_error_iff {skip take : Option Nat} {e : QueryError} :
    p.prepare (q.within skip take) = .error e ↔ p.prepare q = .error e := by
  rw [prepare_within]
  cases p.prepare q <;> simp [Except.map]

end Planner

end EntityFetch
