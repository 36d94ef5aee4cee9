import EntityFetch.Proofs.Assoc
import EntityFetch.Proofs.CallerFault
import EntityFetch.Proofs.Filtered

/-!
# Layers of overrides

Whether a global filter applies at a path is said in up to four places: by the overrides
for the path, by those for all paths, by the configuration, and by the filter itself. The
first place that names the filter decides (`QueryScope.isOn`), while its arguments are
taken together, those of a higher place winning one by one (`QueryScope.argsFor`).
Compiling merges the layers in two steps, the configuration first; either step is a merge
of maps (`Overrides.enabled?_merged`, `Overrides.args_merged`).

* `Planner.filters_of_compile`: the filters at each alias of a compiled statement are
  exactly those that apply there.
-/

namespace EntityFetch

namespace Overrides

/-- Overrides that say one thing of each filter, with one value for each argument. -/
structure IsMap (o : Overrides) : Prop where
  keys_nodup : (Assoc.keys o.settings).Nodup
  args_nodup : ∀ name setting, o.get? name = some setting → (Assoc.keys setting.args).Nodup

/-- Whether a filter is switched on or off. -/
def enabled? (o : Overrides) (name : String) : Option Bool :=
  (o.get? name).map Setting.enabled

/-- The arguments that are given to a filter. -/
def args (o : Overrides) (name : String) : Args :=
  ((o.get? name).map Setting.args).getD []

variable {o lower higher : Overrides} {name : String}

theorem IsMap.nodup_args (h : o.IsMap) (name : String) : (Assoc.keys (o.args name)).Nodup := by
  rw [args]
  cases hget : o.get? name with
  | none => exact List.nodup_nil
  | some setting => exact h.args_nodup name setting hget

theorem settings_merged (lower higher : Overrides) : (lower.merged higher).settings =
    Assoc.mergeWith (fun (s : Setting) (old : Option Setting) => (old.getD {}).merged s)
      lower.settings higher.settings :=
  rfl

theorem get?_merged (h : higher.IsMap) : (lower.merged higher).get? name =
    ((higher.get? name).map fun s => ((lower.get? name).getD {}).merged s).or
      (lower.get? name) := by
  rw [get?, settings_merged, Assoc.lookup_mergeWith h.keys_nodup]
  rfl

/-- A filter that the higher layer names is switched as it says there. -/
theorem enabled?_merged (h : higher.IsMap) : (lower.merged higher).enabled? name =
    (higher.enabled? name).or (lower.enabled? name) := by
  rw [enabled?, get?_merged h, enabled?, enabled?]
  cases higher.get? name <;> rfl

/-- The arguments of both layers are given, the higher ones over the lower. -/
theorem args_merged (h : higher.IsMap) : (lower.merged higher).args name =
    Assoc.extend (lower.args name) (higher.args name) := by
  rw [args, get?_merged h, args, args]
  cases higher.get? name with
  | none => rfl
  | some s => cases lower.get? name <;> rfl

theorem isMap_empty : Overrides.empty.IsMap :=
  ⟨List.nodup_nil, nofun⟩

theorem get?_update (f : Option Setting → Setting) (name' : String) :
    get? { settings := Assoc.update name' f o.settings } name =
      if name == name' then some (f (o.get? name')) else o.get? name :=
  Assoc.lookup_update name' name f o.settings

/-- Changing what is said of one filter leaves a map, if it leaves one of arguments. -/
theorem IsMap.update (h : o.IsMap) {f : Option Setting → Setting}
    (hf : (Assoc.keys (f (o.get? name)).args).Nodup) :
    IsMap { settings := Assoc.update name f o.settings } where
  keys_nodup := Assoc.nodup_keys_update h.keys_nodup
  args_nodup name' setting hget := by
    rw [get?_update] at hget
    split at hget
    · exact Option.some.inj hget ▸ hf
    · exact h.args_nodup name' setting hget

theorem IsMap.set (h : o.IsMap) (name : String) (enabled : Bool) : (o.set name enabled).IsMap := by
  refine h.update ?_
  cases hget : o.get? name with
  | none => exact List.nodup_nil
  | some setting => exact h.args_nodup name setting hget

theorem IsMap.withArgs (h : o.IsMap) (name : String) (args : Args) :
    (o.withArgs name args).IsMap := by
  refine h.update (Assoc.nodup_keys_extend ?_ args)
  cases hget : o.get? name with
  | none => exact List.nodup_nil
  | some setting => exact h.args_nodup name setting hget

theorem IsMap.merged (hlower : lower.IsMap) (hhigher : higher.IsMap) :
    (lower.merged higher).IsMap where
  keys_nodup := by
    rw [settings_merged]
    exact Assoc.nodup_keys_mergeWith hlower.keys_nodup _
  args_nodup name setting hget := by
    have hargs : setting.args = (lower.merged higher).args name := by rw [args, hget]; rfl
    rw [hargs, args_merged hhigher]
    exact Assoc.nodup_keys_extend (hlower.nodup_args name) _

end Overrides

/-- The lowest layer switches the filters that the configuration names, and gives no
    arguments. -/
theorem Config.get?_filterDefaults {config : Config} (h : (Assoc.keys config.filters).Nodup)
    (name : String) : config.filterDefaults.get? name =
      (config.filters.lookup name).map fun enabled => { enabled } := by
  have hsettings : ∀ (entries : List (String × Bool)) (o : Overrides),
      (entries.foldl (fun o f => o.set f.1 f.2) o).settings = Assoc.mergeWith
        (fun (b : Bool) (s : Option Setting) => { s.getD {} with enabled := b }) o.settings
        entries := by
    intro entries
    induction entries with
    | nil => exact fun _ => rfl
    | cons f entries ih => exact fun o => ih (o.set f.1 f.2)
  rw [Overrides.get?, filterDefaults, hsettings, Assoc.lookup_mergeWith h]
  exact Option.or_none

theorem Config.isMap_filterDefaults (config : Config) : config.filterDefaults.IsMap :=
  foldl_induct (fun _ (o : Overrides) => o.IsMap) Overrides.isMap_empty
    fun _ f _ _ ho => ho.set f.1 f.2

/-! ### What is said at a path -/

namespace QueryScope

/-- The overrides for a single path. -/
def atPath (scope : QueryScope) (path : String) : Overrides :=
  (scope.populateFilters.lookup path).getD .empty

/-- Whether a global filter applies at a path: as the first of these says that names it,
    the overrides for the path, those for all paths, and the configuration, and else by
    default. -/
def isOn (scope : QueryScope) (config : Config) (path : String) (g : GlobalFilter) : Bool :=
  (((scope.atPath path).enabled? g.name).or
    ((scope.filters.enabled? g.name).or (config.filters.lookup g.name))).getD g.enabledByDefault

/-- The arguments of a global filter at a path: those for the path over those for all
    paths over its own. -/
def argsFor (scope : QueryScope) (path : String) (g : GlobalFilter) : Args :=
  Assoc.extend (Assoc.extend g.defaultArgs (scope.filters.args g.name))
    ((scope.atPath path).args g.name)

/-- The overrides of a scope are maps. -/
structure HasMaps (scope : QueryScope) : Prop where
  filters : scope.filters.IsMap
  populateFilters : ∀ e ∈ scope.populateFilters, e.2.IsMap

variable {scope : QueryScope} {path : String}

theorem HasMaps.atPath (h : scope.HasMaps) (path : String) : (scope.atPath path).IsMap := by
  rw [QueryScope.atPath]
  cases hlookup : scope.populateFilters.lookup path with
  | none => exact Overrides.isMap_empty
  | some o => exact h.populateFilters (path, o) (Assoc.mem_of_lookup hlookup)

/-- The arguments are merged key by key. -/
theorem HasMaps.lookup_argsFor (h : scope.HasMaps) (path : String) (g : GlobalFilter)
    (key : String) : (scope.argsFor path g).lookup key =
      (((scope.atPath path).args g.name).lookup key).or
        (((scope.filters.args g.name).lookup key).or (g.defaultArgs.lookup key)) := by
  rw [argsFor, Assoc.lookup_extend ((h.atPath path).nodup_args g.name),
    Assoc.lookup_extend (h.filters.nodup_args g.name)]

theorem overridesFor_eq (scope : QueryScope) (path : String) :
    scope.overridesFor path = scope.filters.merged (scope.atPath path) := by
  rw [overridesFor, QueryScope.atPath]
  cases scope.populateFilters.lookup path <;> rfl

theorem enabled?_overridesFor (h : scope.HasMaps) (name : String) :
    (scope.overridesFor path).enabled? name =
      ((scope.atPath path).enabled? name).or (scope.filters.enabled? name) := by
  rw [overridesFor_eq, Overrides.enabled?_merged (h.atPath path)]

theorem args_overridesFor (h : scope.HasMaps) (name : String) :
    (scope.overridesFor path).args name =
      Assoc.extend (scope.filters.args name) ((scope.atPath path).args name) := by
  rw [overridesFor_eq, Overrides.args_merged (h.atPath path)]

end QueryScope

namespace Planner

variable {p : Planner} {scope : QueryScope}

/-- The configuration gives no arguments, so that those for all paths are as the caller
    says. -/
theorem args_layered (hconfig : (Assoc.keys p.config.filters).Nodup) (h : scope.filters.IsMap)
    (name : String) : (p.layered scope).filters.args name = scope.filters.args name := by
  have hlowest : p.config.filterDefaults.args name = [] := by
    rw [Overrides.args, Config.get?_filterDefaults hconfig]
    cases p.config.filters.lookup name <;> rfl
  rw [layered, Overrides.args_merged h, hlowest, Assoc.extend_nil_left (h.nodup_args name)]

theorem enabled?_layered (hconfig : (Assoc.keys p.config.filters).Nodup)
    (h : scope.filters.IsMap) (name : String) : (p.layered scope).filters.enabled? name =
      (scope.filters.enabled? name).or (p.config.filters.lookup name) := by
  have hlowest : p.config.filterDefaults.enabled? name = p.config.filters.lookup name := by
    rw [Overrides.enabled?, Config.get?_filterDefaults hconfig, Option.map_map]
    exact Option.map_id'
  rw [layered, Overrides.enabled?_merged h, hlowest]

theorem hasMaps_layered (h : scope.HasMaps) : (p.layered scope).HasMaps where
  filters := p.config.isMap_filterDefaults.merged h.filters
  populateFilters := h.populateFilters

/-- A filter that is in force at a path is one that applies there by the first layer that
    names it. -/
theorem isEnabled_layered (hconfig : (Assoc.keys p.config.filters).Nodup) (h : scope.HasMaps)
    (path : String) : GlobalFilters.isEnabled ((p.layered scope).overridesFor path) =
      scope.isOn p.config path := by
  funext g
  change (((p.layered scope).overridesFor path).enabled? g.name).getD _ = _
  rw [QueryScope.enabled?_overridesFor (hasMaps_layered h), enabled?_layered hconfig h.filters]
  rfl

/-- A filter that is in force at a path is built from the arguments of all layers. -/
theorem extend_args_layered (hconfig : (Assoc.keys p.config.filters).Nodup) (h : scope.HasMaps)
    (path : String) (g : GlobalFilter) :
    Assoc.extend g.defaultArgs (((p.layered scope).overridesFor path).args g.name) =
      scope.argsFor path g := by
  rw [QueryScope.args_overridesFor (hasMaps_layered h), args_layered hconfig h.filters,
    Assoc.extend_extend g.defaultArgs (h.filters.nodup_args g.name)]
  rfl

end Planner

/-! ### The filters at an alias -/

/-- What a global filter amounts to, given all its arguments. -/
def GlobalFilter.Gives (g : GlobalFilter) (args : Args) (f : Filter) : Prop :=
  match g.predicate with
  | .fixed fixed => f = fixed
  | .built build => build args = .ok f

namespace GlobalFilters

/-- The filters in force are those that are enabled, each once and in order. -/
theorem forall₂_of_active {gs : GlobalFilters} {entity : String} {o : Overrides}
    {active : List ActiveFilter} (h : gs.active entity o = .ok active) :
    List.Forall₂ (fun g (a : ActiveFilter) => a.name = g.name ∧
      g.Gives (Assoc.extend g.defaultArgs (o.args g.name)) a.filter)
      ((gs.of entity).filter (isEnabled o)) active := by
  refine (mapM_eq_ok.1 h).imp fun g a ha => ?_
  obtain ⟨f, hf, ha⟩ := bind_eq_ok.1 ha
  obtain rfl := pure_eq_ok.1 ha
  refine ⟨rfl, ?_⟩
  rw [GlobalFilter.Gives]
  rcases GlobalFilter.resolve_eq_ok hf with hfixed | ⟨build, hbuilt, hf⟩
  · rw [hfixed]
  · rw [hbuilt]
    exact hf

/-- Registered filters of one entity have distinct names. -/
theorem nodup_of_ofList {registered : List GlobalFilter} {gs : GlobalFilters}
    (h : ofList registered = .ok gs) (entity : String) :
    ((gs.of entity).map GlobalFilter.name).Nodup := by
  refine foldlM_induct (fun _ (gs : GlobalFilters) =>
    ((gs.of entity).map GlobalFilter.name).Nodup) ?_ ?_ h
  · exact List.nodup_nil
  intro _ g gs gs' _ hgs hregister
  simp only [register] at hregister
  split at hregister
  · exact nomatch hregister
  · next hnew =>
    obtain rfl := Except.ok.inj hregister
    rw [of, List.filter_append, List.map_append, List.nodup_append]
    refine ⟨hgs, ?_, fun a ha b hb heq => hnew ?_⟩
    · exact List.Sublist.nodup (List.filter_sublist.map _) (List.nodup_singleton g.name)
    · obtain ⟨g₁, hg₁, rfl⟩ := List.mem_map.1 ha
      obtain ⟨g₂, hg₂, rfl⟩ := List.mem_map.1 hb
      obtain ⟨hmem, hentity⟩ := List.mem_filter.1 hg₂
      obtain rfl := List.mem_singleton.1 hmem
      rw [eq_of_beq hentity]
      exact List.any_eq_true.2 ⟨g₁, hg₁, beq_iff_eq.2 heq⟩

end GlobalFilters

/-- The global filter from which a condition comes. -/
def Predicate.globalFilter? (p : Predicate) : Option ActiveFilter :=
  match p.source with
  | .globalFilter name => some { name, filter := p.filter }
  | _ => none

/-- The global filters at a slot: conditions of the statement at its root, and part of the
    join at any other slot. -/
def CompiledStatement.filtersAt (cs : CompiledStatement) : Nat → List ActiveFilter
  | 0 => cs.statement.predicates.filterMap Predicate.globalFilter?
  | i + 1 => (cs.statement.joins[i]?.map Join.filters).getD []

theorem Reading.filtersAt_compiled (R : Reading) (scope : QueryScope) (i : Nat) :
    (R.compiled scope).filtersAt i = R.filtersAt i := by
  cases i with
  | zero =>
    have hclauses : (R.clauses scope).1.filterMap Predicate.globalFilter? = [] := by
      rw [clauses]
      split
      · split <;> rfl
      · rfl
    change ((R.clauses scope).1 ++ _).filterMap _ = R.active
    rw [List.filterMap_append, hclauses, List.nil_append, List.filterMap_map]
    exact List.filterMap_some
  | succ i =>
    change (((R.joints.map Joint.join)[i]?).map Join.filters).getD [] = _
    rw [List.getElem?_map, Option.map_map]
    rfl

namespace CompiledPlan

/-- The relation that is read at a slot, none for the root of the fetch. -/
def relationOf (c : CompiledPlan) (s : Slot) : Option PlannedRelation :=
  s.node.bind c.plan.relation?

/-- The path that is read at a slot, empty for the root of the fetch. -/
def pathOf (c : CompiledPlan) (s : Slot) : String :=
  ((c.relationOf s).map PlannedRelation.path).getD ""

/-- The name of the entity to which the path of a slot leads. -/
def targetOf (c : CompiledPlan) (s : Slot) : String :=
  ((c.relationOf s).map fun r => r.node.relation.target).getD c.plan.root

/-- What is read at a slot, and which filters are in force there. -/
theorem IsPrepared.active_at {p : Planner} {req : FetchRequest} {root : Entity}
    {c : CompiledPlan} (h : c.IsPrepared p req root) {R : Reading}
    (hsound : R.IsSound p.compiler c.plan (p.layered req.scope)) {i : Nat} {s : Slot}
    (hs : R.slots[i]? = some s) : ∃ e, p.catalog.entity (c.targetOf s) = .ok e ∧
      s.entity = e.name ∧ p.filters.active e.name
        ((p.layered req.scope).overridesFor (c.pathOf s)) = .ok (R.filtersAt i) := by
  obtain ⟨e, he, hname, -⟩ := Reading.exists_entityAt hs
  have hrelation : c.relationOf s = R.relationAt i := hsound.relation_of_slot h.selected hs
  have hpath : c.pathOf s = dotted ((R.chainAt i).map Relation.name) := by
    rw [pathOf, hrelation, Reading.chainAt]
    cases R.relationAt i <;> rfl
  have htarget : p.catalog.entity (c.targetOf s) = .ok e := by
    have hstart := hsound.startsAt h.selected he
    rw [targetOf, hrelation]
    cases hat : R.relationAt i with
    | none =>
      rw [hat] at hstart
      exact hstart ▸ h.selected.entity
    | some r =>
      rw [hat] at hstart
      exact hstart
  exact ⟨e, htarget, hname, hpath ▸ (Compiler.activeAt_eq_ok (hsound.activeAt_slot he)).1⟩

end CompiledPlan

namespace Planner

/-- Every alias of a compiled plan has exactly the filters that apply there: each of those
    that are registered for the entity and are on at the path, once and in order, built
    from the arguments that are merged key by key. Those of the root of a statement are
    conditions on the root, those of any other alias are part of the join. -/
theorem filters_of_compile {p : Planner} {root : String} {texts : List String}
    {paths : List RelationPath} {scope : QueryScope} {c : CompiledPlan}
    (hparse : texts.mapM RelationPath.parse = .ok paths)
    (hconfig : (Assoc.keys p.config.filters).Nodup) (hmaps : scope.HasMaps)
    (h : p.compile root paths scope = .ok c) :
    (∀ path g key, (scope.argsFor path g).lookup key =
      (((scope.atPath path).args g.name).lookup key).or
        (((scope.filters.args g.name).lookup key).or (g.defaultArgs.lookup key))) ∧
    ∀ cs ∈ c.statements, cs.slots.map Slot.aliasName = cs.statement.aliases ∧
      cs.statement.aliases.Nodup ∧
      (∀ q ∈ cs.statement.predicates, q.aliasName = cs.statement.root.aliasName) ∧
      ∀ (i : Nat) (s : Slot), cs.slots[i]? = some s →
        (∃ e, p.catalog.entity (c.targetOf s) = .ok e ∧ s.entity = e.name) ∧
        List.Forall₂ (fun g (a : ActiveFilter) => a.name = g.name ∧
          g.Gives (scope.argsFor (c.pathOf s) g) a.filter)
          ((p.filters.of s.entity).filter (scope.isOn p.config (c.pathOf s))) (cs.filtersAt i) ∧
        ∀ registered, GlobalFilters.ofList registered = .ok p.filters →
          ((cs.filtersAt i).map ActiveFilter.name).Nodup := by
  obtain ⟨e, hprepared⟩ := isPrepared_of_compile hparse h
  refine ⟨hmaps.lookup_argsFor, fun cs hcs => ?_⟩
  obtain ⟨n, hn⟩ := List.mem_iff_getElem?.1 hcs
  obtain ⟨R, hgroup, hsound, rfl⟩ := hprepared.reading n cs hn
  have haliases := R.map_aliasName_slots (p.layered scope)
  refine ⟨haliases, haliases ▸ hsound.aliases_nodup,
    fun q hq => Reading.aliasName_of_mem_predicates hq, fun i s hs => ?_⟩
  obtain ⟨e, he, hname, hactive⟩ := hprepared.active_at hsound hs
  have hfilters := GlobalFilters.forall₂_of_active hactive
  simp only [isEnabled_layered hconfig hmaps, extend_args_layered hconfig hmaps] at hfilters
  rw [R.filtersAt_compiled, hname]
  refine ⟨⟨e, he, rfl⟩, hfilters, fun registered hregistered => ?_⟩
  rw [map_eq_map_of_forall₂ hfilters fun g _ a ha => ha.1]
  exact (GlobalFilters.nodup_of_ofList hregistered e.name).sublist
    (List.filter_sublist.map GlobalFilter.name)

end Planner

/-! ### Users at two aliases -/

/-- Users of a team from a number on, and those with a number at all. -/
def numberedUsers : GlobalFilters :=
  { filters :=
      [{ name := "team", entity := "User"
         predicate := .built fun args =>
           .ok (.all [.compare .eq "team_id" ((args.lookup "team").getD .null),
             .compare .ge "id" ((args.lookup "least").getD .null)])
         defaultArgs := [("team", .int 1), ("least", .int 0)] },
       { name := "known", entity := "User", predicate := .fixed (.isNotNull "id") }] }

/-- A planner for tasks that knows of both filters and has them switched off. -/
def numberedPlanner (catalog : Catalog) : Planner :=
  { catalog, filters := numberedUsers
    config := { filters := [("team", false), ("known", false)] } }

/-- Users of one team everywhere, with all that is known of the authors of comments. -/
def numberedScope : QueryScope :=
  { filters := Overrides.empty.withArgs "team" [("team", .int 7)]
    populateFilters :=
      [("comments.author", (Overrides.empty.enable "known").withArgs "team" [("least", .int 5)])] }

namespace Planner

/-- Owners are filtered as the call says, authors of comments as their path says, too. -/
theorem filters_of_compile_tasks :
    ∃ catalog c, Catalog.build taskDecls = .ok catalog ∧
      (numberedPlanner catalog).compile "Task" [⟨["comments", "author"]⟩] numberedScope = .ok c ∧
      c.statements.map (fun cs => (List.range cs.slots.length).map fun i =>
        (cs.filtersAt i).map ActiveFilter.name) = [[[], ["team"]], [[]], [["team", "known"]]] ∧
      ∀ cs ∈ c.statements, ∀ (i : Nat) (s : Slot), cs.slots[i]? = some s →
        List.Forall₂ (fun g (a : ActiveFilter) => a.name = g.name ∧
          g.Gives (numberedScope.argsFor (c.pathOf s) g) a.filter)
          ((numberedUsers.of s.entity).filter
            (numberedScope.isOn (numberedPlanner catalog).config (c.pathOf s)))
          (cs.filtersAt i) := by
  obtain ⟨catalog, hbuild, c, hc, hnames⟩ : ∃ catalog, Catalog.build taskDecls = .ok catalog ∧
      ∃ c, (numberedPlanner catalog).compile "Task" [⟨["comments", "author"]⟩] numberedScope =
        .ok c ∧ c.statements.map (fun cs => (List.range cs.slots.length).map fun i =>
          (cs.filtersAt i).map ActiveFilter.name) = [[[], ["team"]], [[]], [["team", "known"]]] :=
    ⟨_, rfl, _, rfl, rfl⟩
  have hparse : ["comments.author"].mapM RelationPath.parse = .ok [⟨["comments", "author"]⟩] := rfl
  have hconfig : (Assoc.keys (numberedPlanner catalog).config.filters).Nodup := by
    simp [numberedPlanner]
  have hmaps : numberedScope.HasMaps := by
    refine ⟨Overrides.isMap_empty.withArgs _ _, fun e he => ?_⟩
    obtain rfl := List.mem_singleton.1 he
    exact (Overrides.isMap_empty.set _ _).withArgs _ _
  exact ⟨catalog, c, hbuild, hc, hnames, fun cs hcs i s hs =>
    ((filters_of_compile hparse hconfig hmaps hc).2 cs hcs).2.2.2 i s hs |>.2.1⟩

end Planner

end EntityFetch
