import EntityFetch.Proofs.Bounds
import EntityFetch.Proofs.Layers
import Mathlib.Data.List.DropRight

/-!
# Spelled paths

A path that is asked for may have blanks around its names, which do not count. Overrides for a path
are kept by the text that was given, and looked up by the text of a relation, which has no such
blanks. So one path may be spelled in several ways, of which only one is found.

* `RelationPath.eq_text_iff`: which texts are the text of their path.
* `CompiledPlan.IsPrepared.appliesAt`: what is asked for is loaded, with the filters for the
  overrides that are found by its text.
* `Compiler.compile_congr`: statements depend on overrides only through what is found at the root
  and at the relations of the plan.
* `Planner.prepare_spelled`: overrides that are kept by the text that is asked for apply if this is
  the text of its path, and else are lost.
-/

namespace EntityFetch

/-! ### Spelling -/

theorem Text.trimChars_trimChars (cs : List Char) : trimChars (trimChars cs) = trimChars cs := by
  have htrim (cs : List Char) :
      trimChars cs = (cs.dropWhile isBlank).rdropWhile isBlank := rfl
  have hkept := List.rdropWhile_prefix isBlank (cs.dropWhile isBlank)
  have hstart : (trimChars cs).dropWhile isBlank = trimChars cs := by
    rw [List.dropWhile_eq_self_iff, htrim]
    intro hlt
    rw [hkept.getElem hlt]
    exact List.dropWhile_get_zero_not isBlank cs _
  rw [htrim (trimChars cs), hstart, htrim, List.rdropWhile_idempotent]

theorem Text.trim_trim (s : String) : trim (trim s) = trim s := by
  rw [trim, trim, String.toList_ofList, trimChars_trimChars]

namespace RelationPath

variable {s : String} {path : RelationPath}

theorem parse_eq_ok (h : parse s = .ok path) :
    path.segments = (Text.split '.' s).map Text.trim ∧ ∀ n ∈ path.segments, n ≠ "" := by
  simp only [parse] at h
  split at h
  · cases h
  · next hempty =>
    obtain rfl := Except.ok.inj h
    refine ⟨rfl, fun n hn hnil => hempty ?_⟩
    exact List.any_eq_true.2 ⟨n, hn, hnil ▸ rfl⟩

theorem segments_ne_nil (h : parse s = .ok path) : path.segments ≠ [] := by
  rw [(parse_eq_ok h).1]
  exact fun hnil => split_ne_nil s (List.map_eq_nil_iff.1 hnil)

/-- What is parsed are names that a path can hold. -/
theorem isSegment_of_parse (h : parse s = .ok path) : ∀ n ∈ path.segments, IsSegment n := by
  obtain ⟨hsegments, hne⟩ := parse_eq_ok h
  refine fun n hn => ⟨hne n hn, isDotFree_of_parse h n hn, ?_⟩
  rw [hsegments] at hn
  obtain ⟨part, -, rfl⟩ := List.mem_map.1 hn
  exact Text.trim_trim part

/-- However a path is spelled, it is parsed back from its own text. -/
theorem parse_text (h : parse s = .ok path) : parse path.text = .ok path :=
  (parse_dotted_iff (segments_ne_nil h)).2 (isSegment_of_parse h)

/-- The text of a path has no blanks around its names. -/
theorem eq_text_iff (h : parse s = .ok path) :
    s = path.text ↔ ∀ part ∈ Text.split '.' s, Text.trim part = part := by
  have hsegments := (parse_eq_ok h).1
  constructor
  · intro heq part hpart
    rw [heq, text, split_dotted (segments_ne_nil h) (isDotFree_of_parse h)] at hpart
    exact (isSegment_of_parse h part hpart).2.2
  · intro htrim
    rw [text, hsegments, List.map_congr_left htrim, List.map_id', dotted_split]

end RelationPath

/-- What holds of all names of relations holds of the names on the way to a relation. -/
theorem LoadPlan.IsSelected.forall_names {c : Catalog} {plan : LoadPlan} {root : Entity}
    {P : String → Prop} (h : plan.IsSelected c root)
    (hnames : ∀ e ∈ c.entities, ∀ r ∈ e.relations, P r.name) :
    ∀ r ∈ plan.relations, ∀ n ∈ r.node.names, P n := by
  have hnodes := h.tree.forall_names (P := P) fun m hm => by
    obtain ⟨parent, hchild⟩ := h.tree.child m hm
    obtain ⟨e, hstart, hedge⟩ := hchild.relation
    exact hnames e (h.mem_entities hstart) _ hedge
  exact fun r hr => hnodes r.node (List.mem_map_of_mem hr)

/-! ### What statements depend on -/

theorem QueryScope.overridesFor_of_single (scope : QueryScope) {s : String} {o : Overrides}
    (h : scope.populateFilters = [(s, o)]) (path : String) :
    scope.overridesFor path = if s = path then scope.filters.merged o else scope.filters := by
  rw [overridesFor, h, List.lookup_cons, List.lookup_nil]
  by_cases hpath : s = path
  · rw [if_pos hpath, beq_iff_eq.2 hpath.symm]
  · rw [if_neg hpath, beq_eq_false_iff_ne.2 (Ne.symm hpath)]

namespace Compiler

variable {k : Compiler} {plan : LoadPlan} {scope scope' : QueryScope}

theorem activeAt_congr {path : String} (h : scope.overridesFor path = scope'.overridesFor path)
    (e : Entity) : k.activeAt scope e path = k.activeAt scope' e path := by
  rw [activeAt, activeAt, h]

theorem addJoin_congr {r : PlannedRelation}
    (h : scope.overridesFor r.path = scope'.overridesFor r.path) (group : LoadGroup) (d : Draft) :
    k.addJoin scope group d r = k.addJoin scope' group d r := by
  simp only [addJoin, activeAt_congr h]

theorem compileBelow_congr {group : LoadGroup} {path : String}
    (hpath : scope.overridesFor path = scope'.overridesFor path)
    (hpaths : ∀ r ∈ plan.relations, scope.overridesFor r.path = scope'.overridesFor r.path)
    (e : Entity) (aliasName : String) (pool : AliasPool) (predicates : List Predicate)
    (orderBy : List OrderBy) (limit offset : Option Nat) :
    k.compileBelow plan scope group e path aliasName pool predicates orderBy limit offset =
      k.compileBelow plan scope' group e path aliasName pool predicates orderBy limit offset := by
  unfold compileBelow
  rw [activeAt_congr hpath]
  refine bind_congr_ok fun active _ => bind_congr_ok fun joined hjoined => ?_
  have hfold := foldlM_congr (f := k.addJoin scope group) (g := k.addJoin scope' group)
    fun r hr d => by
      obtain ⟨id, -, hid⟩ := exists_mem_of_mapM_eq_ok hjoined hr
      exact addJoin_congr (hpaths r (List.mem_of_getElem? (planned_eq_ok hid))) group d
  simp only [hfold]

/-- Scopes that differ in the overrides for paths give the same statements, if they agree on the
    root and on all relations of the plan. -/
theorem compile_congr (scope : QueryScope) (paths : List (String × Overrides))
    (hroot : { scope with populateFilters := paths }.overridesFor "" = scope.overridesFor "")
    (hpaths : ∀ r ∈ plan.relations,
      { scope with populateFilters := paths }.overridesFor r.path = scope.overridesFor r.path) :
    k.compile plan { scope with populateFilters := paths } = k.compile plan scope := by
  have hgroup (group : LoadGroup) :
      k.compileGroup plan { scope with populateFilters := paths } group =
        k.compileGroup plan scope group := by
    unfold compileGroup
    refine bind_congr_ok fun root hplanned => bind_congr_ok fun e _ =>
      bind_congr_ok fun ⟨aliasName, pool⟩ _ => ?_
    rcases root with _ | r
    · exact bind_congr_ok fun ⟨predicates, orderBy, limit, offset⟩ _ =>
        compileBelow_congr hroot hpaths e aliasName pool predicates orderBy limit offset
    · have hr : r ∈ plan.relations := by
        obtain ⟨id, -, hid⟩ := Option.bind_eq_some_iff.1 (Reading.root_of_mapM hplanned).1.symm
        exact List.mem_of_getElem? hid
      exact compileBelow_congr (hpaths r hr) hpaths e aliasName pool _ _ _ _
  rw [compile, compile, mapM_congr fun group _ => hgroup group]

end Compiler

/-! ### What applies at a path -/

namespace CompiledPlan

/-- The relation at a path is loaded, and wherever it is read, the filters are those for some
    overrides. -/
structure AppliesAt (c : CompiledPlan) (filters : GlobalFilters) (path : String) (o : Overrides) :
    Prop where
  loaded : ∃ cs ∈ c.statements, ∃ s ∈ cs.slots, c.pathOf s = path
  active : ∀ cs ∈ c.statements, ∀ (i : Nat) (s : Slot), cs.slots[i]? = some s →
    c.pathOf s = path → filters.active s.entity o = .ok (cs.filtersAt i)

namespace IsPrepared

variable {p : Planner} {req : FetchRequest} {root : Entity} {c : CompiledPlan}

/-- Every relation of the plan is read at a slot. -/
theorem exists_slot (h : c.IsPrepared p req root) {r : PlannedRelation}
    (hr : r ∈ c.plan.relations) :
    ∃ cs ∈ c.statements, ∃ s ∈ cs.slots, c.relationOf s = some r := by
  have hlt : r.group < c.statements.length := h.length_eq ▸ h.selected.isGrouped.group_lt r hr
  have hcs : c.statement? r.group = some c.statements[r.group] := List.getElem?_eq_getElem hlt
  obtain ⟨R, hgroup, hsound, heq⟩ := h.reading r.group _ hcs
  refine ⟨_, List.getElem_mem hlt, ?_⟩
  rw [heq]
  cases hstrategy : r.strategy with
  | joined =>
    obtain ⟨j, hj, rfl⟩ := hsound.exists_joint h.selected hgroup hr hstrategy rfl
    refine ⟨j.slot, List.mem_cons_of_mem _ (List.mem_map_of_mem hj), ?_⟩
    exact h.selected.isGrouped.getElem?_id hr
  | selectIn =>
    have hroot := h.selected.isGrouped.root_of_selectIn r hr hstrategy
    rw [hgroup, Option.bind_some] at hroot
    refine ⟨R.rootSlot, List.mem_cons_self, ?_⟩
    rw [relationOf, Reading.rootSlot, hroot]
    exact h.selected.isGrouped.getElem?_id hr

/-- At every relation of the plan there are the filters for what is found by its text. -/
theorem appliesAt (h : c.IsPrepared p req root) {r : PlannedRelation}
    (hr : r ∈ c.plan.relations) :
    c.AppliesAt p.filters r.path ((p.layered req.scope).overridesFor r.path) where
  loaded := by
    obtain ⟨cs, hcs, s, hs, hrelation⟩ := h.exists_slot hr
    exact ⟨cs, hcs, s, hs, by rw [pathOf, hrelation]; rfl⟩
  active := by
    intro cs hcs i s hs hpath
    obtain ⟨n, hn⟩ := List.mem_iff_getElem?.1 hcs
    obtain ⟨R, -, hsound, rfl⟩ := h.reading n cs hn
    obtain ⟨e, -, hname, hactive⟩ := h.active_at hsound hs
    rw [R.filtersAt_compiled, hname, ← hpath]
    exact hactive

end IsPrepared

end CompiledPlan

/-! ### Requests that spell a path -/

namespace FetchRequest

/-- The request with some overrides for paths instead of others. -/
def overriding (q : FetchRequest) (paths : List (String × Overrides)) : FetchRequest :=
  { q with scope := { q.scope with populateFilters := paths } }

/-- The request with a path spelled in another way, both where it is asked for and where it has
    overrides. -/
def respelled (q : FetchRequest) (s t : String) (o : Overrides) : FetchRequest :=
  { q with populate := q.populate.map fun u => if u = s then t else u }.overriding [(t, o)]

theorem respelled_self {q : FetchRequest} {s : String} {o : Overrides}
    (h : q.scope.populateFilters = [(s, o)]) : q.respelled s s o = q := by
  have hmap : (q.populate.map fun u => if u = s then s else u) = q.populate := by
    have hid (u : String) : (if u = s then s else u) = u := by
      split
      · next hu => exact hu.symm
      · rfl
    simp only [hid, List.map_id']
  rw [respelled, overriding, hmap, ← h]

end FetchRequest

namespace Planner

variable {p : Planner} {q : FetchRequest} {s t : String} {o : Overrides} {path : RelationPath}
  {c : CompiledPlan}

/-- What is asked for is loaded, with the overrides that are found by its text. -/
theorem appliesAt_of_prepare (hparse : RelationPath.parse s = .ok path) (hs : s ∈ q.populate)
    (hfilters : q.scope.populateFilters = [(t, o)]) (h : p.prepare q = .ok c) :
    c.AppliesAt p.filters path.text (if t = path.text then
      (p.layered q.scope).filters.merged o else (p.layered q.scope).filters) := by
  obtain ⟨e, hprepared⟩ := isPrepared_of_prepare h
  obtain ⟨r, hr, hnames⟩ := exists_of_step h hs hparse (RelationPath.segments_ne_nil hparse)
    List.prefix_rfl
  have hpath : r.path = path.text := congrArg dotted hnames
  have happlies := hprepared.appliesAt hr
  rw [hpath, QueryScope.overridesFor_of_single (p.layered q.scope) hfilters] at happlies
  exact happlies

/-- Where a path can hold all names of relations, overrides that are kept by any other text than
    that of a path are never found. -/
theorem prepare_of_ne (hnames : ∀ e ∈ p.catalog.entities, ∀ r ∈ e.relations, IsSegment r.name)
    (hparse : RelationPath.parse s = .ok path) (hne : s ≠ path.text)
    (hfilters : q.scope.populateFilters = [(s, o)]) :
    p.prepare q = p.prepare (q.overriding []) := by
  unfold prepare
  refine bind_congr_ok fun paths hpaths => ?_
  unfold compile
  refine bind_congr_ok fun plan hplan => ?_
  obtain ⟨root, hsel⟩ := isSelected_of_plan hpaths hplan
  have hfound (text : String) (htext : s ≠ text) :
      (p.layered q.scope).overridesFor text = (p.layered q.scope).filters := by
    rw [QueryScope.overridesFor_of_single (p.layered q.scope) hfilters, if_neg htext]
  have hroot : s ≠ "" := by
    rintro rfl
    cases hparse
  have hrelation : ∀ r ∈ plan.relations, s ≠ r.path := by
    rintro r hr rfl
    have hback : RelationPath.parse r.path = .ok ⟨r.node.names⟩ :=
      (RelationPath.parse_dotted_iff r.node.names_ne_nil).2 (hsel.forall_names hnames r hr)
    exact hne (Except.ok.inj (hback.symm.trans hparse) ▸ rfl)
  exact (Compiler.compile_congr (p.layered q.scope) [] (hfound "" hroot).symm
    fun r hr => (hfound r.path (hrelation r hr)).symm).symm

/-- A path is asked for by a text, and the same text has overrides. The relation of the path is
    loaded, however it is spelled; but the overrides apply there only if the text has no blanks
    around its names, as they do with the text of the path in its place. With blanks they are lost:
    the request comes to the same without them. -/
theorem prepare_spelled (hparse : RelationPath.parse s = .ok path) (hs : s ∈ q.populate)
    (hfilters : q.scope.populateFilters = [(s, o)]) :
    (s = path.text ↔ ∀ part ∈ Text.split '.' s, Text.trim part = part) ∧
    (∀ c, p.prepare q = .ok c → c.AppliesAt p.filters path.text (if s = path.text then
      (p.layered q.scope).filters.merged o else (p.layered q.scope).filters)) ∧
    (∀ c, p.prepare (q.respelled s path.text o) = .ok c →
      c.AppliesAt p.filters path.text ((p.layered q.scope).filters.merged o)) ∧
    ((∀ e ∈ p.catalog.entities, ∀ r ∈ e.relations, IsSegment r.name) →
      p.prepare q = p.prepare
        (if s = path.text then q.respelled s path.text o else q.overriding [])) := by
  refine ⟨RelationPath.eq_text_iff hparse, fun c => appliesAt_of_prepare hparse hs hfilters,
    fun c h => ?_, fun hnames => ?_⟩
  · have hmem : path.text ∈ (q.respelled s path.text o).populate :=
      List.mem_map.2 ⟨s, hs, if_pos rfl⟩
    have happlies := appliesAt_of_prepare (RelationPath.parse_text hparse) hmem rfl h
    rw [if_pos rfl] at happlies
    exact happlies
  · split
    · next heq => rw [← heq, FetchRequest.respelled_self hfilters]
    · next hne => exact prepare_of_ne hnames hparse hne hfilters

end Planner

/-! ### Authors of comments -/

/-- Tasks with the authors of their comments, of which only those with a number are wanted. -/
def authorRequest (s : String) : FetchRequest :=
  { root := "Task", populate := [s]
    scope := { populateFilters := [(s, Overrides.empty.enable "known")] } }

/-- The names of the filters at the slots of the statements. -/
def CompiledPlan.filterNames (c : CompiledPlan) : List (List (List String)) :=
  c.statements.map fun cs => (List.range cs.slots.length).map fun i =>
    (cs.filtersAt i).map ActiveFilter.name

namespace Planner

/-- The authors are loaded with a blank before their path too, but then without the filter. -/
theorem prepare_spelled_tasks :
    ∃ catalog c c', Catalog.build taskDecls = .ok catalog ∧
      (numberedPlanner catalog).prepare (authorRequest " comments.author") = .ok c ∧
      (numberedPlanner catalog).prepare (authorRequest "comments.author") = .ok c' ∧
      c.filterNames = [[[], []], [[]], [[]]] ∧ c'.filterNames = [[[], []], [[]], [["known"]]] ∧
      c.AppliesAt numberedUsers "comments.author"
        ((numberedPlanner catalog).layered (authorRequest " comments.author").scope).filters ∧
      c'.AppliesAt numberedUsers "comments.author"
        (((numberedPlanner catalog).layered (authorRequest " comments.author").scope).filters.merged
          (Overrides.empty.enable "known")) := by
  obtain ⟨catalog, hbuild, c, hc, c', hc', hnames, hnames'⟩ :
      ∃ catalog, Catalog.build taskDecls = .ok catalog ∧
      ∃ c, (numberedPlanner catalog).prepare (authorRequest " comments.author") = .ok c ∧
      ∃ c', (numberedPlanner catalog).prepare (authorRequest "comments.author") = .ok c' ∧
        c.filterNames = [[[], []], [[]], [[]]] ∧ c'.filterNames = [[[], []], [[]], [["known"]]] :=
    ⟨_, rfl, _, rfl, _, rfl, rfl, rfl⟩
  have hparse : RelationPath.parse " comments.author" = .ok ⟨["comments", "author"]⟩ := rfl
  obtain ⟨-, hfound, hrespelled, -⟩ := prepare_spelled (p := numberedPlanner catalog)
    (q := authorRequest " comments.author") hparse List.mem_cons_self rfl
  have happlies := hfound c hc
  rw [if_neg (by decide)] at happlies
  exact ⟨catalog, c, c', hbuild, hc, hc', hnames, hnames', happlies, hrespelled c' hc'⟩

/-- With a blank before the path, the filter does not apply to the authors. -/
theorem lost_overrides_tasks :
    ∃ catalog c, Catalog.build taskDecls = .ok catalog ∧
      RelationPath.parse " comments.author" = .ok ⟨["comments", "author"]⟩ ∧
      (numberedPlanner catalog).prepare (authorRequest " comments.author") = .ok c ∧
      ¬c.AppliesAt numberedUsers "comments.author"
        (((numberedPlanner catalog).layered (authorRequest " comments.author").scope).filters.merged
          (Overrides.empty.enable "known")) := by
  obtain ⟨catalog, hbuild, c, hc, cs, hcs, s, hs, hpath, hactive, hnone⟩ :
      ∃ catalog, Catalog.build taskDecls = .ok catalog ∧
      ∃ c, (numberedPlanner catalog).prepare (authorRequest " comments.author") = .ok c ∧
      ∃ cs, c.statements[2]? = some cs ∧ ∃ s, cs.slots[0]? = some s ∧
        c.pathOf s = "comments.author" ∧
        (numberedUsers.active s.entity
          (((numberedPlanner catalog).layered
            (authorRequest " comments.author").scope).filters.merged
              (Overrides.empty.enable "known"))).map (List.map ActiveFilter.name) =
          .ok ["known"] ∧
        cs.filtersAt 0 = [] := ⟨_, rfl, _, rfl, _, rfl, _, rfl, rfl, rfl, rfl⟩
  refine ⟨catalog, c, hbuild, rfl, hc, fun happlies => ?_⟩
  rw [happlies.active cs (List.mem_of_getElem? hcs) 0 s hs hpath, hnone] at hactive
  cases hactive

end Planner

end EntityFetch
