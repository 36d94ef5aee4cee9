import EntityFetch.Proofs.Layers

/-!
# Merging layers

Layers of overrides are merged two by two, and not always in the same grouping: a planner puts
the overrides of a call over those of its configuration once, and those for a path over the
result wherever the path is read. The result is the same for every grouping, to the order of the
filters and of their arguments (`Overrides.merged_assoc`), and overrides that say nothing may be
left out.

What some layers amount to (`Overrides.ofLayers`) is said filter by filter: whether a filter
applies is up to the last layer that names it, and the value of an argument to the last layer
that gives one (`Overrides.lastSaid`). So a layer that only switches a filter takes no arguments
from it.

* `Overrides.merged_layers`: the laws of merging, and what is said by the result.
-/

namespace EntityFetch

namespace Setting

/-- The arguments of three settings are put over each other in any grouping. -/
theorem merged_assoc (s : Setting) {t : Setting} (h : (Assoc.keys t.args).Nodup) (u : Setting) :
    (s.merged t).merged u = s.merged (t.merged u) :=
  congrArg (Setting.mk u.enabled) (Assoc.extend_extend s.args h u.args).symm

theorem blank_merged {s : Setting} (h : (Assoc.keys s.args).Nodup) :
    ({} : Setting).merged s = s :=
  congrArg (Setting.mk s.enabled) (Assoc.extend_nil_left h)

end Setting

namespace Overrides

variable {a b : Overrides} {layers : List Overrides}

theorem eq_of_settings (h : a.settings = b.settings) : a = b := by
  cases a
  cases b
  exact congrArg _ h

/-- Of three layers either two may be merged first. -/
theorem merged_assoc (a : Overrides) (hb : b.IsMap) (c : Overrides) :
    (a.merged b).merged c = a.merged (b.merged c) := by
  refine eq_of_settings ?_
  simp only [settings_merged]
  -- What is said of one filter is merged in any grouping, as long as the arguments that the
  -- middle layer gives are a map.
  refine (Assoc.mergeWith_mergeWith (P := fun s => (Assoc.keys s.args).Nodup) ?_ ?_ ?_ a.settings
    hb.keys_nodup (fun name s hs => hb.args_nodup name s hs) c.settings).symm
  · intro s old hold
    refine Assoc.nodup_keys_extend ?_ s.args
    cases old with
    | none => exact List.nodup_nil
    | some t => exact hold t rfl
  · intro s old
    exact (Setting.merged_assoc (old.getD {}) (t := {}) List.nodup_nil s).symm
  · intro s t ht old
    exact (Setting.merged_assoc (old.getD {}) ht s).symm

/-- Over overrides that say nothing a layer is what it was. -/
theorem empty_merged (ha : a.IsMap) : Overrides.empty.merged a = a := by
  refine eq_of_settings ?_
  rw [settings_merged, Assoc.mergeWith_eq_append (by simpa [empty] using ha.keys_nodup)]
  refine (List.map_congr_left fun e he => ?_).trans (List.map_id a.settings)
  have hargs := ha.args_nodup e.1 e.2 (Assoc.lookup_of_mem ha.keys_nodup he)
  exact congrArg (Prod.mk e.1) (Setting.blank_merged hargs)

@[simp]
theorem merged_empty (a : Overrides) : a.merged .empty = a := rfl

/-- A layer that switches a filter and gives it no arguments leaves it those it has. -/
theorem get?_merged_of_blank (hb : b.IsMap) {name : String} {enabled : Bool}
    (h : b.get? name = some { enabled }) (a : Overrides) :
    (a.merged b).get? name = some { enabled, args := a.args name } := by
  rw [get?_merged hb, h, args]
  cases a.get? name <;> rfl

/-! ### Any number of layers -/

/-- The overrides to which some layers amount, the lowest of which comes first. -/
def ofLayers (layers : List Overrides) : Overrides :=
  layers.foldl merged empty

/-- What is said by the last of some layers that says anything. -/
def lastSaid {α : Type} (say : Overrides → Option α) (layers : List Overrides) : Option α :=
  layers.reverse.findSome? say

theorem ofLayers_concat (layers : List Overrides) (a : Overrides) :
    ofLayers (layers ++ [a]) = (ofLayers layers).merged a :=
  List.foldl_concat ..

theorem lastSaid_concat {α : Type} (say : Overrides → Option α) (layers : List Overrides)
    (a : Overrides) : lastSaid say (layers ++ [a]) = (say a).or (lastSaid say layers) := by
  rw [lastSaid, List.reverse_concat, List.findSome?_cons]
  cases say a <;> rfl

theorem isMap_ofLayers (h : ∀ o ∈ layers, o.IsMap) : (ofLayers layers).IsMap :=
  foldl_induct (fun _ (o : Overrides) => o.IsMap) isMap_empty fun _ o _ ho hrest =>
    hrest.merged (h o ho)

/-- Layers over some overrides may be merged with each other first. -/
theorem foldl_merged (h : ∀ o ∈ layers, o.IsMap) (a : Overrides) :
    layers.foldl merged a = a.merged (ofLayers layers) := by
  induction layers using List.reverseRecOn with
  | nil => rfl
  | append_singleton layers b ih =>
    have hbelow := fun o ho => h o (List.mem_append_left _ ho)
    rw [List.foldl_concat, ih hbelow, ofLayers_concat, merged_assoc a (isMap_ofLayers hbelow)]

theorem ofLayers_append {below above : List Overrides} (h : ∀ o ∈ above, o.IsMap) :
    ofLayers (below ++ above) = (ofLayers below).merged (ofLayers above) := by
  rw [ofLayers, List.foldl_append, foldl_merged h]
  rfl

/-- Layers may be merged in groups, and then the groups. -/
theorem ofLayers_map_ofLayers {groups : List (List Overrides)}
    (h : ∀ layers ∈ groups, ∀ o ∈ layers, o.IsMap) :
    ofLayers (groups.map ofLayers) = ofLayers groups.flatten := by
  induction groups using List.reverseRecOn with
  | nil => rfl
  | append_singleton groups layers ih =>
    have hlast := h layers (List.mem_append_right _ (List.mem_singleton_self layers))
    rw [List.map_append, List.map_singleton, ofLayers_concat,
      ih fun layers hlayers => h layers (List.mem_append_left _ hlayers), List.flatten_append,
      List.flatten_singleton, ofLayers_append hlast]

/-- What a higher layer says instead of a lower one, the last of some layers says instead of
    all. -/
theorem said_ofLayers {α : Type} (say : Overrides → Option α) (hempty : say .empty = none)
    (hmerged : ∀ lower higher : Overrides, higher.IsMap →
      say (lower.merged higher) = (say higher).or (say lower))
    (h : ∀ o ∈ layers, o.IsMap) : say (ofLayers layers) = lastSaid say layers := by
  induction layers using List.reverseRecOn with
  | nil => exact hempty
  | append_singleton layers a ih =>
    rw [ofLayers_concat, lastSaid_concat,
      hmerged _ _ (h a (List.mem_append_right _ (List.mem_singleton_self a))),
      ih fun o ho => h o (List.mem_append_left _ ho)]

theorem enabled?_ofLayers (h : ∀ o ∈ layers, o.IsMap) (name : String) :
    (ofLayers layers).enabled? name = lastSaid (enabled? · name) layers :=
  said_ofLayers (enabled? · name) rfl (fun _ _ => enabled?_merged) h

theorem lookup_args_ofLayers (h : ∀ o ∈ layers, o.IsMap) (name key : String) :
    ((ofLayers layers).args name).lookup key =
      lastSaid (fun o => (o.args name).lookup key) layers := by
  refine said_ofLayers (fun o => (o.args name).lookup key) rfl ?_ h
  intro lower higher hhigher
  rw [args_merged hhigher, Assoc.lookup_extend (hhigher.nodup_args name)]

end Overrides

/-! ### The layers at a path -/

/-- What is said at a path is said in three layers, the upper two of which may be merged
    first. -/
theorem Planner.overridesFor_layered {p : Planner} {scope : QueryScope} (h : scope.HasMaps)
    (path : String) :
    (p.layered scope).overridesFor path =
        .ofLayers [p.config.filterDefaults, scope.filters, scope.atPath path] ∧
      (p.layered scope).overridesFor path =
        p.config.filterDefaults.merged (scope.overridesFor path) := by
  have hlayered : (p.layered scope).overridesFor path =
      (p.config.filterDefaults.merged scope.filters).merged (scope.atPath path) :=
    (p.layered scope).overridesFor_eq path
  rw [hlayered]
  constructor
  · change _ = ((Overrides.empty.merged _).merged _).merged _
    rw [Overrides.empty_merged p.config.isMap_filterDefaults]
  · rw [scope.overridesFor_eq, Overrides.merged_assoc _ h.filters]

namespace Overrides

/-- Overrides are merged in any grouping, to the order of filters and arguments, and empty ones
    may be left out. However many layers there are, a filter is switched as by the last layer
    that names it, and an argument has the value that the last layer that gives one gives it; a
    layer that only switches a filter leaves it its arguments. So it is for the three layers of
    a fetch. -/
theorem merged_layers {a b : Overrides} (ha : a.IsMap) (hb : b.IsMap) (c : Overrides) :
    (a.merged b).merged c = a.merged (b.merged c) ∧
    Overrides.empty.merged a = a ∧ a.merged .empty = a ∧
    (∀ name enabled, b.get? name = some { enabled } →
      (a.merged b).get? name = some { enabled, args := a.args name }) ∧
    (∀ layers : List Overrides, (∀ o ∈ layers, o.IsMap) →
      (∀ name, (ofLayers layers).enabled? name = lastSaid (enabled? · name) layers ∧
        ∀ key, ((ofLayers layers).args name).lookup key =
          lastSaid (fun o => (o.args name).lookup key) layers) ∧
      ∀ groups : List (List Overrides), groups.flatten = layers →
        ofLayers (groups.map ofLayers) = ofLayers layers) ∧
    ∀ (p : Planner) (scope : QueryScope), scope.HasMaps → ∀ path,
      (p.layered scope).overridesFor path =
        ofLayers [p.config.filterDefaults, scope.filters, scope.atPath path] ∧
      (p.layered scope).overridesFor path =
        p.config.filterDefaults.merged (scope.overridesFor path) := by
  refine ⟨merged_assoc a hb c, empty_merged ha, merged_empty a,
    fun name enabled h => get?_merged_of_blank hb h a, fun layers h => ⟨fun name => ⟨?_, ?_⟩, ?_⟩,
    fun p scope h path => Planner.overridesFor_layered h path⟩
  · exact enabled?_ofLayers h name
  · exact lookup_args_ofLayers h name
  · rintro groups rfl
    exact ofLayers_map_ofLayers fun layers hlayers o ho =>
      h o (List.mem_flatten.2 ⟨layers, hlayers, ho⟩)

/-- Users of a team, unless the filter is switched off in between. It is on again in the last
    layer, with the team of the first one and a number of its own. -/
theorem merged_layers_team :
    ∃ a b c : Overrides, a.IsMap ∧ b.IsMap ∧
      a.settings = [("team", { enabled := true, args := [("team", .int 7)] })] ∧
      b.settings = [("known", { enabled := true }), ("team", { enabled := false })] ∧
      c.settings = [("team", { enabled := true, args := [("least", .int 5)] })] ∧
      (a.merged (b.merged c)).settings =
        [("team", { enabled := true, args := [("team", .int 7), ("least", .int 5)] }),
         ("known", { enabled := true })] ∧
      (a.merged b).merged c = a.merged (b.merged c) ∧
      (a.merged b).get? "team" = some { enabled := false, args := [("team", .int 7)] } := by
  have ha : (Overrides.empty.withArgs "team" [("team", .int 7)]).IsMap := isMap_empty.withArgs _ _
  have hb : ((Overrides.empty.enable "known").disable "team").IsMap :=
    (isMap_empty.set _ _).set _ _
  obtain ⟨hassoc, -, -, hblank, -⟩ :=
    merged_layers ha hb (Overrides.empty.withArgs "team" [("least", .int 5)])
  exact ⟨_, _, Overrides.empty.withArgs "team" [("least", .int 5)], ha, hb, rfl, rfl, rfl, rfl,
    hassoc, hblank "team" false rfl⟩

end Overrides

end EntityFetch
