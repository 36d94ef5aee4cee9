import EntityFetch.Proofs.Contract
import EntityFetch.Proofs.Dispatch
import EntityFetch.Proofs.Meaning
import EntityFetch.Proofs.Partition
import EntityFetch.Proofs.Shape

/-!
# Waves that fail

All statements of a wave are answered before any of its groups is attached, and attaching
cannot fail on rows that carry what is read. So when following up ends with an error, the
roots are those after the last wave that was answered (`CompiledPlan.Stops`), whatever they
were at the start, and no relation of the wave or of a later one is found at its owners
unless it was there before (`CompiledPlan.IsPrepared.isAccounted_of_runWaves`).
-/

namespace EntityFetch

/-- Whether a relation is loaded. -/
def Record.HasRelation (r : Record) (name : String) : Prop :=
  ∃ rel, r.relation? name = some rel

namespace Record

variable {r r' : Record} {name name' : String}

theorem hasRelation_iff : r.HasRelation name ↔ ∃ k, (name, k) ∈ r.kinds := by
  constructor
  · rintro ⟨rel, hrel⟩
    obtain ⟨e, he, rfl⟩ : ∃ e ∈ r.relations, e.1 = name := by
      by_contra hnone
      refine absurd (hrel.symm.trans (Assoc.lookup_eq_none_iff.2 fun hmem => hnone ?_)) nofun
      exact List.mem_map.1 hmem
    exact ⟨_, List.mem_map_of_mem (f := fun e => (e.1, e.2.cardinality)) he⟩
  · exact fun ⟨_, hk⟩ => exists_of_mem_kinds hk

theorem HasRelation.of_surface (h : r'.HasRelation name) (hsurface : r'.surface = r.surface) :
    r.HasRelation name := by
  have hkinds : r'.kinds = r.kinds := congrArg (fun s => s.2.2) hsurface
  rw [hasRelation_iff, hkinds] at h
  exact hasRelation_iff.2 h

theorem HasRelation.of_setRelation {rel : Related Record}
    (h : (r.setRelation name rel).HasRelation name') : name' = name ∨ r.HasRelation name' := by
  obtain ⟨rel', hrel⟩ := h
  rw [relation?_setRelation] at hrel
  split at hrel
  · next heq => exact .inl (beq_iff_eq.1 heq)
  · exact .inr ⟨rel', hrel⟩

end Record

namespace CompiledPlan

variable {p : Planner} {req : FetchRequest} {root : Entity} {c : CompiledPlan} {k batchSize : Nat}
  {roots rs rs' : List Record} {done : List Nat}

/-- Whether all relations of a record at a path were there at the start or have been loaded
    with some groups. -/
def IsAccounted (c : CompiledPlan) (roots : List Record) (done : List Nat) (names : List String)
    (r : Record) : Prop :=
  ∀ name, r.HasRelation name → (∃ o ∈ Record.reached names roots, o.HasRelation name) ∨
    ∃ q ∈ c.plan.relations, q.group ∈ done ∧ q.path = dotted (names ++ [name])

theorem IsAccounted.mono {names : List String} {r r' : Record}
    (h : c.IsAccounted roots done names r) (hsurface : r'.surface = r.surface) (k : Nat) :
    c.IsAccounted roots (done ++ [k]) names r' := by
  intro name hname
  rcases h name (hname.of_surface hsurface) with hstart | ⟨q, hq, hdone, hpath⟩
  · exact .inl hstart
  · exact .inr ⟨q, hq, List.mem_append_left _ hdone, hpath⟩

namespace IsPrepared

/-- The path of a relation is that of its owners and its name. -/
theorem path_eq (h : c.IsPrepared p req root) {q : PlannedRelation} (hq : q ∈ c.plan.relations) :
    q.path = dotted (c.ownerPath q ++ [q.node.relation.name]) := by
  rw [((h.spells_ownerPath hq).append_singleton q.node.relation).1]
  rfl

/-- The relations of an assembled record are those of its group. -/
theorem isAccounted_of_assembleRow (h : c.IsPrepared p req root) {R : Reading}
    (hgroup : c.plan.groups[k]? = some R.group)
    (hsound : R.IsSound p.compiler c.plan (p.layered req.scope)) {row : Row} {r : Record}
    (hr : (R.compiled (p.layered req.scope)).assembleRow row = .ok r) {names : List String}
    (hnames : Spells names (R.chainAt 0)) :
    r.Everywhere (c.IsAccounted roots (done ++ [k])) names := by
  obtain ⟨out, hzero, hout⟩ := CompiledStatement.exists_of_assembleRow
    (hsound.isLinked h.selected (List.mem_of_getElem? hgroup)) hr
  refine hsound.everywhere_of_out h.selected (fun _ _ e hspells => hspells.append_singleton e)
    (fun i t q names ht hq hnames => ?_) hzero hnames
  obtain ⟨bare, -, rfl⟩ := hout i t q ht hq
  refine ⟨fun name hname => .inr ?_, fun _ _ => Reading.mem_related_withChildren⟩
  obtain ⟨hplace, -⟩ := hsound.relationAt_mem h.selected hgroup ht
  obtain ⟨_, hkind⟩ := Record.hasRelation_iff.1 hname
  obtain ⟨m, hm, hkind⟩ := List.mem_map.1
    ((hsound.kinds_withChildren h.selected hgroup ht out bare).mem_iff.1 hkind)
  obtain ⟨rfl, -⟩ := Prod.mk.inj hkind
  obtain ⟨hbelow, hk⟩ := LoadPlan.mem_belowIn.1 hm
  refine ⟨m, (LoadPlan.mem_below.1 hbelow).1, List.mem_append_right _ hk, ?_⟩
  -- The way to the relation leads through the place of the slot.
  have hchain : m.node.ancestors = R.chainAt i :=
    h.selected.ancestors_of_mem_below hplace hbelow
  rw [(hnames.append_singleton m.node.relation).1, ← hchain]
  rfl

/-- Attaching a group adds relations of the group only. -/
theorem isAccounted_of_attach (h : c.IsPrepared p req root) {rows : List Row}
    (hrs : ∀ r ∈ rs, r.Everywhere (c.IsAccounted roots done) [])
    (hattach : c.attach rs k rows = .ok rs') :
    ∀ r ∈ rs', r.Everywhere (c.IsAccounted roots (done ++ [k])) [] := by
  rw [attach] at hattach
  split at hattach
  case h_2 =>
    obtain rfl := pure_eq_ok.1 hattach
    exact fun r hr => (hrs r hr).imp fun _ _ hq => hq.mono rfl k
  case h_1 q cs hq hcs =>
  obtain ⟨records, hrecords, hattach⟩ := bind_eq_ok.1 hattach
  obtain rfl := pure_eq_ok.1 hattach
  obtain ⟨R, hgroup, hsound, rfl⟩ := h.reading k cs hcs
  have hroot := root_of_group hq hgroup hsound
  have hqmem := mem_of_groupRoot? hq
  have hqgroup := h.group_of_groupRoot? hq
  -- The records of the group have what their statement joins to them.
  have hfound : ∀ r ∈ records, r.Everywhere (c.IsAccounted roots (done ++ [k]))
      (c.ownerPath q ++ [q.node.relation.name]) := by
    intro r hr
    obtain ⟨row, -, hassemble⟩ := CompiledStatement.exists_of_mem_assemble hrecords hr
    refine h.isAccounted_of_assembleRow hgroup hsound hassemble ?_
    rw [Reading.chainAt_root hroot]
    exact (h.spells_ownerPath hqmem).append_singleton q.node.relation
  intro r' hr'
  obtain ⟨r, hr, rfl⟩ := List.mem_map.1 hr'
  refine (hrs r hr).of_updateAt (fun _ _ _ _ hsurface hq => hq.mono hsurface k) fun o ho => ?_
  refine ho.of_setRelation (fun _ _ _ hq => hq.mono rfl k) (fun name hname => ?_)
    fun r' hr' => hfound r' (mem_of_mem_relatedTo hr')
  rcases hname.of_setRelation with rfl | hname
  · exact .inr ⟨q, hqmem, List.mem_append_right _ (List.mem_singleton.2 hqgroup), h.path_eq hqmem⟩
  · exact (Record.everywhere_iff.1 ho).1.mono rfl k name hname

variable {σ : Type} {x : Executor σ} {inv : σ → Prop} {state state' : σ} {e : QueryError}

/-- After some waves a relation is found where it was at the start, or it is one of theirs. -/
theorem isAccounted_of_runWaves (h : c.IsPrepared p req root) {waves : List (List Nat)}
    (hrun : (c.runWaves x batchSize waves roots state).1 = (rs, none)) :
    ∀ r ∈ rs, r.Everywhere (c.IsAccounted roots waves.flatten) [] := by
  refine runWaves_induct (I := fun _ => True) (G := fun _ _ => True)
    (P := fun done rs => ∀ r ∈ rs, r.Everywhere (c.IsAccounted roots done) [])
    (fun _ _ _ _ _ _ _ _ hrs hattach => h.isAccounted_of_attach hrs hattach)
    (fun _ _ _ _ _ _ _ => ⟨trivial, fun _ _ _ => trivial⟩) (List.nil_append _) trivial
    (fun r hr names q hq name hname => .inl ⟨q, Record.mem_reached.2 ⟨r, hr, hq⟩, hname⟩) hrun

/-- A relation of a group that is not attached is found where it was at the start only. -/
theorem exists_of_hasRelation (h : c.IsPrepared p req root) {waves rest : List (List Nat)}
    (hwaves : c.plan.waves = waves ++ rest)
    (hrun : (c.runWaves x batchSize waves roots state).1 = (rs, none)) {q : PlannedRelation}
    (hq : q ∈ c.plan.relations) (hgroup : q.group ∈ rest.flatten) {o : Record}
    (ho : o ∈ Record.reached (c.ownerPath q) rs) (hrel : o.HasRelation q.node.relation.name) :
    ∃ o' ∈ Record.reached (c.ownerPath q) roots, o'.HasRelation q.node.relation.name := by
  obtain ⟨r, hr, ho⟩ := Record.mem_reached.1 ho
  rcases h.isAccounted_of_runWaves hrun r hr _ o ho _ hrel with hstart | ⟨q', hq', hdone, hpath⟩
  · exact hstart
  · rw [List.nil_append, ← h.path_eq hq] at hpath
    obtain rfl := h.selected.eq_of_path hq' hq hpath
    have hnodup := h.selected.isPartition.waves_nodup
    rw [hwaves, List.flatten_append, List.nodup_append] at hnodup
    exact absurd rfl (hnodup.2.2 _ hdone _ hgroup)

/-- A wave fails with one of its statements, or else it is attached. -/
theorem runWave_cases (h : c.IsPrepared p req root) (hx : x.Carries inv) (hinv : inv state)
    (batchSize : Nat) (wave : List Nat) (roots : List Record) :
    (∃ e mid, x.runAll (wave.flatMap (c.groupStatements batchSize roots)) state = (.error e, mid) ∧
        c.runWave x batchSize wave roots state = ((roots, some e), mid)) ∨
      ∃ rs mid, inv mid ∧ c.runWave x batchSize wave roots state = ((rs, none), mid) := by
  rw [runWave]
  rcases hall : x.runAll (wave.flatMap (c.groupStatements batchSize roots)) state with
    ⟨e | results, mid⟩
  · exact .inl ⟨e, mid, rfl, rfl⟩
  · obtain ⟨hinv', hcarried⟩ := h.isCarriedBy_of_runAll hx hinv hall
    obtain ⟨rs, hattach⟩ :=
      exists_attachAll (fun k rs => h.exists_attach (hcarried k) rs) wave roots
    exact .inr ⟨rs, mid, hinv', by simp only [hattach]⟩

/-- Waves end with an error of the statements of one of them, or else they are attached. -/
theorem runWaves_cases (h : c.IsPrepared p req root) (hx : x.Carries inv) (hinv : inv state)
    (batchSize : Nat) (waves : List (List Nat)) (roots : List Record) :
    (∃ done wave rest rs mid e state', waves = done ++ wave :: rest ∧
        c.runWaves x batchSize done roots state = ((rs, none), mid) ∧ inv mid ∧
        x.runAll (wave.flatMap (c.groupStatements batchSize rs)) mid = (.error e, state') ∧
        c.runWaves x batchSize waves roots state = ((rs, some e), state')) ∨
      ∃ rs state', inv state' ∧
        c.runWaves x batchSize waves roots state = ((rs, none), state') := by
  induction waves generalizing roots state with
  | nil => exact .inr ⟨roots, state, hinv, rfl⟩
  | cons wave waves ih =>
    rcases h.runWave_cases hx hinv batchSize wave roots with
      ⟨e, late, hall, hwave⟩ | ⟨roots', mid, hmid, hwave⟩
    · refine .inl ⟨[], wave, waves, roots, state, e, late, rfl, rfl, hinv, hall, ?_⟩
      rw [runWaves, hwave]
    · have hgoes : ∀ next, c.runWaves x batchSize (wave :: next) roots state =
          c.runWaves x batchSize next roots' mid := by
        intro next
        rw [runWaves, hwave]
      simp only [hgoes]
      rcases ih hmid roots' with ⟨done, wave', rest, rs, mid', e, late, rfl, hdone, h'⟩ | hall
      · exact .inl ⟨wave :: done, wave', rest, rs, mid', e, late, rfl, (hgoes done).trans hdone, h'⟩
      · exact .inr hall

end IsPrepared

variable {σ : Type} {x : Executor σ} {inv : σ → Prop} {state state' mid : σ} {e : QueryError}

/-- How following up stops in a wave: all waves before are attached, and of this one a
    statement fails. -/
structure Stops (c : CompiledPlan) (x : Executor σ) (batchSize : Nat) (roots : List Record)
    (state : σ) (rs : List Record) (e : QueryError) (state' : σ) (done : List (List Nat))
    (wave : List Nat) (rest : List (List Nat)) (mid : σ) : Prop where
  waves_eq : c.plan.waves = done ++ wave :: rest
  /-- The roots are as they were after the waves before. -/
  before : c.runWaves x batchSize done roots state = ((rs, none), mid)
  /-- They are unchanged if there is none. -/
  unchanged : done = [] → rs = roots
  /-- The error is that of the first statement that fails, in the order of the batches. -/
  fails : ∃ answered k s after results late,
    wave.flatMap (c.groupStatements batchSize rs) = answered ++ (k, s) :: after ∧
      x.runAll answered mid = (.ok results, late) ∧ x.run s late = (.error e, state')
  /-- No owner has a relation of the wave or of a later one, unless some owner had it at the
      start. -/
  missing : ∀ q ∈ c.plan.relations, q.group ∈ (wave :: rest).flatten →
    ∀ o ∈ Record.reached (c.ownerPath q) rs, o.HasRelation q.node.relation.name →
      ∃ o' ∈ Record.reached (c.ownerPath q) roots, o'.HasRelation q.node.relation.name

/-- If following up ends with an error, it stops in a wave, of which nothing is attached: be
    the roots what they may, and the executor any that answers with errors or with rows that
    carry what is read. -/
theorem stops_of_dispatch (hprepare : p.prepare req = .ok c) (hx : x.Carries inv)
    (hinv : inv state)
    (h : c.dispatch x batchSize roots state = ((rs, some e), state')) :
    ∃ done wave rest mid, c.Stops x batchSize roots state rs e state' done wave rest mid := by
  obtain ⟨root, hc⟩ := Planner.isPrepared_of_prepare hprepare
  rcases hc.runWaves_cases hx hinv batchSize c.plan.waves roots with
    ⟨done, wave, rest, _, mid, _, _, hwaves, hbefore, -, hall, heq⟩ | ⟨_, _, -, heq⟩
  case inr => cases h.symm.trans heq
  cases h.symm.trans heq
  refine ⟨done, wave, rest, mid, hwaves, hbefore, ?_, Executor.runAll_eq_error hall, ?_⟩
  · rintro rfl
    exact (Prod.mk.inj (Prod.mk.inj hbefore).1).1.symm
  · exact fun q hq hgroup o => hc.exists_of_hasRelation hwaves (congrArg Prod.fst hbefore) hq hgroup

end CompiledPlan

/-! ### A statement that is lost -/

/-- The users who are active, with their posts and what else their authors have written. -/
def furtherRequest : FetchRequest :=
  { root := "User", populate := ["posts.author.posts"] }

/-- A session in which the second statement is not answered. -/
def lossySession : Session :=
  { store := writerStore
    rehearsal := { answers := [(1, .failure (Fault.execution "connection lost"))] } }

namespace CompiledPlan

/-- A user has posts, and these have an author, but the author is without further posts. -/
theorem stops_of_dispatch_writers : ∃ (c : CompiledPlan) (roots rs : List Record)
    (e : QueryError) (s : Session), writerPlanner.prepare furtherRequest = .ok c ∧
      c.plan.waves = [[1], [2]] ∧
      c.dispatch Session.executor 2 roots lossySession = ((rs, some e), s) ∧
      (Record.reached ["posts"] rs).map Record.kinds = [[("author", .one)], [("author", .one)]] ∧
      (Record.reached ["posts", "author"] rs).map Record.kinds = [[], []] ∧
      ∃ done wave rest mid, c.Stops Session.executor 2 roots lossySession rs e s done wave rest
        mid := by
  obtain ⟨c, hprepare, hwaves, rs, e, s, hdispatch, hposts, hauthors⟩ :
      ∃ c, writerPlanner.prepare furtherRequest = .ok c ∧ c.plan.waves = [[1], [2]] ∧
        ∃ rs e s, c.dispatch Session.executor 2
          [{ entity := "User", fields := [("id", .int 1)] }] lossySession = ((rs, some e), s) ∧
        (Record.reached ["posts"] rs).map Record.kinds = [[("author", .one)], [("author", .one)]] ∧
        (Record.reached ["posts", "author"] rs).map Record.kinds = [[], []] :=
    ⟨_, rfl, rfl, _, _, _, rfl, rfl, rfl⟩
  refine ⟨c, _, rs, e, s, hprepare, hwaves, hdispatch, hposts, hauthors, ?_⟩
  refine stops_of_dispatch hprepare Session.carries (fun a ha => ?_) hdispatch
  rw [List.mem_singleton.1 ha]
  exact ⟨_, rfl⟩

end CompiledPlan

end EntityFetch
