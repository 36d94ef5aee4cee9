import EntityFetch.Proofs.Chain
import EntityFetch.Proofs.Expand

/-!
# The relations that are loaded

A fetch loads what is asked for, and eager relations below the root and below whatever it
loads. `Graph.IsClosure` says so without an order: a chain is loaded if its names start one
of the paths (`Graph.IsAsked`), or if it is not too deep, what is above it is loaded and its
last relation is eager and not on the way to itself. Both rules may hold, and only the first
one loads a relation that is on the way to itself.

* `Graph.exists_resolve_iff`: paths are resolved if and only if each is the list of names of a
  chain from the root, and not too deep.
* `Graph.resolve_closure`: what they are resolved to is the closure, in the order in which the
  loop comes to its nodes.
-/

namespace EntityFetch

namespace Graph

variable {c : Catalog} {e : Entity} {maxDepth : Nat} {nodes : List Node}

/-! ### Paths that are followed -/

/-- A path is followed if and only if it is the list of names of a chain. -/
theorem exists_follow_iff {path : RelationPath} {parent : Option Node} {names : List String} :
    (∃ nodes', follow c path e parent nodes names = .ok nodes') ↔
      ∃ rs, c.IsChain e rs ∧ rs.map Relation.name = names := by
  induction names generalizing e parent nodes with
  | nil => exact ⟨fun _ => ⟨[], trivial, rfl⟩, fun _ => ⟨nodes, rfl⟩⟩
  | cons name rest ih =>
    constructor
    · rintro ⟨nodes', hf⟩
      obtain ⟨r, t, hr, rfl, ht, hf⟩ := exists_of_follow_cons hf
      -- Whether there is a node already does not matter to what follows.
      have hrest : ∃ rs, c.IsChain t rs ∧ rs.map Relation.name = rest := by
        rcases hf with ⟨_, -, -, hf⟩ | ⟨-, hf⟩
        · exact ih.1 ⟨_, hf⟩
        · exact ih.1 ⟨_, hf⟩
      obtain ⟨rs, hrs, rfl⟩ := hrest
      exact ⟨r :: rs, ⟨hr, t, ht, hrs⟩, rfl⟩
    · rintro ⟨_ | ⟨r, rs⟩, hrs, hnames⟩
      · cases hnames
      · obtain ⟨rfl, rfl⟩ := List.cons.inj hnames
        obtain ⟨hr, t, ht, hrs⟩ := hrs
        simp only [follow, hr, ht, bind, Except.bind]
        split
        · exact ih.2 ⟨rs, hrs, rfl⟩
        · exact ih.2 ⟨rs, hrs, rfl⟩

/-- Paths are followed if and only if each is the list of names of a chain, and not too deep. -/
theorem exists_request_iff {paths : List RelationPath} (nodes : List Node) :
    (∃ nodes', paths.foldlM (request c maxDepth e) nodes = .ok nodes') ↔
      ∀ p ∈ paths, p.depth ≤ maxDepth ∧
        ∃ rs, c.IsChain e rs ∧ rs.map Relation.name = p.segments := by
  induction paths generalizing nodes with
  | nil => exact ⟨fun _ => List.forall_mem_nil _, fun _ => ⟨nodes, rfl⟩⟩
  | cons p paths ih =>
    rw [List.forall_mem_cons, List.foldlM_cons]
    -- Whether one path can be followed does not depend on the nodes that are there.
    have hrequest : (∃ nodes', request c maxDepth e nodes p = .ok nodes') ↔
        p.depth ≤ maxDepth ∧ ∃ rs, c.IsChain e rs ∧ rs.map Relation.name = p.segments := by
      rw [request]
      split
      · next hlt =>
        refine ⟨?_, fun h => absurd h.1 (Nat.not_le_of_lt hlt)⟩
        rintro ⟨nodes', h⟩
        cases h
      · next hle =>
        refine exists_follow_iff.trans ⟨fun h => ⟨Nat.le_of_not_lt hle, h⟩, And.right⟩
    rw [← hrequest]
    constructor
    · rintro ⟨nodes', h⟩
      obtain ⟨next, hnext, h⟩ := bind_eq_ok.1 h
      exact ⟨⟨next, hnext⟩, (ih next).1 ⟨nodes', h⟩⟩
    · rintro ⟨⟨next, hnext⟩, h⟩
      rw [hnext]
      exact (ih next).2 h

/-! ### Requested nodes -/

/-- Whether names start one of the paths that are asked for. -/
def IsAsked (paths : List RelationPath) (names : List String) : Prop :=
  ∃ p ∈ paths, names <+: p.segments

/-- Whether all nodes are requested, at places of which something holds. -/
def AreRequested (Q : String → Prop) (nodes : List Node) : Prop :=
  ∀ n ∈ nodes, n.requested = true ∧ Q n.path

theorem AreRequested.mark {Q : String → Prop} (h : AreRequested Q nodes) (id : Nat) :
    AreRequested Q (markRequested id nodes) := by
  intro n hn
  obtain ⟨m, hm, rfl⟩ := List.mem_map.1 hn
  obtain ⟨hrequested, hpath⟩ := h m hm
  refine ⟨?_, (samePlace_mark id m).path_eq ▸ hpath⟩
  change (Graph.mark id m).requested = true
  rw [Graph.mark]
  split
  · rfl
  · exact hrequested

/-- A path that is followed has nodes at its steps, and nowhere else. -/
theorem AreRequested.follow {Q : String → Prop} {path : RelationPath} {start names : List String}
    {parent : Option Node} {nodes' : List Node} (h : AreRequested Q nodes)
    (hparent : ∀ name, dotted ((parent.map Node.names).getD [] ++ [name]) =
      dotted (start ++ [name]))
    (hsteps : ∀ step, step ≠ [] → step <+: names → Q (dotted (start ++ step)))
    (hf : Graph.follow c path e parent nodes names = .ok nodes') : AreRequested Q nodes' := by
  induction names generalizing nodes e parent start with
  | nil => exact Except.ok.inj hf ▸ h
  | cons name rest ih =>
    obtain ⟨r, target, -, rfl, -, hf⟩ := exists_of_follow_cons hf
    have hpath : (Node.below nodes.length parent r true).path = dotted (start ++ [r.name]) :=
      (congrArg dotted (names_below nodes.length parent r true)).trans (hparent r.name)
    have hQ : Q (dotted (start ++ [r.name])) :=
      hsteps [r.name] (List.cons_ne_nil _ _) (List.prefix_append [r.name] rest)
    have hrest : ∀ step, step ≠ [] → step <+: rest → Q (dotted (start ++ [r.name] ++ step)) := by
      intro step _ hstep
      rw [List.append_assoc]
      exact hsteps (r.name :: step) (List.cons_ne_nil _ _) (List.cons_prefix_cons.2 ⟨rfl, hstep⟩)
    -- A node that is found has the path that was looked for; that is all that counts below it.
    have hbelow : ∀ n : Node, n.path = dotted (start ++ [r.name]) → ∀ name,
        dotted (((some n).map Node.names).getD [] ++ [name]) =
          dotted (start ++ [r.name] ++ [name]) := by
      intro n hn name
      rw [dotted_append_singleton (List.concat_ne_nil r.name start), ← hn]
      exact dotted_append_singleton (Node.names_ne_nil n) name
    rcases hf with ⟨known, -, hknown, hf⟩ | ⟨-, hf⟩
    · exact ih (h.mark known.id) (hbelow known (hknown.trans hpath)) hrest hf
    · exact ih (List.forall_mem_append.2 ⟨h, List.forall_mem_singleton.2 ⟨rfl, hpath ▸ hQ⟩⟩)
        (hbelow _ hpath) hrest hf

/-- The nodes for the paths that are asked for are requested, and stand where names start one
    of the paths. -/
theorem isAsked_of_request {paths : List RelationPath}
    (hdot : ∀ p ∈ paths, ∀ n ∈ p.segments, IsDotFree n)
    (h : paths.foldlM (request c maxDepth e) [] = .ok nodes) :
    ∀ n ∈ nodes, n.requested = true ∧ IsAsked paths n.names := by
  have htree := (isTree_of_request hdot h).1
  have hall : AreRequested (fun path => ∃ p ∈ paths, ∃ step, step ≠ [] ∧ step <+: p.segments ∧
      path = dotted step) nodes := by
    refine foldlM_induct (fun _ nodes => AreRequested _ nodes) ?_ ?_ h
    · exact List.forall_mem_nil _
    intro _ p nodes nodes' hp hnodes hrequest
    rw [request] at hrequest
    split at hrequest
    · cases hrequest
    · exact hnodes.follow (fun _ => rfl) (fun step hne hstep => ⟨p, hp, step, hne, hstep, rfl⟩)
        hrequest
  intro n hn
  obtain ⟨hrequested, p, hp, step, hne, hstep, hpath⟩ := hall n hn
  -- Without dots in names a path has one list of names.
  have hnames : n.names = step := dotted_inj (Node.names_ne_nil n) hne (htree.isDotFree n hn)
    (fun name hname => hdot p hp name (hstep.subset hname)) hpath
  exact ⟨hrequested, p, hp, hnames ▸ hstep⟩

/-! ### The closure -/

/-- The nodes are those of the chains that a fetch has to load, in an order that puts parents
    before their children. -/
structure IsClosure (c : Catalog) (e : Entity) (maxDepth : Nat) (paths : List RelationPath)
    (nodes : List Node) : Prop where
  id_eq : ∀ (i : Nat) (n : Node), nodes[i]? = some n → n.id = i
  parent : ∀ n ∈ nodes, (n.parent = none ∧ n.ancestors = []) ∨
    ∃ m ∈ nodes, n.parent = some m.id ∧ m.id < n.id ∧ n.ancestors = m.chain
  isChain : ∀ n ∈ nodes, c.IsChain e n.chain
  path_eq : ∀ n ∈ nodes, n.path = dotted (n.chain.map Relation.name)
  depth_eq : ∀ n ∈ nodes, n.depth = n.chain.length
  path_nodup : (nodes.map Node.path).Nodup
  /-- A chain is loaded if it is asked for, or if what is above it is loaded and it goes on
      by an eager relation that is not on it yet. -/
  mem_iff : ∀ before r, c.IsChain e (before ++ [r]) →
    (before ++ [r] ∈ nodes.map Node.chain ↔
      IsAsked paths ((before ++ [r]).map Relation.name) ∨
        before.length + 1 ≤ maxDepth ∧ (before = [] ∨ before ∈ nodes.map Node.chain) ∧
          r.eager ∧ ∀ s ∈ before, ¬(s.owner = r.owner ∧ s.name = r.name))
  requested_iff : ∀ n ∈ nodes, n.requested = true ↔ IsAsked paths (n.chain.map Relation.name)

/-- The relation of a node leads to an entity. -/
theorem IsTree.hasTarget (h : IsTree IsOwned c e nodes) (he : e ∈ c.entities) (hc : c.IsSound) :
    ∀ n ∈ nodes, HasTarget c n := by
  intro n hn
  obtain ⟨parent, hp⟩ := h.child n hn
  obtain ⟨t, ht, hr⟩ := hp.relation
  refine hc.target t ?_ _ hr
  cases parent with
  | none => exact Eq.symm ht ▸ he
  | some m => exact (Catalog.entity_eq_ok ht).1

/-- Two relations are the same one if they have one owner and one name. -/
theorem isSame_eq_false_iff {r s : Relation} :
    isSame r s = false ↔ ¬(s.owner = r.owner ∧ s.name = r.name) := by
  rw [isSame, Bool.eq_false_iff, Ne, Bool.and_eq_true, beq_iff_eq, beq_iff_eq,
    eq_comm (a := r.owner), eq_comm (a := r.name)]

/-- Nodes that are asked for or eager, with all that they have to have below them. -/
structure IsGrown (c : Catalog) (e : Entity) (maxDepth : Nat) (paths : List RelationPath)
    (nodes : List Node) : Prop where
  isTree : IsTree IsOwned c e nodes
  isChain : ∀ n ∈ nodes, c.IsChain e n.chain
  origin : ∀ n ∈ nodes, (n.requested = true ∧ IsAsked paths n.names) ∨ IsAdded maxDepth n
  exists_asked : ∀ names, names ≠ [] → IsAsked paths names →
    ∃ n ∈ nodes, n.requested = true ∧ n.names = names
  hasEager_root : HasEager maxDepth nodes e []
  hasEager : ∀ n ∈ nodes, ∃ t, c.entity n.relation.target = .ok t ∧
    HasEager maxDepth nodes t n.chain

/-- The loop ends with what is asked for, and eager relations below the root and below all
    that is there. -/
theorem IsTree.isGrown {paths : List RelationPath} {requested : List Node}
    (h : IsTree IsOwned c e nodes) (hchain : ∀ n ∈ nodes, c.IsChain e n.chain)
    (hdot : ∀ p ∈ paths, ∀ n ∈ p.segments, IsDotFree n)
    (hrequested : paths.foldlM (request c maxDepth e) [] = .ok requested)
    (hexpands : Expands c maxDepth 0 (expand maxDepth e none requested) nodes) :
    IsGrown c e maxDepth paths nodes := by
  have hasked := isAsked_of_request hdot hrequested
  have hsteps := (isTree_of_request hdot hrequested).2
  obtain ⟨first, hfirst, hall, heager⟩ := exists_expand maxDepth e none requested
  rw [hfirst] at hexpands
  obtain ⟨added, rfl, hall', heager'⟩ := hexpands.exists_added
  refine ⟨h, hchain, fun n hn => ?_, fun names hne hnames => ?_,
    heager.mono fun n hn => List.mem_append_left _ hn, fun n hn => ?_⟩
  · rcases List.mem_append.1 hn with hn | hn
    · exact (List.mem_append.1 hn).imp (hasked n) fun hn => (hall n hn).1
    · exact .inr (hall' n hn)
  · obtain ⟨p, hp, hprefix⟩ := hnames
    obtain ⟨n, hn, rfl⟩ := hsteps p hp names hne hprefix
    exact ⟨n, List.mem_append_left _ (List.mem_append_left _ hn), (hasked n hn).1, rfl⟩
  · obtain ⟨i, hi⟩ := List.mem_iff_getElem?.1 hn
    exact heager' i n (Nat.zero_le i) hi

namespace IsGrown

variable {paths : List RelationPath} {n : Node} {before : List Relation} {r : Relation}

/-- A node has its parent before it. -/
theorem exists_parent (h : IsGrown c e maxDepth paths nodes) (hn : n ∈ nodes) :
    (n.parent = none ∧ n.ancestors = []) ∨
      ∃ m ∈ nodes, n.parent = some m.id ∧ m.id < n.id ∧ n.ancestors = m.chain := by
  obtain ⟨parent, hp⟩ := h.isTree.child n hn
  cases parent with
  | none => exact .inl ⟨hp.parent_eq, hp.ancestors_eq⟩
  | some m => exact .inr ⟨m, hp.mem m rfl, hp.parent_eq, hp.lt m rfl, hp.ancestors_eq⟩

/-- Requested nodes are those that are asked for, as no other node has their path. -/
theorem requested_iff (h : IsGrown c e maxDepth paths nodes) (hn : n ∈ nodes) :
    n.requested = true ↔ IsAsked paths n.names := by
  constructor
  · intro hrequested
    rcases h.origin n hn with hasked | hadded
    · exact hasked.2
    · exact absurd hrequested (by rw [hadded.not_requested]; exact Bool.false_ne_true)
  · intro hasked
    obtain ⟨m, hm, hrequested, hnames⟩ := h.exists_asked n.names n.names_ne_nil hasked
    exact h.isTree.eq_of_path hn hm (congrArg dotted hnames.symm) ▸ hrequested

/-- A chain is that of a node if there is a node at its address. -/
theorem mem_of_path (h : IsGrown c e maxDepth paths nodes) (he : e ∈ c.entities)
    (hdotFree : c.HasDotFreeNames) (hr : c.IsChain e (before ++ [r])) (hn : n ∈ nodes)
    (hpath : n.path = address (before ++ [r])) : before ++ [r] ∈ nodes.map Node.chain := by
  have heq : n.chain = before ++ [r] :=
    hdotFree.eq_of_address he (h.isChain n hn) hr n.chain_ne_nil (List.concat_ne_nil r before) hpath
  exact heq ▸ List.mem_map_of_mem hn

/-- A node that is there is asked for, or eager below one that is there. -/
theorem asked_or_eager (h : IsGrown c e maxDepth paths nodes) (hn : n ∈ nodes) :
    IsAsked paths n.names ∨ n.ancestors.length + 1 ≤ maxDepth ∧
      (n.ancestors = [] ∨ n.ancestors ∈ nodes.map Node.chain) ∧ n.relation.eager ∧
        ∀ s ∈ n.ancestors, ¬(s.owner = n.relation.owner ∧ s.name = n.relation.name) := by
  refine (h.origin n hn).imp And.right fun hadded => ⟨hadded.lt, ?_, hadded.eager,
    fun s hs => isSame_eq_false_iff.1 (hadded.isNew s hs)⟩
  rcases h.exists_parent hn with ⟨-, hnil⟩ | ⟨m, hm, -, -, hancestors⟩
  · exact .inl hnil
  · exact .inr (hancestors ▸ List.mem_map_of_mem hm)

/-- An eager relation is there below the root and below a node. -/
theorem mem_of_eager (h : IsGrown c e maxDepth paths nodes) (he : e ∈ c.entities)
    (hdotFree : c.HasDotFreeNames) (hr : c.IsChain e (before ++ [r]))
    (hlt : before.length + 1 ≤ maxDepth) (hbefore : before = [] ∨ before ∈ nodes.map Node.chain)
    (heager : r.eager) (hnew : ∀ s ∈ before, ¬(s.owner = r.owner ∧ s.name = r.name)) :
    before ++ [r] ∈ nodes.map Node.chain := by
  obtain ⟨t, -, hend, hrelation, -⟩ := Catalog.isChain_concat_iff.1 hr
  have hrmem : r ∈ t.eagerRelations :=
    List.mem_filter.2 ⟨List.mem_of_find?_eq_some hrelation, heager⟩
  have hbelow : HasEager maxDepth nodes t before := by
    rcases hbefore with rfl | hbefore
    · obtain rfl : t = e := hend
      exact h.hasEager_root
    · obtain ⟨m, hm, rfl⟩ := List.mem_map.1 hbefore
      obtain ⟨u, hu, hbelow⟩ := h.hasEager m hm
      obtain rfl : u = t := Except.ok.inj (hu.symm.trans hend.entity_target)
      exact hbelow
  obtain ⟨n, hn, hpath⟩ := hbelow hlt r hrmem fun s hs => isSame_eq_false_iff.2 (hnew s hs)
  exact h.mem_of_path he hdotFree hr hn hpath

/-- What has grown is the closure. -/
theorem isClosure (h : IsGrown c e maxDepth paths nodes) (he : e ∈ c.entities)
    (hdotFree : c.HasDotFreeNames) : IsClosure c e maxDepth paths nodes where
  id_eq := h.isTree.id_eq
  parent _ := h.exists_parent
  isChain := h.isChain
  path_eq _ _ := rfl
  depth_eq _ _ := rfl
  path_nodup := h.isTree.path_nodup
  mem_iff before r hr := by
    constructor
    · intro hmem
      obtain ⟨n, hn, hchain⟩ := List.mem_map.1 hmem
      obtain ⟨rfl, hrelation⟩ := List.append_inj' hchain rfl
      obtain rfl := List.singleton_inj.1 hrelation
      exact h.asked_or_eager hn
    · rintro (hasked | ⟨hlt, hbefore, heager, hnew⟩)
      · obtain ⟨n, hn, -, hnames⟩ := h.exists_asked _ (by simp) hasked
        exact h.mem_of_path he hdotFree hr hn (congrArg dotted hnames)
      · exact h.mem_of_eager he hdotFree hr hlt hbefore heager hnew
  requested_iff _ := h.requested_iff

end IsGrown

/-! ### Resolving -/

variable {root : String} {paths : List RelationPath}

/-- Once all paths are followed, nothing fails, and the loop comes to an end. -/
theorem exists_resolve (hc : c.IsSound) (hroot : c.entity root = .ok e)
    (hdot : ∀ p ∈ paths, ∀ n ∈ p.segments, IsDotFree n) {requested : List Node}
    (hrequested : paths.foldlM (request c maxDepth e) [] = .ok requested) :
    ∃ g, resolve c maxDepth root paths = .ok g ∧
      Expands c maxDepth 0 (expand maxDepth e none requested) g.nodes := by
  have howned : IsTree IsOwned c e requested := (isTree_of_request hdot hrequested).1.imp
    fun e r hr => List.mem_of_find?_eq_some hr.2
  have htree := (isTree_of_expand maxDepth howned knows_none rfl).1
  have htail : ∀ n ∈ (expand maxDepth e none requested).drop 0, HasTail c 0 n :=
    fun n _ => hasTail_zero c n
  obtain ⟨final, hfinal, hexpands⟩ := exists_expandFrom maxDepth hc
    (Nat.zero_add (generations c)) (htree.hasTarget (Catalog.entity_eq_ok hroot).1 hc) htail
  refine ⟨{ root, requested := paths.map RelationPath.text, nodes := final }, ?_, hexpands⟩
  rw [resolve, hroot]
  simp only [bind, Except.bind, hrequested, hfinal]
  rfl

/-- Before anything else, all paths are followed. -/
theorem exists_requested_of_resolve {g : Graph} (hroot : c.entity root = .ok e)
    (h : resolve c maxDepth root paths = .ok g) :
    ∃ requested, paths.foldlM (request c maxDepth e) [] = .ok requested := by
  obtain ⟨e', he', h⟩ := bind_eq_ok.1 h
  obtain rfl := Except.ok.inj (hroot.symm.trans he')
  obtain ⟨requested, hrequested, -⟩ := bind_eq_ok.1 h
  exact ⟨requested, hrequested⟩

/-- Only a path that is too deep or not the list of names of a chain is refused. -/
theorem exists_resolve_iff (hc : c.IsSound) (hroot : c.entity root = .ok e)
    (hdot : ∀ p ∈ paths, ∀ n ∈ p.segments, IsDotFree n) :
    (∃ g, resolve c maxDepth root paths = .ok g) ↔ ∀ p ∈ paths, p.segments.length ≤ maxDepth ∧
      ∃ rs, c.IsChain e rs ∧ rs.map Relation.name = p.segments := by
  refine Iff.trans ⟨?_, ?_⟩ (exists_request_iff [])
  · rintro ⟨g, hg⟩
    exact exists_requested_of_resolve hroot hg
  · rintro ⟨requested, hrequested⟩
    obtain ⟨g, hg, -⟩ := exists_resolve hc hroot hdot hrequested
    exact ⟨g, hg⟩

/-- A resolved graph is what the loop ends with. -/
theorem isGrown_of_resolve {g : Graph} (hc : c.IsSound) (hdistinct : c.HasDistinctNames)
    (hroot : c.entity root = .ok e) (hdot : ∀ p ∈ paths, ∀ n ∈ p.segments, IsDotFree n)
    (h : resolve c maxDepth root paths = .ok g) :
    (∃ requested, paths.foldlM (request c maxDepth e) [] = .ok requested ∧
      Expands c maxDepth 0 (expand maxDepth e none requested) g.nodes) ∧
    IsGrown c e maxDepth paths g.nodes := by
  obtain ⟨e', he', htree, -⟩ := isTree_of_resolve hdot h
  obtain rfl := Except.ok.inj (hroot.symm.trans he')
  obtain ⟨requested, hrequested⟩ := exists_requested_of_resolve hroot h
  obtain ⟨g', hg', hexpands⟩ := exists_resolve hc hroot hdot hrequested
  obtain rfl := Except.ok.inj (h.symm.trans hg')
  have hchain := htree.isChain (Catalog.entity_eq_ok hroot).1 hc hdistinct
  exact ⟨⟨requested, hrequested, hexpands⟩, htree.isGrown hchain hdot hrequested hexpands⟩

/-- A relation graph is resolved if and only if each path is the list of names of a chain from
    the root, and not too deep. It is what the loop ends with that adds eager relations below
    one node after the other, also below those that it adds, and this is the closure. -/
theorem resolve_closure {decls : List EntityDecl} (hbuild : Catalog.build decls = .ok c)
    (hnames : ∀ d ∈ decls, (d.relations.map RelationDecl.name).Nodup)
    (hdotFree : ∀ d ∈ decls, ∀ s ∈ d.relations, IsDotFree s.name)
    (hroot : c.entity root = .ok e) {texts : List String}
    (hparse : texts.mapM RelationPath.parse = .ok paths) (maxDepth : Nat) :
    ((∃ g, resolve c maxDepth root paths = .ok g) ↔
      ∀ p ∈ paths, p.segments.length ≤ maxDepth ∧
        ∃ rs, c.IsChain e rs ∧ rs.map Relation.name = p.segments) ∧
    ∀ g, resolve c maxDepth root paths = .ok g →
      (∃ requested, paths.foldlM (request c maxDepth e) [] = .ok requested ∧
        ∀ final, Expands c maxDepth 0 (expand maxDepth e none requested) final ↔
          final = g.nodes) ∧
      IsClosure c e maxDepth paths g.nodes := by
  have hc := Catalog.isSound_of_build hbuild
  have hdot := RelationPath.isDotFree_of_mapM_parse hparse
  refine ⟨exists_resolve_iff hc hroot hdot, fun g hg => ?_⟩
  obtain ⟨⟨requested, hrequested, hexpands⟩, hgrown⟩ :=
    isGrown_of_resolve hc (Catalog.hasDistinctNames_of_build hbuild hnames) hroot hdot hg
  have hloop : ∀ final, Expands c maxDepth 0 (expand maxDepth e none requested) final ↔
      final = g.nodes := fun final => ⟨fun h => h.unique hexpands, fun h => h ▸ hexpands⟩
  exact ⟨⟨requested, hrequested, hloop⟩, hgrown.isClosure (Catalog.entity_eq_ok hroot).1
    (Catalog.hasDotFreeNames_of_build hbuild hdotFree)⟩

end Graph

/-! ### Managers -/

/-- Users, with their managers and their accounts, which know their users again. -/
def staffDecls : List EntityDecl :=
  [{ name := "User", table := "users", columns := ["id", "manager_id", "account_id"]
     relations :=
       [{ RelationDecl.manyToOne "manager" "User" "manager_id" with eager := true },
        { RelationDecl.manyToOne "account" "Account" "account_id" with eager := true }] },
   { name := "Account", table := "accounts", columns := ["id", "user_id"]
     relations := [{ RelationDecl.manyToOne "user" "User" "user_id" with eager := true }] }]

namespace Graph

/-- Eager relations lead in circles, and still only the managers that are asked for have
    managers. -/
theorem resolve_closure_staff : ∃ c e g, Catalog.build staffDecls = .ok c ∧
    c.entity "User" = .ok e ∧
    resolve c 18446744073709551615 "User" [⟨["manager", "manager"]⟩] = .ok g ∧
    g.nodes.map Node.path = ["manager", "manager.manager", "account", "manager.account",
      "manager.manager.account", "account.user", "manager.account.user",
      "manager.manager.account.user", "account.user.manager"] ∧
    IsClosure c e 18446744073709551615 [⟨["manager", "manager"]⟩] g.nodes := by
  obtain ⟨c, hc, e, he, g, hg, hpaths⟩ : ∃ c, Catalog.build staffDecls = .ok c ∧
      ∃ e, c.entity "User" = .ok e ∧
      ∃ g, resolve c 18446744073709551615 "User" [⟨["manager", "manager"]⟩] = .ok g ∧
        g.nodes.map Node.path = ["manager", "manager.manager", "account", "manager.account",
          "manager.manager.account", "account.user", "manager.account.user",
          "manager.manager.account.user", "account.user.manager"] := ⟨_, rfl, _, rfl, _, rfl, rfl⟩
  have hparse : ["manager.manager"].mapM RelationPath.parse = .ok [⟨["manager", "manager"]⟩] := rfl
  exact ⟨c, e, g, hc, he, hg, hpaths,
    ((resolve_closure hc (by decide) (by decide) he hparse _).2 g hg).2⟩

end Graph

end EntityFetch
