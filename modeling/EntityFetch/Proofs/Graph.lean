import EntityFetch.Graph
import EntityFetch.Proofs.Catalog
import EntityFetch.Proofs.Path
import Mathlib.Data.List.Nodup

/-!
# Relation graphs are trees

The nodes of a resolved graph are a tree that is listed with parents before their
children (`Graph.IsTree`): the number of a node is its place in the list, a node
hangs below an earlier one whose chain of relations it continues by a relation of
the entity reached there, and no two nodes have the same path.

Requested paths come first. Their names have no dots, so that a node found by its
path is the one that was meant (`Graph.IsTree.eq_of_path_below`). The eager relations
are added only where their path is new, whatever their names are.
-/

namespace EntityFetch

namespace Node

/-- Two nodes at one place of a tree; only what is said of it being requested may
    differ. -/
structure SamePlace (m n : Node) : Prop where
  id_eq : m.id = n.id
  parent_eq : m.parent = n.parent
  ancestors_eq : m.ancestors = n.ancestors
  relation_eq : m.relation = n.relation

theorem SamePlace.refl (n : Node) : SamePlace n n := ⟨rfl, rfl, rfl, rfl⟩

theorem SamePlace.chain_eq {m n : Node} (h : SamePlace m n) : m.chain = n.chain := by
  rw [chain, chain, h.ancestors_eq, h.relation_eq]

theorem SamePlace.path_eq {m n : Node} (h : SamePlace m n) : m.path = n.path := by
  rw [path, path, h.chain_eq]

/-- There is a relation on the way to a node, its own. -/
theorem chain_ne_nil (n : Node) : n.chain ≠ [] :=
  List.concat_ne_nil n.relation n.ancestors

/-- The names of the relations from the root to a node. -/
def names (n : Node) : List String :=
  n.chain.map Relation.name

theorem names_ne_nil (n : Node) : n.names ≠ [] :=
  fun h => n.chain_ne_nil (List.map_eq_nil_iff.1 h)

end Node

namespace Graph

/-- The entity at which the relations below a node start, or those of the root. -/
def StartsAt (c : Catalog) (root : Entity) : Option Node → Entity → Prop
  | none, e => e = root
  | some m, e => c.entity m.relation.target = .ok e

/-- The relations below a node start at one entity. -/
theorem StartsAt.unique {c : Catalog} {root : Entity} {parent : Option Node} {e e' : Entity}
    (h : StartsAt c root parent e) (h' : StartsAt c root parent e') : e = e' := by
  cases parent with
  | none => exact Eq.trans h (Eq.symm h')
  | some m => exact Except.ok.inj (Eq.trans (Eq.symm h) h')

/-- A node below another one, or below the root, by a relation that `Q` admits for
    the entity reached there. -/
structure IsChild (Q : Entity → Relation → Prop) (c : Catalog) (root : Entity)
    (nodes : List Node) (parent : Option Node) (n : Node) : Prop where
  mem : ∀ m ∈ parent, m ∈ nodes
  lt : ∀ m ∈ parent, m.id < n.id
  parent_eq : n.parent = parent.map Node.id
  ancestors_eq : n.ancestors = (parent.map Node.chain).getD []
  relation : ∃ e, StartsAt c root parent e ∧ Q e n.relation

/-- Nodes that are a tree below the root, by relations that `Q` admits. -/
structure IsTree (Q : Entity → Relation → Prop) (c : Catalog) (root : Entity)
    (nodes : List Node) : Prop where
  id_eq : ∀ (i : Nat) (n : Node), nodes[i]? = some n → n.id = i
  child : ∀ n ∈ nodes, ∃ parent, IsChild Q c root nodes parent n
  path_nodup : (nodes.map Node.path).Nodup

variable {Q : Entity → Relation → Prop} {c : Catalog} {root : Entity} {nodes : List Node}

theorem IsTree.nil : IsTree Q c root [] where
  id_eq _ _ h := by cases h
  child := List.forall_mem_nil _
  path_nodup := List.nodup_nil

theorem IsChild.mono {nodes' : List Node} {parent : Option Node} {n : Node}
    (h : IsChild Q c root nodes parent n) (hsub : ∀ m ∈ nodes, m ∈ nodes') :
    IsChild Q c root nodes' parent n :=
  { h with mem := fun m hm => hsub m (h.mem m hm) }

/-- What holds of a node if it holds of the one above holds of all nodes. -/
theorem IsTree.induct (h : IsTree Q c root nodes) {P : Node → Prop}
    (step : ∀ n ∈ nodes, ∀ parent, IsChild Q c root nodes parent n → (∀ m ∈ parent, P m) → P n) :
    ∀ n ∈ nodes, P n := by
  -- Nodes come after the one above them.
  have hbelow : ∀ k, ∀ n ∈ nodes, n.id < k → P n := by
    intro k
    induction k with
    | zero => exact fun _ _ hk => absurd hk (Nat.not_lt_zero _)
    | succ k ih =>
      intro n hn hk
      obtain ⟨parent, hp⟩ := h.child n hn
      refine step n hn parent hp fun m hm => ih m (hp.mem m hm) ?_
      have := hp.lt m hm
      omega
  exact fun n hn => hbelow _ n hn (Nat.lt_succ_self _)

theorem IsTree.imp {Q' : Entity → Relation → Prop} (hQ : ∀ e r, Q e r → Q' e r)
    (h : IsTree Q c root nodes) : IsTree Q' c root nodes where
  id_eq := h.id_eq
  path_nodup := h.path_nodup
  child n hn := by
    obtain ⟨parent, hparent⟩ := h.child n hn
    obtain ⟨e, he, hr⟩ := hparent.relation
    exact ⟨parent, { hparent with relation := ⟨e, he, hQ e _ hr⟩ }⟩

/-- The number of a node is its place. -/
theorem IsTree.getElem?_id (h : IsTree Q c root nodes) {n : Node} (hn : n ∈ nodes) :
    nodes[n.id]? = some n := by
  obtain ⟨i, hi⟩ := List.mem_iff_getElem?.1 hn
  rw [h.id_eq i n hi, hi]

theorem IsTree.id_lt (h : IsTree Q c root nodes) {n : Node} (hn : n ∈ nodes) :
    n.id < nodes.length :=
  (List.getElem?_eq_some_iff.1 (h.getElem?_id hn)).1

/-- No two nodes have the same path. -/
theorem IsTree.eq_of_path (h : IsTree Q c root nodes) {m n : Node} (hm : m ∈ nodes)
    (hn : n ∈ nodes) (heq : m.path = n.path) : m = n :=
  List.inj_on_of_nodup_map h.path_nodup hm hn heq

/-! ### Adding and marking nodes -/

/-- A parent that may be known from before its node was marked. -/
def Knows (nodes : List Node) (parent : Option Node) : Prop :=
  ∀ m ∈ parent, ∃ m' ∈ nodes, m'.SamePlace m

theorem knows_none : Knows nodes none :=
  fun _ h => absurd h (Option.not_mem_none _)

theorem Knows.of_mem {n : Node} (hn : n ∈ nodes) : Knows nodes (some n) :=
  fun m hm => ⟨m, Option.some.inj hm ▸ hn, .refl m⟩

/-- A parent that is known has a node that stands for it. -/
theorem Knows.exists_mem (c : Catalog) (root : Entity) {parent : Option Node}
    (h : Knows nodes parent) :
    ∃ parent', (∀ m ∈ parent', m ∈ nodes) ∧ parent'.map Node.id = parent.map Node.id ∧
      parent'.map Node.chain = parent.map Node.chain ∧
      ∀ e, StartsAt c root parent e → StartsAt c root parent' e := by
  cases parent with
  | none => exact ⟨none, fun _ h => absurd h (Option.not_mem_none _), rfl, rfl, fun _ h => h⟩
  | some m =>
    obtain ⟨m', hm', hsame⟩ := h m rfl
    refine ⟨some m', fun _ h => Option.some.inj h ▸ hm', congrArg some hsame.id_eq,
      congrArg some hsame.chain_eq, fun e he => ?_⟩
    rwa [StartsAt, hsame.relation_eq]

/-- A node with a new path below a known one keeps the nodes a tree. -/
theorem IsTree.push (h : IsTree Q c root nodes) {parent : Option Node} {e : Entity}
    {r : Relation} {requested : Bool} (hparent : Knows nodes parent)
    (he : StartsAt c root parent e) (hr : Q e r)
    (hnew : ∀ n ∈ nodes, n.path ≠ (Node.below nodes.length parent r requested).path) :
    IsTree Q c root (nodes ++ [Node.below nodes.length parent r requested]) where
  id_eq := forall_getElem?_concat.2 ⟨h.id_eq, rfl⟩
  child := by
    refine List.forall_mem_append.2 ⟨fun n hn => ?_, List.forall_mem_singleton.2 ?_⟩
    · obtain ⟨p, hp⟩ := h.child n hn
      exact ⟨p, hp.mono fun m hm => List.mem_append_left _ hm⟩
    · obtain ⟨parent', hmem, hid, hchain, hstart⟩ := hparent.exists_mem c root
      refine ⟨parent', ⟨fun m hm => List.mem_append_left _ (hmem m hm),
        fun m hm => h.id_lt (hmem m hm), hid.symm, ?_, e, hstart e he, hr⟩⟩
      rw [hchain, Node.below]
  path_nodup := by
    rw [List.map_append, List.nodup_append]
    refine ⟨h.path_nodup, List.nodup_singleton _, fun p hp q hq => ?_⟩
    obtain ⟨n, hn, rfl⟩ := List.mem_map.1 hp
    rw [List.map_singleton, List.mem_singleton] at hq
    exact hq ▸ hnew n hn

/-- What marking makes of one node. -/
def mark (id : Nat) (n : Node) : Node :=
  if n.id = id then { n with requested := true } else n

theorem markRequested_eq (id : Nat) (nodes : List Node) :
    markRequested id nodes = nodes.map (mark id) := rfl

theorem samePlace_mark (id : Nat) (n : Node) : (mark id n).SamePlace n := by
  rw [mark]
  split <;> exact ⟨rfl, rfl, rfl, rfl⟩

theorem names_mark (id : Nat) (n : Node) : (mark id n).names = n.names := by
  rw [Node.names, Node.names, (samePlace_mark id n).chain_eq]

/-- Marking a node leaves every node below the one above it. -/
theorem IsChild.mark {parent : Option Node} {n : Node} (h : IsChild Q c root nodes parent n)
    (id : Nat) : IsChild Q c root (nodes.map (Graph.mark id)) (parent.map (Graph.mark id))
      (Graph.mark id n) := by
  have hsame := samePlace_mark id n
  have hid : ∀ p, (Graph.mark id p).id = p.id := fun p => (samePlace_mark id p).id_eq
  have hchain : ∀ p, (Graph.mark id p).chain = p.chain := fun p => (samePlace_mark id p).chain_eq
  constructor
  case mem =>
    intro _ hmap
    obtain ⟨p, hpar, rfl⟩ := Option.map_eq_some_iff.1 hmap
    exact List.mem_map_of_mem (h.mem p hpar)
  case lt =>
    intro _ hmap
    obtain ⟨p, hpar, rfl⟩ := Option.map_eq_some_iff.1 hmap
    rw [hid, hsame.id_eq]
    exact h.lt p hpar
  case parent_eq =>
    rw [hsame.parent_eq, h.parent_eq, Option.map_map]
    exact congrArg (parent.map ·) (funext fun p => (hid p).symm)
  case ancestors_eq =>
    rw [hsame.ancestors_eq, h.ancestors_eq, Option.map_map]
    exact congrArg (fun f => (parent.map f).getD []) (funext fun p => (hchain p).symm)
  case relation =>
    obtain ⟨e, he, hr⟩ := h.relation
    refine ⟨e, ?_, hsame.relation_eq ▸ hr⟩
    cases parent with
    | none => exact he
    | some p =>
      rw [Option.map_some, StartsAt, (samePlace_mark id p).relation_eq]
      exact he

/-- Marking a node keeps the nodes a tree. -/
theorem IsTree.mark (h : IsTree Q c root nodes) (id : Nat) :
    IsTree Q c root (markRequested id nodes) := by
  rw [markRequested_eq]
  constructor
  case id_eq =>
    intro i n hn
    rw [List.getElem?_map, Option.map_eq_some_iff] at hn
    obtain ⟨m, hm, rfl⟩ := hn
    rw [(samePlace_mark id m).id_eq, h.id_eq i m hm]
  case child =>
    intro n hn
    obtain ⟨m, hm, rfl⟩ := List.mem_map.1 hn
    obtain ⟨parent, hp⟩ := h.child m hm
    exact ⟨_, hp.mark id⟩
  case path_nodup =>
    rw [List.map_map]
    convert h.path_nodup using 2
    exact funext fun n => (samePlace_mark id n).path_eq

/-! ### Requested paths -/

/-- A relation that a requested path may name. -/
def IsNamed (e : Entity) (r : Relation) : Prop :=
  IsDotFree r.name ∧ e.relation? r.name = some r

/-- The names on the way to a node go on from those of its parent. -/
theorem IsChild.names_eq {parent : Option Node} {n : Node}
    (h : IsChild Q c root nodes parent n) :
    n.names = (parent.map Node.names).getD [] ++ [n.relation.name] := by
  rw [Node.names, Node.chain, h.ancestors_eq, List.map_append, List.map_singleton]
  cases parent <;> rfl

/-- What holds of the names of all relations of a tree holds of the names on the way to them. -/
theorem IsTree.forall_names (h : IsTree Q c root nodes) {P : String → Prop}
    (hP : ∀ n ∈ nodes, P n.relation.name) : ∀ n ∈ nodes, ∀ name ∈ n.names, P name := by
  refine h.induct fun n hn parent hp ih name hname => ?_
  rw [hp.names_eq, List.mem_append, List.mem_singleton] at hname
  rcases hname with hname | rfl
  · cases parent with
    | none => exact absurd hname List.not_mem_nil
    | some m => exact ih m rfl name hname
  · exact hP n hn

/-- The names on the way to a requested node have no dots. -/
theorem IsTree.isDotFree (h : IsTree IsNamed c root nodes) :
    ∀ n ∈ nodes, ∀ name ∈ n.names, IsDotFree name := by
  refine h.forall_names fun n hn => ?_
  obtain ⟨parent, hchild⟩ := h.child n hn
  obtain ⟨e, -, hdot, -⟩ := hchild.relation
  exact hdot

/-- A requested node that is found by its path is the one that was meant. -/
theorem IsTree.eq_of_path_below (h : IsTree IsNamed c root nodes) {parent : Option Node}
    {e : Entity} {r : Relation} {known : Node} (hparent : Knows nodes parent)
    (he : StartsAt c root parent e) (hr : IsNamed e r) (hknown : known ∈ nodes)
    (hpath : known.path = dotted ((parent.map Node.names).getD [] ++ [r.name])) :
    known.relation = r ∧ known.names = (parent.map Node.names).getD [] ++ [r.name] := by
  obtain ⟨parent', hmem, -, hchain, hstart⟩ := hparent.exists_mem c root
  have hnames : parent'.map Node.names = parent.map Node.names := by
    have := congrArg (Option.map (List.map Relation.name)) hchain
    rwa [Option.map_map, Option.map_map] at this
  rw [← hnames] at hpath ⊢
  obtain ⟨p, hp⟩ := h.child known hknown
  have hdot : ∀ name ∈ (parent'.map Node.names).getD [] ++ [r.name], IsDotFree name := by
    intro name hname
    rw [List.mem_append, List.mem_singleton] at hname
    rcases hname with hname | rfl
    · cases parent' with
      | none => exact absurd hname List.not_mem_nil
      | some m => exact h.isDotFree m (hmem m rfl) name hname
    · exact hr.1
  have heq := dotted_inj (Node.names_ne_nil known) (by simp) (h.isDotFree known hknown) hdot hpath
  refine ⟨?_, heq⟩
  rw [hp.names_eq] at heq
  obtain ⟨hup, hname⟩ := List.append_inj' heq rfl
  -- The parents have the same names, hence the same path.
  have hsame : p = parent' := by
    cases p with
    | none =>
      cases parent' with
      | none => rfl
      | some m => exact absurd hup.symm (Node.names_ne_nil m)
    | some q =>
      cases parent' with
      | none => exact absurd hup (Node.names_ne_nil q)
      | some m =>
        exact congrArg some (h.eq_of_path (hp.mem q rfl) (hmem m rfl) (congrArg dotted hup))
  obtain ⟨e', he', -, hrel⟩ := hp.relation
  have hee : e' = e := he'.unique (hsame ▸ hstart e he)
  rw [hee, List.singleton_inj.1 hname, hr.2] at hrel
  exact (Option.some.inj hrel).symm

/-- Whether there is a node at the end of some names. -/
def HasNode (nodes : List Node) (names : List String) : Prop :=
  ∃ n ∈ nodes, n.names = names

theorem HasNode.mark {names : List String} (h : HasNode nodes names) (id : Nat) :
    HasNode (markRequested id nodes) names := by
  obtain ⟨n, hn, rfl⟩ := h
  exact ⟨_, List.mem_map_of_mem hn, names_mark id n⟩

theorem HasNode.mono {nodes' : List Node} {names : List String} (h : HasNode nodes names)
    (hsub : ∀ n ∈ nodes, n ∈ nodes') : HasNode nodes' names := by
  obtain ⟨n, hn, rfl⟩ := h
  exact ⟨n, hsub n hn, rfl⟩

/-- Whether there is a node at every step of some names that go on from others. -/
def HasSteps (nodes : List Node) (start names : List String) : Prop :=
  ∀ step, step ≠ [] → step <+: names → HasNode nodes (start ++ step)

theorem HasSteps.nil (nodes : List Node) (start : List String) : HasSteps nodes start [] :=
  fun _ hne hstep => absurd (List.prefix_nil.1 hstep) hne

/-- The first step, and those that go on from it. -/
theorem HasSteps.cons {start : List String} {name : String} {names : List String}
    (hfirst : HasNode nodes (start ++ [name])) (h : HasSteps nodes (start ++ [name]) names) :
    HasSteps nodes start (name :: names) := by
  intro step hne hstep
  rcases step with _ | ⟨first, rest⟩
  · exact absurd rfl hne
  · obtain ⟨rfl, hrest⟩ := List.cons_prefix_cons.1 hstep
    rw [← List.singleton_append, ← List.append_assoc]
    by_cases hnil : rest = []
    · rw [hnil, List.append_nil]
      exact hfirst
    · exact h rest hnil hrest

theorem names_below (id : Nat) (parent : Option Node) (r : Relation) (requested : Bool) :
    (Node.below id parent r requested).names = (parent.map Node.names).getD [] ++ [r.name] := by
  cases parent <;> simp [Node.names, Node.chain, Node.below]

/-- One step along a path: the relation of the next name is there, and leads on either from the
    node at its path, which is marked, or from a new one. -/
theorem exists_of_follow_cons {path : RelationPath} {name : String} {rest : List String}
    {e : Entity} {parent : Option Node} {nodes' : List Node}
    (h : follow c path e parent nodes (name :: rest) = .ok nodes') :
    ∃ r target, e.relation? r.name = some r ∧ r.name = name ∧ c.entity r.target = .ok target ∧
      ((∃ known ∈ nodes, known.path = (Node.below nodes.length parent r true).path ∧
          follow c path target (some known) (markRequested known.id nodes) rest = .ok nodes') ∨
        (∀ n ∈ nodes, n.path ≠ (Node.below nodes.length parent r true).path) ∧
          follow c path target (some (Node.below nodes.length parent r true))
            (nodes ++ [Node.below nodes.length parent r true]) rest = .ok nodes') := by
  rw [follow] at h
  split at h
  case h_2 => cases h
  case h_1 r hr =>
  obtain ⟨target, htarget, h⟩ := bind_eq_ok.1 h
  obtain rfl : r.name = name := by simpa using List.find?_some hr
  refine ⟨r, target, hr, rfl, htarget, ?_⟩
  simp only at h
  split at h
  · next known hfind =>
    exact .inl ⟨known, List.mem_of_find?_eq_some hfind, beq_iff_eq.1 (List.find?_some hfind :), h⟩
  · next hfind =>
    exact .inr ⟨fun n hn heq => List.find?_eq_none.1 hfind n hn (beq_iff_eq.2 heq), h⟩

/-- Following a path keeps the nodes a tree, which has all nodes from before and one at every
    step of the path. -/
theorem isTree_of_follow {path : RelationPath} {names : List String}
    (hdot : ∀ n ∈ names, IsDotFree n) {e : Entity} {parent : Option Node} {nodes' : List Node}
    (h : IsTree IsNamed c root nodes) (hparent : Knows nodes parent)
    (he : StartsAt c root parent e) (hf : follow c path e parent nodes names = .ok nodes') :
    IsTree IsNamed c root nodes' ∧ (∀ ns, HasNode nodes ns → HasNode nodes' ns) ∧
      HasSteps nodes' ((parent.map Node.names).getD []) names := by
  induction names generalizing nodes e parent with
  | nil =>
    obtain rfl := Except.ok.inj hf
    exact ⟨h, fun _ hns => hns, .nil _ _⟩
  | cons name rest ih =>
    rw [List.forall_mem_cons] at hdot
    obtain ⟨r, target, hr, rfl, htarget, hf⟩ := exists_of_follow_cons hf
    have hnamed : IsNamed e r := ⟨hdot.1, hr⟩
    have hbelow := names_below nodes.length parent r true
    rcases hf with ⟨known, hmem, hpath, hf⟩ | ⟨hnew, hf⟩
    · -- A node with the path is there: it is marked, and the walk goes on from it.
      obtain ⟨hrel, hnames⟩ :=
        h.eq_of_path_below hparent he hnamed hmem (hpath.trans (congrArg dotted hbelow))
      have hstart : StartsAt c root (some known) target := by
        rw [StartsAt, hrel]
        exact htarget
      have hknown : Knows (markRequested known.id nodes) (some known) := by
        rintro _ ⟨⟩
        exact ⟨_, List.mem_map_of_mem hmem, samePlace_mark known.id known⟩
      obtain ⟨htree, hkept, hrest⟩ := ih hdot.2 (h.mark known.id) hknown hstart hf
      have hall : ∀ ns, HasNode nodes ns → HasNode nodes' ns :=
        fun ns hns => hkept ns (hns.mark known.id)
      exact ⟨htree, hall, .cons (hall _ ⟨known, hmem, hnames⟩) (hnames ▸ hrest)⟩
    · have hstart : StartsAt c root (some (Node.below nodes.length parent r true)) target := htarget
      have hmem : Node.below nodes.length parent r true ∈
          nodes ++ [Node.below nodes.length parent r true] :=
        List.mem_append_right _ (List.mem_singleton_self _)
      obtain ⟨htree, hkept, hrest⟩ :=
        ih hdot.2 (h.push hparent he hnamed hnew) (.of_mem hmem) hstart hf
      exact ⟨htree, fun ns hns => hkept ns (hns.mono fun n hn => List.mem_append_left _ hn),
        .cons (hkept _ ⟨_, hmem, hbelow⟩) (hbelow ▸ hrest)⟩

/-- The nodes for the paths that are asked for are a tree, with a node at every step of each
    path. -/
theorem isTree_of_request {maxDepth : Nat} {paths : List RelationPath}
    (hdot : ∀ p ∈ paths, ∀ n ∈ p.segments, IsDotFree n)
    (h : paths.foldlM (request c maxDepth root) [] = .ok nodes) :
    IsTree IsNamed c root nodes ∧ ∀ p ∈ paths, HasSteps nodes [] p.segments := by
  refine foldlM_induct (fun before nodes => IsTree IsNamed c root nodes ∧
    ∀ p ∈ before, HasSteps nodes [] p.segments) ⟨.nil, List.forall_mem_nil _⟩ ?_ h
  rintro before p nodes nodes' hp ⟨hnodes, hbefore⟩ hrequest
  rw [request] at hrequest
  split at hrequest
  · exact nomatch hrequest
  · obtain ⟨htree, hkept, hsteps⟩ :=
      isTree_of_follow (hdot p hp) hnodes knows_none (e := root) rfl hrequest
    refine ⟨htree, fun q hq => ?_⟩
    rcases List.mem_append.1 hq with hq | hq
    · exact fun step hne hstep => hkept step (hbefore q hq step hne hstep)
    · exact List.mem_singleton.1 hq ▸ hsteps

/-! ### Eager relations -/

/-- A relation of the entity. -/
def IsOwned (e : Entity) (r : Relation) : Prop :=
  r ∈ e.relations

/-- Eager relations below a known node keep the nodes a tree, and all nodes. -/
theorem isTree_of_expand (maxDepth : Nat) {e : Entity} {parent : Option Node}
    (h : IsTree IsOwned c root nodes) (hparent : Knows nodes parent)
    (he : StartsAt c root parent e) :
    IsTree IsOwned c root (expand maxDepth e parent nodes) ∧
      ∀ n ∈ nodes, n ∈ expand maxDepth e parent nodes := by
  rw [expand]
  split
  · exact ⟨h, fun _ hn => hn⟩
  · refine foldl_induct (fun _ nodes' => IsTree IsOwned c root nodes' ∧ ∀ n ∈ nodes, n ∈ nodes')
      ⟨h, fun _ hn => hn⟩ ?_
    rintro _ r nodes' hr ⟨htree, hsub⟩
    simp only [addEager]
    split
    · exact ⟨htree, hsub⟩
    · next hnew =>
      rw [Bool.or_eq_true, not_or, List.any_eq_true] at hnew
      refine ⟨htree.push (fun m hm => ?_) he (List.mem_filter.1 hr).1 fun n hn heq => ?_,
        fun n hn => List.mem_append_left _ (hsub n hn)⟩
      · obtain ⟨m', hm', hsame⟩ := hparent m hm
        exact ⟨m', hsub m' hm', hsame⟩
      · exact hnew.1 ⟨n, hn, beq_iff_eq.2 heq⟩

/-- The generations of eager relations keep the nodes a tree, and all nodes. -/
theorem isTree_of_expandFrom {maxDepth start left : Nat} {nodes' : List Node}
    (h : IsTree IsOwned c root nodes) (hf : expandFrom c maxDepth start nodes left = .ok nodes') :
    IsTree IsOwned c root nodes' ∧ ∀ n ∈ nodes, n ∈ nodes' := by
  induction left generalizing start nodes with
  | zero =>
    obtain rfl := Except.ok.inj hf
    exact ⟨h, fun _ hn => hn⟩
  | succ left ih =>
    rw [expandFrom] at hf
    split at hf
    · obtain rfl := Except.ok.inj hf
      exact ⟨h, fun _ hn => hn⟩
    · obtain ⟨next, hnext, hf⟩ := bind_eq_ok.1 hf
      -- A generation is expanded node by node, each of which is still there when its turn comes.
      have hgrown : IsTree IsOwned c root next ∧ ∀ n ∈ nodes, n ∈ next := by
        refine foldlM_induct
          (fun _ nodes' => IsTree IsOwned c root nodes' ∧ ∀ n ∈ nodes, n ∈ nodes')
          ⟨h, fun _ hn => hn⟩ ?_ hnext
        rintro _ n nodes₁ nodes₂ hn ⟨htree, hsub⟩ hexpand
        obtain ⟨target, htarget, hexpand⟩ := bind_eq_ok.1 hexpand
        obtain rfl := pure_eq_ok.1 hexpand
        have hmem := hsub n (List.mem_of_mem_drop hn)
        have hexpanded := isTree_of_expand maxDepth htree (.of_mem hmem) htarget
        exact ⟨hexpanded.1, fun m hm => hexpanded.2 m (hsub m hm)⟩
      obtain ⟨htree, hsub⟩ := ih hgrown.1 hf
      exact ⟨htree, fun n hn => hsub n (hgrown.2 n hn)⟩

/-- The nodes of a resolved graph are a tree below its root, with a node at every step of the
    paths that are asked for. -/
theorem isTree_of_resolve {maxDepth : Nat} {name : String} {paths : List RelationPath}
    {g : Graph} (hdot : ∀ p ∈ paths, ∀ n ∈ p.segments, IsDotFree n)
    (h : resolve c maxDepth name paths = .ok g) :
    ∃ e, c.entity name = .ok e ∧ IsTree IsOwned c e g.nodes ∧ g.root = name ∧
      ∀ p ∈ paths, HasSteps g.nodes [] p.segments := by
  obtain ⟨e, he, h⟩ := bind_eq_ok.1 h
  obtain ⟨requested, hrequested, h⟩ := bind_eq_ok.1 h
  obtain ⟨nodes, hnodes, h⟩ := bind_eq_ok.1 h
  obtain rfl := pure_eq_ok.1 h
  obtain ⟨hnamed, hsteps⟩ := isTree_of_request hdot hrequested
  have howned : IsTree IsOwned c e requested :=
    hnamed.imp fun e r hr => List.mem_of_find?_eq_some hr.2
  obtain ⟨htree, hsub⟩ := isTree_of_expand maxDepth howned knows_none (e := e) rfl
  obtain ⟨htree', hsub'⟩ := isTree_of_expandFrom htree hnodes
  exact ⟨e, he, htree', rfl, fun p hp step hne hstep =>
    (hsteps p hp step hne hstep).mono fun n hn => hsub' n (hsub n hn)⟩

end Graph

end EntityFetch
