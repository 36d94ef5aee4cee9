import EntityFetch.Proofs.Partition

/-!
# Choices without an order

Selection keeps its books by numbers: a node has a number, a group starts at one, and the
anchors are a list of them. What it chooses depends on none of them. A place of a tree is
told by its chain (`Graph.chainAt`). Put in terms of chains, the anchor of a relation depends
only on which chains end with a relation that is joined by rule
(`StrategyDefaults.AnchoredTo`), and a group has a relation that is joined by rule if its
chain is such an anchor (`StrategyDefaults.mem_joiningRoots_iff`). How a relation is loaded
is chosen by this alone (`StrategyDefaults.choose_select`).
-/

namespace EntityFetch

/-- The place at which a group starts. -/
def groupRoot (groups : List LoadGroup) (k : Nat) : Option Nat :=
  groups[k]?.bind LoadGroup.root

namespace Graph

variable {Q : Entity → Relation → Prop} {c : Catalog} {root : Entity} {nodes : List Node}
  {n : Node} {place place' : Option Nat}

/-- The chain of a node with a number, that of the root being empty. -/
def chainAt (nodes : List Node) (place : Option Nat) : List Relation :=
  ((place.bind (nodes[·]?)).map Node.chain).getD []

/-- The root or the number of a node. -/
def IsPlace (nodes : List Node) (place : Option Nat) : Prop :=
  ∀ id ∈ place, id < nodes.length

/-- The chain of a node is found by its number. -/
theorem IsTree.chainAt_id (h : IsTree Q c root nodes) (hn : n ∈ nodes) :
    chainAt nodes (some n.id) = n.chain := by
  rw [chainAt, Option.bind_some, h.getElem?_id hn]
  rfl

/-- The chain above a node is that of its parent. -/
theorem IsTree.chainAt_parent (h : IsTree Q c root nodes) (hn : n ∈ nodes) :
    chainAt nodes n.parent = n.ancestors := by
  obtain ⟨parent, hp⟩ := h.child n hn
  rw [hp.parent_eq, hp.ancestors_eq]
  cases parent with
  | none => rfl
  | some m => exact h.chainAt_id (hp.mem m rfl)

/-- A place is the root or that of a node. -/
theorem IsTree.eq_none_or_exists (h : IsTree Q c root nodes) (hplace : IsPlace nodes place) :
    place = none ∨ ∃ n ∈ nodes, place = some n.id := by
  cases place with
  | none => exact .inl rfl
  | some id =>
    have hn := List.getElem?_eq_getElem (hplace id rfl)
    exact .inr ⟨_, List.getElem_mem _, congrArg some (h.id_eq id _ hn).symm⟩

/-- Nodes are told apart by their chains. -/
theorem IsTree.eq_of_chain (h : IsTree Q c root nodes) {m : Node} (hm : m ∈ nodes)
    (hn : n ∈ nodes) (heq : m.chain = n.chain) : m = n :=
  h.eq_of_path hm hn (by rw [Node.path, Node.path, heq])

/-- Places are told apart by their chains. -/
theorem IsTree.eq_of_chainAt (h : IsTree Q c root nodes) (hplace : IsPlace nodes place)
    (hplace' : IsPlace nodes place') (heq : chainAt nodes place = chainAt nodes place') :
    place = place' := by
  have hne : ∀ n ∈ nodes, chainAt nodes (some n.id) ≠ [] := fun n hn => by
    rw [h.chainAt_id hn]
    exact n.chain_ne_nil
  rcases h.eq_none_or_exists hplace with rfl | ⟨m, hm, rfl⟩
  · rcases h.eq_none_or_exists hplace' with rfl | ⟨n, hn, rfl⟩
    · rfl
    · exact absurd heq.symm (hne n hn)
  · rcases h.eq_none_or_exists hplace' with rfl | ⟨n, hn, rfl⟩
    · exact absurd heq (hne m hm)
    · rw [h.chainAt_id hm, h.chainAt_id hn] at heq
      rw [h.eq_of_chain hm hn heq]

end Graph

namespace StrategyDefaults

variable {Q : Entity → Relation → Prop} {c : Catalog} {root : Entity} {d : StrategyDefaults}
  {nodes : List Node} {place anchor : Option Nat} {steps : Nat}

/-- Whether a chain ends with a relation that is joined by rule. -/
def JoinsAt (d : StrategyDefaults) (nodes : List Node) (chain : List Relation) : Prop :=
  ∃ n ∈ nodes, n.chain = chain ∧ d.ruling n = .joined

/-- The search for an anchor goes from chain to chain, as long as they end with a relation
    that is joined by rule. -/
inductive AnchoredTo (joins : List Relation → Prop) : List Relation → List Relation → Prop
  | stop {chain : List Relation} : ¬joins chain → AnchoredTo joins chain chain
  | climb {before anchor : List Relation} {r : Relation} : joins (before ++ [r]) →
      AnchoredTo joins before anchor → AnchoredTo joins (before ++ [r]) anchor

/-- A chain has one anchor. -/
theorem AnchoredTo.unique {joins : List Relation → Prop} {chain anchor anchor' : List Relation}
    (h : AnchoredTo joins chain anchor) (h' : AnchoredTo joins chain anchor') :
    anchor = anchor' := by
  induction h with
  | stop hstop =>
    cases h' with
    | stop => rfl
    | climb hjoins => exact absurd hjoins hstop
  | @climb before _ r hjoins _ ih =>
    generalize hchain : before ++ [r] = chain at h'
    cases h' with
    | stop hstop => exact absurd (hchain ▸ hjoins) hstop
    | climb _ h' =>
      obtain ⟨rfl, -⟩ := List.append_inj' hchain rfl
      exact ih h'

/-- Where the search ends that starts above a relation joined by rule, there begins one that is
    joined by rule, the first on the way. -/
theorem AnchoredTo.exists_first {chain anchor : List Relation}
    (h : AnchoredTo (d.JoinsAt nodes) chain anchor) : ∀ n ∈ nodes, n.ancestors = chain →
      d.ruling n = .joined → ∃ m ∈ nodes, m.ancestors = anchor ∧ d.ruling m = .joined := by
  induction h with
  | stop _ => exact fun n hn hchain hruling => ⟨n, hn, hchain, hruling⟩
  | climb hjoins _ ih =>
    obtain ⟨m, hm, hchain, hruling⟩ := hjoins
    exact fun _ _ _ _ => ih m hm (List.append_inj' hchain rfl).1 hruling

/-- The search by numbers goes from chain to chain. -/
theorem ClimbsTo.anchoredTo (h : d.ClimbsTo nodes place steps anchor)
    (htree : Graph.IsTree Q c root nodes) :
    AnchoredTo (d.JoinsAt nodes) (Graph.chainAt nodes place) (Graph.chainAt nodes anchor) ∧
      Graph.IsPlace nodes anchor := by
  induction h with
  | root =>
    -- No node has the empty chain, so that the search ends at the root by chains too.
    refine ⟨.stop ?_, fun _ h => absurd h (Option.not_mem_none _)⟩
    rintro ⟨n, -, hchain, -⟩
    exact n.chain_ne_nil hchain
  | @stop id n hn hruling =>
    have hmem := List.mem_of_getElem? hn
    refine ⟨.stop ?_, fun i hi => Option.some.inj hi ▸ (List.getElem?_eq_some_iff.1 hn).1⟩
    rw [← htree.id_eq id n hn, htree.chainAt_id hmem]
    rintro ⟨m, hm, hchain, hjoined⟩
    -- A node that is joined and has the same chain would be this one.
    exact hruling (htree.eq_of_chain hm hmem hchain ▸ hjoined)
  | @climb id _ n _ hn hruling _ ih =>
    have hmem := List.mem_of_getElem? hn
    rw [← htree.id_eq id n hn, htree.chainAt_id hmem]
    rw [htree.chainAt_parent hmem] at ih
    exact ⟨.climb ⟨n, hmem, rfl, hruling⟩ ih.1, ih.2⟩

/-- There is an anchor for every node. -/
theorem length_anchors (d : StrategyDefaults) (nodes : List Node) :
    (d.anchors nodes).length = nodes.length := by
  refine foldl_induct
    (fun before (known : List (Bool × Option Nat)) => known.length = before.length) rfl ?_
  intro before n known _ h
  rw [List.length_append, List.length_append, h]
  rfl

/-- A group has a relation that is joined by rule if it starts at the anchor of one. -/
theorem mem_joiningRoots_iff (htree : Graph.IsTree Q c root nodes)
    (hplace : Graph.IsPlace nodes place) : place ∈ d.joiningRoots nodes ↔
      ∃ n ∈ nodes, d.ruling n = .joined ∧
        AnchoredTo (d.JoinsAt nodes) n.ancestors (Graph.chainAt nodes place) := by
  -- What is kept for a node is where the search ends that starts above it.
  have hanchor : ∀ n ∈ nodes, ∃ anchor, Graph.IsPlace nodes anchor ∧
      AnchoredTo (d.JoinsAt nodes) n.ancestors (Graph.chainAt nodes anchor) ∧
      (d.anchors nodes)[n.id]? = some (decide (d.ruling n = .joined), anchor) := by
    intro n hn
    obtain ⟨_, -, anchor, hclimbs, hknown⟩ :=
      d.exists_climbsTo htree.id_eq htree.parentBelow n hn
    obtain ⟨hanchored, hisPlace⟩ := hclimbs.anchoredTo htree
    exact ⟨anchor, hisPlace, htree.chainAt_parent hn ▸ hanchored, hknown⟩
  rw [joiningRoots, List.mem_filterMap]
  constructor
  · rintro ⟨⟨joined, anchor⟩, hmem, hif⟩
    obtain ⟨i, hi⟩ := List.mem_iff_getElem?.1 hmem
    obtain ⟨n, hn⟩ : ∃ n, nodes[i]? = some n := by
      have hlt := (List.getElem?_eq_some_iff.1 hi).1
      rw [length_anchors] at hlt
      exact ⟨_, List.getElem?_eq_getElem hlt⟩
    have hnmem := List.mem_of_getElem? hn
    obtain ⟨anchor', -, hanchored, hknown⟩ := hanchor n hnmem
    rw [htree.id_eq i n hn, hi] at hknown
    obtain ⟨rfl, rfl⟩ := Prod.mk.inj (Option.some.inj hknown)
    split at hif
    · next hjoined =>
      obtain rfl := Option.some.inj hif
      exact ⟨n, hnmem, of_decide_eq_true hjoined, hanchored⟩
    · cases hif
  · rintro ⟨n, hn, hjoined, hanchored⟩
    obtain ⟨anchor, hisPlace, hanchored', hknown⟩ := hanchor n hn
    obtain rfl : anchor = place :=
      htree.eq_of_chainAt hisPlace hplace (hanchored'.unique hanchored)
    exact ⟨_, List.mem_of_getElem? hknown, by rw [if_pos (decide_eq_true hjoined)]⟩

/-! ### Choices -/

/-- How every relation is loaded was chosen by the root of the group of its owners. -/
def IsChosen (d : StrategyDefaults) (joining : List (Option Nat))
    (relations : List PlannedRelation) (groups : List LoadGroup) : Prop :=
  ∀ r ∈ relations,
    d.choose joining (groupRoot groups (ownerGroup relations r.node)) r.node =
      (r.strategy, r.upgraded)

/-- One more relation changes nothing that was chosen, as the groups keep their roots. -/
theorem IsChosen.concat {joining : List (Option Nat)} {relations : List PlannedRelation}
    {groups groups' : List LoadGroup} {r : PlannedRelation}
    (h : d.IsChosen joining relations groups) (hgrouped : IsGrouped relations groups)
    (hparent : ParentBelow relations.length r.node)
    (hroots : ∀ k < groups.length, groupRoot groups' k = groupRoot groups k)
    (hr : d.choose joining (groupRoot groups (ownerGroup relations r.node)) r.node =
      (r.strategy, r.upgraded)) :
    d.IsChosen joining (relations ++ [r]) groups' := by
  have hsame : ∀ s : PlannedRelation, ParentBelow relations.length s.node →
      groupRoot groups' (ownerGroup (relations ++ [r]) s.node) =
        groupRoot groups (ownerGroup relations s.node) := fun s hs => by
    rw [ownerGroup_append hs, hroots _ (hgrouped.ownerGroup_lt _)]
  refine List.forall_mem_append.2 ⟨fun s hs => ?_, List.forall_mem_singleton.2 ?_⟩
  · rw [hsame s (hgrouped.parentBelow hs)]
    exact h s hs
  · rw [hsame r hparent]
    exact hr

/-- Placing a node keeps what was chosen. -/
theorem isChosen_place {joining : List (Option Nat)} {s : Selection} {n : Node}
    (h : d.IsChosen joining s.relations s.groups) (hgrouped : IsGrouped s.relations s.groups)
    (hparent : ParentBelow s.relations.length n) :
    d.IsChosen joining (d.place joining s n).relations (d.place joining s n).groups := by
  simp only [StrategyDefaults.place]
  split
  · next hchoose =>
    exact h.concat hgrouped hparent (fun k _ => IsGrouped.root_modify _ _ k _) rfl
  · next hchoose =>
    refine h.concat hgrouped hparent (fun k hk => ?_) rfl
    rw [groupRoot, groupRoot, List.getElem?_append_left hk]

/-- In a selected plan every relation is loaded as it is chosen by the root of the group of
    its owners. -/
theorem choose_select (d : StrategyDefaults) {g : Graph} (htree : Graph.IsTree Q c root g.nodes) :
    d.IsChosen (d.joiningRoots g.nodes) (d.select g).relations (d.select g).groups :=
  (d.select_induct htree.id_eq htree.parentBelow (List.forall_mem_nil _)
    fun _ _ hgrouped hparent h => isChosen_place h hgrouped hparent).2.2

end StrategyDefaults

end EntityFetch
