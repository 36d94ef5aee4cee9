import EntityFetch.Proofs.Anchor
import EntityFetch.Proofs.Closure
import Mathlib.Data.List.Induction

/-!
# Paths in another order

The order in which paths are asked for, and whether they are asked for more than once, makes
a difference to the numbers of nodes, and to nothing else. Who asks for more loads more
(`Graph.IsClosure.mem_chain`), and two lists of paths that ask for the same names lead to the
same nodes up to their numbers (`Graph.Rearranged`). In such graphs the same relations are
joined by rule, and so the same is chosen for the same relation, if its owners are in groups
that start at the same chain (`StrategyDefaults.choose_congr`).
-/

namespace EntityFetch

namespace Graph

variable {Q : Entity → Relation → Prop} {c : Catalog} {e : Entity} {maxDepth : Nat}
  {paths paths' : List RelationPath} {nodes nodes' : List Node}

/-! ### The same nodes -/

/-- Whether each path of a list starts one of another list. -/
def AreSteps (paths paths' : List RelationPath) : Prop :=
  ∀ p ∈ paths, ∃ q ∈ paths', p.segments <+: q.segments

instance (paths paths' : List RelationPath) : Decidable (AreSteps paths paths') :=
  inferInstanceAs (Decidable (∀ p ∈ paths, ∃ q ∈ paths', p.segments <+: q.segments))

theorem AreSteps.isAsked (h : AreSteps paths paths') {names : List String}
    (hnames : IsAsked paths names) : IsAsked paths' names := by
  obtain ⟨p, hp, hprefix⟩ := hnames
  obtain ⟨q, hq, hsteps⟩ := h p hp
  exact ⟨q, hq, hprefix.trans hsteps⟩

/-- What starts a path that is followed is followed. -/
theorem AreSteps.exists_isChain (h : AreSteps paths paths')
    (hpaths : ∀ p ∈ paths', p.segments.length ≤ maxDepth ∧
      ∃ rs, c.IsChain e rs ∧ rs.map Relation.name = p.segments) :
    ∀ p ∈ paths, p.segments.length ≤ maxDepth ∧
      ∃ rs, c.IsChain e rs ∧ rs.map Relation.name = p.segments := by
  intro p hp
  obtain ⟨q, hq, hprefix⟩ := h p hp
  obtain ⟨hle, rs, hrs, hnames⟩ := hpaths q hq
  have htake : c.IsChain e (rs.take p.segments.length) := by
    rw [← List.take_append_drop p.segments.length rs] at hrs
    exact hrs.of_append
  refine ⟨Nat.le_trans hprefix.length_le hle, _, htake, ?_⟩
  rw [List.map_take, hnames, ← List.prefix_iff_eq_take.1 hprefix]

/-- Whoever asks for more loads more. -/
theorem IsClosure.mem_chain (h : IsClosure c e maxDepth paths nodes)
    (h' : IsClosure c e maxDepth paths' nodes')
    (hasked : ∀ names, IsAsked paths names → IsAsked paths' names) {chain : List Relation}
    (hchain : chain ∈ nodes.map Node.chain) : chain ∈ nodes'.map Node.chain := by
  -- What is above a chain is shorter.
  induction chain using List.reverseRecOn with
  | nil =>
    obtain ⟨n, -, hn⟩ := List.mem_map.1 hchain
    exact absurd hn n.chain_ne_nil
  | append_singleton before r ih =>
    obtain ⟨n, hn, hnchain⟩ := List.mem_map.1 hchain
    have hr : c.IsChain e (before ++ [r]) := hnchain ▸ h.isChain n hn
    exact (h'.mem_iff before r hr).2 (((h.mem_iff before r hr).1 hchain).imp (hasked _)
      fun ⟨hlt, hbefore, heager⟩ => ⟨hlt, hbefore.imp_right ih, heager⟩)

/-- Two graphs have the same nodes up to their numbers. -/
def Rearranged (nodes nodes' : List Node) : Prop :=
  ∀ chain requested, (∃ n ∈ nodes, n.chain = chain ∧ n.requested = requested) ↔
    ∃ n ∈ nodes', n.chain = chain ∧ n.requested = requested

theorem Rearranged.symm (h : Rearranged nodes nodes') : Rearranged nodes' nodes :=
  fun chain requested => (h chain requested).symm

theorem Rearranged.exists_mem (h : Rearranged nodes nodes') {n : Node} (hn : n ∈ nodes) :
    ∃ n' ∈ nodes', n'.chain = n.chain ∧ n'.requested = n.requested :=
  (h n.chain n.requested).1 ⟨n, hn, rfl, rfl⟩

/-- Nodes with one chain are requested in both graphs or in none. -/
theorem Rearranged.requested_eq (h : Rearranged nodes nodes') (htree : IsTree Q c e nodes')
    {n n' : Node} (hn : n ∈ nodes) (hn' : n' ∈ nodes') (heq : n'.chain = n.chain) :
    n'.requested = n.requested := by
  obtain ⟨m, hm, hchain, hrequested⟩ := h.exists_mem hn
  rw [htree.eq_of_chain hn' hm (heq.trans hchain.symm)]
  exact hrequested

/-- The same names make the same nodes. -/
theorem IsClosure.rearranged (h : IsClosure c e maxDepth paths nodes)
    (h' : IsClosure c e maxDepth paths' nodes')
    (hasked : ∀ names, IsAsked paths names ↔ IsAsked paths' names) : Rearranged nodes nodes' := by
  -- The two lists play the same part.
  have himp : ∀ {paths paths' : List RelationPath} {nodes nodes' : List Node},
      IsClosure c e maxDepth paths nodes → IsClosure c e maxDepth paths' nodes' →
      (∀ names, IsAsked paths names ↔ IsAsked paths' names) → ∀ chain requested,
      (∃ n ∈ nodes, n.chain = chain ∧ n.requested = requested) →
        ∃ n ∈ nodes', n.chain = chain ∧ n.requested = requested := by
    rintro paths paths' nodes nodes' h h' hasked _ _ ⟨n, hn, rfl, rfl⟩
    obtain ⟨n', hn', hchain⟩ := List.mem_map.1
      (h.mem_chain h' (fun names => (hasked names).1) (List.mem_map_of_mem hn))
    refine ⟨n', hn', hchain, Bool.eq_iff_iff.2 ?_⟩
    rw [h.requested_iff n hn, h'.requested_iff n' hn', hchain, hasked]
  exact fun chain requested => ⟨himp h h' hasked chain requested,
    himp h' h (fun names => (hasked names).symm) chain requested⟩

end Graph

namespace StrategyDefaults

variable {Q : Entity → Relation → Prop} {c : Catalog} {e : Entity} {d : StrategyDefaults}
  {nodes nodes' : List Node} {place place' : Option Nat} {n n' : Node}

/-! ### The same choices -/

/-- What is settled about a relation depends on its chain and on whether it is requested. -/
theorem ruling_congr (d : StrategyDefaults) (hchain : n'.chain = n.chain)
    (hrequested : n'.requested = n.requested) : d.ruling n' = d.ruling n := by
  obtain ⟨-, hrelation⟩ := List.append_inj' hchain rfl
  rw [ruling, ruling, List.singleton_inj.1 hrelation, hrequested]

theorem joinsAt_congr (d : StrategyDefaults) (h : Graph.Rearranged nodes nodes') :
    d.JoinsAt nodes = d.JoinsAt nodes' := by
  have himp : ∀ {nodes nodes' : List Node}, Graph.Rearranged nodes nodes' → ∀ chain,
      d.JoinsAt nodes chain → d.JoinsAt nodes' chain := by
    rintro nodes nodes' h _ ⟨n, hn, rfl, hjoined⟩
    obtain ⟨n', hn', hchain, hrequested⟩ := h.exists_mem hn
    exact ⟨n', hn', hchain, d.ruling_congr hchain hrequested ▸ hjoined⟩
  ext chain
  exact ⟨himp h chain, himp h.symm chain⟩

/-- The groups that have a relation that is joined by rule have the same chains. -/
theorem mem_joiningRoots_congr (h : Graph.Rearranged nodes nodes')
    (htree : Graph.IsTree Q c e nodes) (htree' : Graph.IsTree Q c e nodes')
    (hplace : Graph.IsPlace nodes place) (hplace' : Graph.IsPlace nodes' place')
    (heq : Graph.chainAt nodes place = Graph.chainAt nodes' place') :
    place ∈ d.joiningRoots nodes ↔ place' ∈ d.joiningRoots nodes' := by
  rw [mem_joiningRoots_iff htree hplace, mem_joiningRoots_iff htree' hplace',
    d.joinsAt_congr h, heq]
  have himp : ∀ {nodes nodes' : List Node}, Graph.Rearranged nodes nodes' →
      ∀ {joins anchor}, (∃ n ∈ nodes, d.ruling n = .joined ∧ AnchoredTo joins n.ancestors anchor) →
        ∃ n ∈ nodes', d.ruling n = .joined ∧ AnchoredTo joins n.ancestors anchor := by
    rintro nodes nodes' h joins anchor ⟨n, hn, hjoined, hanchored⟩
    obtain ⟨n', hn', hchain, hrequested⟩ := h.exists_mem hn
    obtain ⟨hancestors, -⟩ := List.append_inj' hchain rfl
    exact ⟨n', hn', d.ruling_congr hchain hrequested ▸ hjoined, hancestors ▸ hanchored⟩
  exact ⟨himp h, himp h.symm⟩

/-- The same is chosen for the same relation if its owners are in groups with the same
    chain. -/
theorem choose_congr (h : Graph.Rearranged nodes nodes') (htree : Graph.IsTree Q c e nodes)
    (htree' : Graph.IsTree Q c e nodes') (hplace : Graph.IsPlace nodes place)
    (hplace' : Graph.IsPlace nodes' place')
    (heq : Graph.chainAt nodes place = Graph.chainAt nodes' place') (hn : n ∈ nodes)
    (hn' : n' ∈ nodes') (hchain : n'.chain = n.chain) :
    d.choose (d.joiningRoots nodes') place' n' = d.choose (d.joiningRoots nodes) place n := by
  have hcontains : (d.joiningRoots nodes').contains place' =
      (d.joiningRoots nodes).contains place := by
    rw [Bool.eq_iff_iff, List.contains_iff_mem, List.contains_iff_mem]
    exact (mem_joiningRoots_congr h htree htree' hplace hplace' heq).symm
  rw [choose, choose, d.ruling_congr hchain (h.requested_eq htree' hn hn' hchain), hcontains]

end StrategyDefaults

end EntityFetch
