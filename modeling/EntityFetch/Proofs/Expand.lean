import EntityFetch.Proofs.Address
import EntityFetch.Proofs.Graph
import Mathlib.Data.List.Perm.Subperm

/-!
# Eager relations

The eager relations are found by a loop that goes through the nodes one after the other and
adds what is below each at the end of the list, so that it comes to the new nodes as well
(`Graph.Expands`). It is bound to end: along the chain of a node all relations are different
from the first one that was added (`Graph.HasTail`), and a catalog has only so many
(`Graph.exists_expandFrom`). When it has ended, everything has been added below every node
that it went through (`Graph.Expands.exists_added`).
-/

namespace EntityFetch

namespace Graph

/-- The loop through the nodes from a place on, which adds the eager relations below each of
    them, ends with some nodes. -/
inductive Expands (c : Catalog) (maxDepth : Nat) : Nat → List Node → List Node → Prop
  | stop {cursor : Nat} {nodes : List Node} :
      nodes[cursor]? = none → Expands c maxDepth cursor nodes nodes
  | step {cursor : Nat} {nodes next final : List Node} {n : Node} :
      nodes[cursor]? = some n → expandNode c maxDepth nodes n = .ok next →
        Expands c maxDepth (cursor + 1) next final → Expands c maxDepth cursor nodes final

variable {c : Catalog} {maxDepth k : Nat} {nodes final : List Node}

/-- The loop ends in one way. -/
theorem Expands.unique {cursor : Nat} {final' : List Node}
    (h : Expands c maxDepth cursor nodes final) (h' : Expands c maxDepth cursor nodes final') :
    final = final' := by
  induction h with
  | stop hnone =>
    cases h' with
    | stop => rfl
    | step hn => cases hnone.symm.trans hn
  | step hn hexpand _ ih =>
    cases h' with
    | stop hnone => cases hnone.symm.trans hn
    | step hn' hexpand' h' =>
      obtain rfl := Option.some.inj (hn.symm.trans hn')
      obtain rfl := Except.ok.inj (hexpand.symm.trans hexpand')
      exact ih h'

/-! ### Below one node -/

/-- A node that was added for an eager relation. -/
structure IsAdded (maxDepth : Nat) (n : Node) : Prop where
  not_requested : n.requested = false
  eager : n.relation.eager
  /-- The relation is not on the way to itself. -/
  isNew : ∀ s ∈ n.ancestors, isSame n.relation s = false
  lt : n.ancestors.length < maxDepth

/-- Whether there is a node for every eager relation of an entity at the end of a chain, if
    it is not too deep and not on the chain. -/
def HasEager (maxDepth : Nat) (nodes : List Node) (e : Entity) (chain : List Relation) : Prop :=
  chain.length < maxDepth → ∀ r ∈ e.eagerRelations, (∀ s ∈ chain, isSame r s = false) →
    ∃ n ∈ nodes, n.path = address (chain ++ [r])

theorem HasEager.mono {nodes' : List Node} {e : Entity} {chain : List Relation}
    (h : HasEager maxDepth nodes e chain) (hsub : ∀ n ∈ nodes, n ∈ nodes') :
    HasEager maxDepth nodes' e chain := by
  intro hlt r hr hnew
  obtain ⟨n, hn, hpath⟩ := h hlt r hr hnew
  exact ⟨n, hsub n hn, hpath⟩

/-- What is added for one eager relation, so that there is a node for it. -/
theorem exists_addEager {parent : Option Node} {r : Relation} (hr : r.eager)
    (hlt : ((parent.map Node.chain).getD []).length < maxDepth) (nodes : List Node) :
    ∃ added, addEager parent nodes r = nodes ++ added ∧
      (∀ n ∈ added, IsAdded maxDepth n ∧ n.ancestors = (parent.map Node.chain).getD [] ∧
        n.relation = r) ∧
      ((∀ s ∈ (parent.map Node.chain).getD [], isSame r s = false) →
        ∃ n ∈ nodes ++ added, n.path = address ((parent.map Node.chain).getD [] ++ [r])) := by
  rw [addEager]
  split
  · next hknown =>
    refine ⟨[], (List.append_nil _).symm, List.forall_mem_nil _, fun hnew => ?_⟩
    -- Nothing is added only if there is a node already, or the relation leads to itself.
    rw [Bool.or_eq_true, List.any_eq_true, List.any_eq_true] at hknown
    rcases hknown with ⟨n, hn, hpath⟩ | ⟨s, hs, hsame⟩
    · exact ⟨n, List.mem_append_left _ hn, beq_iff_eq.1 hpath⟩
    · exact absurd hsame (by rw [hnew s hs]; exact Bool.false_ne_true)
  · next hnone =>
    rw [Bool.or_eq_true, not_or, List.any_eq_true, List.any_eq_true] at hnone
    have hnew : ∀ s ∈ (parent.map Node.chain).getD [], isSame r s = false :=
      fun s hs => Bool.eq_false_iff.2 fun h => hnone.2 ⟨s, hs, h⟩
    exact ⟨[Node.below _ parent r false], rfl,
      List.forall_mem_singleton.2 ⟨⟨rfl, hr, hnew, hlt⟩, rfl, rfl⟩,
      fun _ => ⟨_, List.mem_append_right _ (List.mem_singleton_self _), rfl⟩⟩

/-- What is added below a node, or below the root. -/
theorem exists_expand (maxDepth : Nat) (e : Entity) (parent : Option Node) (nodes : List Node) :
    ∃ added, expand maxDepth e parent nodes = nodes ++ added ∧
      (∀ n ∈ added, IsAdded maxDepth n ∧ n.ancestors = (parent.map Node.chain).getD [] ∧
        n.relation ∈ e.eagerRelations) ∧
      HasEager maxDepth (nodes ++ added) e ((parent.map Node.chain).getD []) := by
  have hdepth : (parent.map Node.depth).getD 0 = ((parent.map Node.chain).getD []).length := by
    cases parent <;> rfl
  rw [expand, hdepth]
  split
  · next hle =>
    exact ⟨[], (List.append_nil _).symm, List.forall_mem_nil _, fun hlt => absurd hlt (by omega)⟩
  · next hle =>
    have hlt := Nat.lt_of_not_le hle
    -- What is said of all eager relations holds of those so far.
    have hfold : ∃ added, e.eagerRelations.foldl (addEager parent) nodes = nodes ++ added ∧
        (∀ n ∈ added, IsAdded maxDepth n ∧ n.ancestors = (parent.map Node.chain).getD [] ∧
          n.relation ∈ e.eagerRelations) ∧
        ∀ r ∈ e.eagerRelations, (∀ s ∈ (parent.map Node.chain).getD [], isSame r s = false) →
          ∃ n ∈ nodes ++ added, n.path = address ((parent.map Node.chain).getD [] ++ [r]) := by
      refine foldl_induct (fun before nodes' => ∃ added, nodes' = nodes ++ added ∧
        (∀ n ∈ added, IsAdded maxDepth n ∧ n.ancestors = (parent.map Node.chain).getD [] ∧
          n.relation ∈ e.eagerRelations) ∧
        ∀ r ∈ before, (∀ s ∈ (parent.map Node.chain).getD [], isSame r s = false) →
          ∃ n ∈ nodes ++ added, n.path = address ((parent.map Node.chain).getD [] ++ [r]))
        ⟨[], (List.append_nil _).symm, List.forall_mem_nil _, List.forall_mem_nil _⟩ ?_
      rintro before r _ hr ⟨added, rfl, hall, hfound⟩
      obtain ⟨more, hmore, hall', hfound'⟩ :=
        exists_addEager (List.mem_filter.1 hr).2 hlt (nodes ++ added)
      rw [List.append_assoc] at hmore hfound'
      refine ⟨added ++ more, hmore, List.forall_mem_append.2 ⟨hall, fun n hn => ?_⟩,
        fun s hs hnew => ?_⟩
      · obtain ⟨hn, hancestors, hrelation⟩ := hall' n hn
        exact ⟨hn, hancestors, hrelation ▸ hr⟩
      · rcases List.mem_append.1 hs with hs | hs
        · obtain ⟨n, hn, hpath⟩ := hfound s hs hnew
          exact ⟨n, List.append_assoc nodes added more ▸ List.mem_append_left _ hn, hpath⟩
        · obtain rfl := List.mem_singleton.1 hs
          exact hfound' hnew
    obtain ⟨added, hadded, hall, hfound⟩ := hfold
    exact ⟨added, hadded, hall, fun _ => hfound⟩

/-! ### The loop -/

/-- What the loop adds, and that nothing is left to add below the nodes through which it
    went. -/
theorem Expands.exists_added {cursor : Nat} (h : Expands c maxDepth cursor nodes final) :
    ∃ added, final = nodes ++ added ∧ (∀ n ∈ added, IsAdded maxDepth n) ∧
      ∀ i n, cursor ≤ i → final[i]? = some n →
        ∃ t, c.entity n.relation.target = .ok t ∧ HasEager maxDepth final t n.chain := by
  induction h with
  | @stop cursor nodes hnone =>
    refine ⟨[], (List.append_nil _).symm, List.forall_mem_nil _, fun i n hi hn => ?_⟩
    have hlt := (List.getElem?_eq_some_iff.1 hn).1
    have hle := List.getElem?_eq_none_iff.1 hnone
    omega
  | @step cursor nodes next final n hn hexpand _ ih =>
    obtain ⟨t, ht, hexpand⟩ := bind_eq_ok.1 hexpand
    obtain ⟨added, hadded, hall, heager⟩ := exists_expand maxDepth t (some n) nodes
    obtain rfl : nodes ++ added = next := hadded.symm.trans (pure_eq_ok.1 hexpand)
    obtain ⟨added', rfl, hall', heager'⟩ := ih
    refine ⟨added ++ added', List.append_assoc .., List.forall_mem_append.2
      ⟨fun m hm => (hall m hm).1, hall'⟩, fun i m hi hm => ?_⟩
    -- The loop sees to the node at its place, and the rest of it to those behind.
    rcases Nat.eq_or_lt_of_le hi with rfl | hlt
    · have hlength := (List.getElem?_eq_some_iff.1 hn).1
      rw [List.append_assoc, List.getElem?_append_left hlength, hn] at hm
      obtain rfl := Option.some.inj hm
      exact ⟨t, ht, heager.mono fun n hn => List.mem_append_left _ hn⟩
    · exact heager' i m hlt hm

/-! ### Its end -/

/-- Whether the last relations of the chain of a node are different eager relations of the
    catalog, as many as are asked for. -/
def HasTail (c : Catalog) (k : Nat) (n : Node) : Prop :=
  ∃ front tail, n.chain = front ++ tail ∧ tail.length = k ∧ tail.Nodup ∧
    ∀ r ∈ tail, r ∈ c.entities.flatMap Entity.eagerRelations

theorem hasTail_zero (c : Catalog) (n : Node) : HasTail c 0 n :=
  ⟨n.chain, [], (List.append_nil _).symm, rfl, List.nodup_nil, List.forall_mem_nil _⟩

/-- There are no more different eager relations than the catalog has. -/
theorem HasTail.lt_generations {n : Node} (h : HasTail c k n) : k < generations c := by
  obtain ⟨front, tail, -, rfl, hnodup, hmem⟩ := h
  exact Nat.lt_succ_of_le (hnodup.subperm hmem).length_le

/-- One more relation that is not on the chain. -/
theorem HasTail.succ {m n : Node} (h : HasTail c k m) (hn : IsAdded maxDepth n)
    (hancestors : n.ancestors = m.chain)
    (heager : n.relation ∈ c.entities.flatMap Entity.eagerRelations) : HasTail c (k + 1) n := by
  obtain ⟨front, tail, hchain, hlength, hnodup, hmem⟩ := h
  have hnew : n.relation ∉ tail := by
    intro hin
    have hsame := hn.isNew n.relation
      (hancestors ▸ hchain ▸ List.mem_append_right front hin)
    simp [isSame] at hsame
  refine ⟨front, tail ++ [n.relation], ?_, by simp [hlength], ?_, ?_⟩
  · rw [Node.chain, hancestors, hchain, List.append_assoc]
  · rw [List.nodup_append]
    exact ⟨hnodup, List.nodup_singleton _, fun r hr s hs heq =>
      hnew (List.mem_singleton.1 hs ▸ heq ▸ hr)⟩
  · exact List.forall_mem_append.2 ⟨hmem, List.forall_mem_singleton.2 heager⟩

/-- Whether the relation of a node leads to an entity. -/
def HasTarget (c : Catalog) (n : Node) : Prop :=
  ∃ t, c.entity n.relation.target = .ok t

theorem hasTarget_of_eager (hc : c.IsSound) {e : Entity} (he : e ∈ c.entities) {n : Node}
    (hn : n.relation ∈ e.eagerRelations) : HasTarget c n :=
  hc.target e he _ (List.mem_filter.1 hn).1

/-- A generation is expanded as the loop does it, one node after the other. -/
theorem exists_foldlM_expandNode (maxDepth : Nat) (hc : c.IsSound) {generation : List Node}
    {cursor : Nat} (hgen : generation <+: nodes.drop cursor) (htarget : ∀ n ∈ nodes, HasTarget c n)
    (htail : ∀ n ∈ generation, HasTail c k n) :
    ∃ added, generation.foldlM (expandNode c maxDepth) nodes = .ok (nodes ++ added) ∧
      (∀ n ∈ added, HasTarget c n ∧ HasTail c (k + 1) n) ∧
      ∀ final, Expands c maxDepth (cursor + generation.length) (nodes ++ added) final →
        Expands c maxDepth cursor nodes final := by
  induction generation generalizing cursor nodes with
  | nil =>
    refine ⟨[], ?_, List.forall_mem_nil _, fun final h => ?_⟩
    · rw [List.append_nil]
      rfl
    · rwa [List.append_nil] at h
  | cons n generation ih =>
    rw [List.forall_mem_cons] at htail
    obtain ⟨rest, hrest⟩ := hgen
    have hn : nodes[cursor]? = some n := by
      rw [← List.head?_drop, ← hrest]
      rfl
    obtain ⟨t, ht⟩ := htarget n (List.mem_of_getElem? hn)
    obtain ⟨added, hadded, hall, -⟩ := exists_expand maxDepth t (some n) nodes
    have htmem : t ∈ c.entities := (Catalog.entity_eq_ok ht).1
    have hexpand : expandNode c maxDepth nodes n = .ok (nodes ++ added) := by
      rw [expandNode, ht, ← hadded]
      rfl
    -- The nodes that are added come after the generation, which stays where it is.
    have hgen' : generation <+: (nodes ++ added).drop (cursor + 1) := by
      have hlt := (List.getElem?_eq_some_iff.1 hn).1
      rw [List.drop_append_of_le_length hlt, ← List.tail_drop, ← hrest]
      exact (List.prefix_append generation rest).trans (List.prefix_append _ _)
    have htarget' : ∀ m ∈ nodes ++ added, HasTarget c m := List.forall_mem_append.2
      ⟨htarget, fun m hm => hasTarget_of_eager hc htmem (hall m hm).2.2⟩
    obtain ⟨added', hfold, hall', hloop⟩ := ih hgen' htarget' htail.2
    refine ⟨added ++ added', ?_, List.forall_mem_append.2 ⟨fun m hm => ?_, hall'⟩,
      fun final h => ?_⟩
    · rw [List.foldlM_cons, hexpand, ← List.append_assoc]
      exact hfold
    · obtain ⟨hm, hancestors, heager⟩ := hall m hm
      exact ⟨hasTarget_of_eager hc htmem heager, htail.1.succ hm hancestors
        (List.mem_flatMap.2 ⟨t, htmem, heager⟩)⟩
    · refine .step hn hexpand (hloop final ?_)
      rwa [List.append_assoc, Nat.add_right_comm]

/-- The loop stops where no nodes are left. -/
theorem Expands.of_drop_eq_nil {cursor : Nat} (h : nodes.drop cursor = []) :
    Expands c maxDepth cursor nodes nodes :=
  .stop (List.getElem?_eq_none_iff.2 (List.drop_eq_nil_iff.1 h))

/-- The generations are enough for the loop to end. -/
theorem exists_expandFrom (maxDepth : Nat) (hc : c.IsSound) {left start : Nat}
    (hleft : k + left = generations c) (htarget : ∀ n ∈ nodes, HasTarget c n)
    (htail : ∀ n ∈ nodes.drop start, HasTail c k n) :
    ∃ final, expandFrom c maxDepth start nodes left = .ok final ∧
      Expands c maxDepth start nodes final := by
  induction left generalizing k start nodes with
  | zero =>
    refine ⟨nodes, rfl, .of_drop_eq_nil ?_⟩
    -- A node that is left would have more eager relations on its chain than there are.
    by_contra hne
    obtain ⟨n, hn⟩ := List.exists_mem_of_ne_nil _ hne
    have hlt := (htail n hn).lt_generations
    omega
  | succ left ih =>
    rw [expandFrom]
    split
    · next hnil => exact ⟨nodes, rfl, .of_drop_eq_nil hnil⟩
    · next hne =>
      obtain ⟨added, hfold, hall, hloop⟩ :=
        exists_foldlM_expandNode maxDepth hc (List.prefix_refl _) htarget htail
      -- The next generation is what was added, and the loop has come to it.
      have hlength : start + (nodes.drop start).length = nodes.length := by
        have hlt : start < nodes.length := by
          by_contra hge
          exact hne (List.drop_eq_nil_iff.2 (Nat.le_of_not_lt hge))
        rw [List.length_drop]
        omega
      have hleft' : k + 1 + left = generations c := by omega
      have htarget' : ∀ n ∈ nodes ++ added, HasTarget c n :=
        List.forall_mem_append.2 ⟨htarget, fun n hn => (hall n hn).1⟩
      have htail' : ∀ n ∈ (nodes ++ added).drop nodes.length, HasTail c (k + 1) n := by
        rw [List.drop_left]
        exact fun n hn => (hall n hn).2
      obtain ⟨final, hfinal, hexpands⟩ := ih hleft' htarget' htail'
      refine ⟨final, ?_, hloop final (hlength ▸ hexpands)⟩
      rw [hfold]
      exact hfinal

end Graph

end EntityFetch
