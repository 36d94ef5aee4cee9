import EntityFetch.Record.Assemble
import EntityFetch.Proofs.Assoc
import EntityFetch.Proofs.Success

/-!
# Putting records together

The records of one row are put below their owners, the last one first. What comes
out satisfies one equation (`CompiledStatement.getElem?_linkAll`): at every slot there
is the record that was read, with the slots that start there as its relations in
their order, each with what came out at that slot.
-/

namespace EntityFetch

/-- The slots that start at one, with the names of their relations. -/
def childSlots (slots : List Slot) (i : Nat) : List (Nat × String) :=
  slots.zipIdx.filterMap fun s =>
    s.1.link.bind fun l => if l.parent = i then some (s.2, l.relation) else none

theorem mem_childSlots {slots : List Slot} {i k : Nat} {name : String} :
    (k, name) ∈ childSlots slots i ↔
      ∃ s l, slots[k]? = some s ∧ s.link = some l ∧ l.parent = i ∧ l.relation = name := by
  rw [childSlots, List.mem_filterMap]
  constructor
  · rintro ⟨⟨s, k'⟩, hmem, h⟩
    obtain ⟨l, hl, h⟩ := Option.bind_eq_some_iff.1 h
    split at h
    · next hi =>
      obtain ⟨rfl, rfl⟩ := Prod.mk.inj (Option.some.inj h)
      exact ⟨s, l, List.mem_zipIdx_iff_getElem?.1 hmem, hl, hi, rfl⟩
    · exact nomatch h
  · rintro ⟨s, l, hs, hl, rfl, rfl⟩
    exact ⟨(s, k), List.mem_zipIdx_iff_getElem?.2 hs, by rw [hl]; simp⟩

/-- The slots that start at one are listed in order. -/
theorem childSlots_sorted (slots : List Slot) (i : Nat) :
    (childSlots slots i).Pairwise fun c d => c.1 < d.1 := by
  have hplaces : slots.zipIdx.Pairwise fun p q => p.2 < q.2 := by
    rw [← List.pairwise_map, List.zipIdx_map_snd]
    exact List.pairwise_lt_range'
  refine hplaces.filterMap _ ?_
  rintro ⟨s, k⟩ ⟨s', k'⟩ hlt c hc c' hc'
  obtain ⟨l, -, hc⟩ := Option.bind_eq_some_iff.1 hc
  obtain ⟨l', -, hc'⟩ := Option.bind_eq_some_iff.1 hc'
  split at hc
  · split at hc'
    · rw [← Option.some.inj hc, ← Option.some.inj hc']
      exact hlt
    · exact nomatch hc'
  · exact nomatch hc

theorem childSlots_append (slots : List Slot) (s : Slot) (i : Nat) :
    childSlots (slots ++ [s]) i = childSlots slots i ++
      (s.link.bind fun l => if l.parent = i then some (slots.length, l.relation) else none).toList := by
  rw [childSlots, List.zipIdx_append, List.filterMap_append, childSlots]
  congr 1
  simp only [List.zipIdx_singleton, Nat.zero_add, List.filterMap_cons, List.filterMap_nil]
  cases s.link.bind fun l => if l.parent = i then some (slots.length, l.relation) else none <;> rfl

/-- A slot is listed once where it starts. -/
theorem eq_of_mem_childSlots {slots : List Slot} {i : Nat} {c d : Nat × String}
    (hc : c ∈ childSlots slots i) (hd : d ∈ childSlots slots i) (h : c.1 = d.1) : c = d := by
  obtain ⟨s, l, hs, hl, -, hname⟩ := mem_childSlots.1 hc
  obtain ⟨s', l', hs', hl', -, hname'⟩ := mem_childSlots.1 hd
  rw [← h, hs] at hs'
  obtain rfl := Option.some.inj hs'
  obtain rfl := Option.some.inj (hl.symm.trans hl')
  exact Prod.ext h (hname.symm.trans hname')

/-- Slots of which each starts at an earlier one, and those that start at one have
    different names. -/
structure IsLinked (slots : List Slot) : Prop where
  parent_lt : ∀ (k : Nat) (s : Slot) (l : SlotLink),
    slots[k]? = some s → s.link = some l → l.parent < k
  names_nodup : ∀ i : Nat, ((childSlots slots i).map Prod.snd).Nodup

/-- The name of a slot is new among those before it that start where it does. -/
theorem IsLinked.name_new {before rest : List Slot} {s : Slot} {l : SlotLink}
    (h : IsLinked (before ++ [s] ++ rest)) (hl : s.link = some l) :
    l.relation ∉ (childSlots before l.parent).map Prod.snd := by
  have hnodup := h.names_nodup l.parent
  rw [childSlots, List.zipIdx_append, List.filterMap_append] at hnodup
  have hbefore := hnodup.sublist ((List.sublist_append_left _ _).map Prod.snd)
  rw [← childSlots, childSlots_append, hl, List.map_append, List.nodup_append] at hbefore
  exact fun hmem => hbefore.2.2 _ hmem _ (by simp) rfl

namespace CompiledStatement

variable {slots : List Slot} {rs : List (Option Record)}

/-- What linking a slot changes. -/
theorem getElem?_link (s : Slot) (child : Option Record) (rs : List (Option Record)) (i : Nat) :
    (link s child rs)[i]? = match s.link with
      | none => rs[i]?
      | some l =>
        if l.parent = i then rs[i]?.map (Option.map (·.setRelation l.relation (.one child)))
        else rs[i]? := by
  unfold link
  cases s.link with
  | none => rfl
  | some l =>
    simp only [List.getElem?_modify]
    split
    · rfl
    · exact Option.map_id' ..

/-- A slot that does not start at a record leaves it as it is. -/
theorem getElem?_link_of_ne {s : Slot} {i : Nat} (h : ∀ l, s.link = some l → l.parent ≠ i)
    (child : Option Record) (rs : List (Option Record)) : (link s child rs)[i]? = rs[i]? := by
  rw [getElem?_link]
  split
  · rfl
  · next l hl => exact if_neg (h l hl)

/-- A record with what is found at some slots as its relations. -/
def withChildren (cs : List (Nat × String)) (found : Nat → Option Record) (r : Record) : Record :=
  { r with relations := cs.map fun c => (c.2, .one (found c.1)) }

theorem withChildren_congr {cs : List (Nat × String)} {found found' : Nat → Option Record}
    (h : ∀ c ∈ cs, found c.1 = found' c.1) (r : Record) :
    withChildren cs found r = withChildren cs found' r := by
  rw [withChildren, List.map_congr_left fun c hc => by rw [h c hc]]
  rfl

/-- A relation that has its place gets what was found for it. -/
theorem setRelation_withChildren {cs : List (Nat × String)} (hnodup : (cs.map Prod.snd).Nodup)
    {c : Nat × String} (hc : c ∈ cs) (found found' : Nat → Option Record)
    (h : ∀ c' ∈ cs, c' ≠ c → found c'.1 = found' c'.1) (r : Record) :
    (withChildren cs found r).setRelation c.2 (.one (found' c.1)) = withChildren cs found' r := by
  rw [Record.setRelation, withChildren, Assoc.insert_map hnodup hc]
  refine congrArg (fun rels => { r with relations := rels }) (List.map_congr_left fun c' hc' => ?_)
  by_cases heq : c' = c
  · rw [heq, beq_self_eq_true, if_pos rfl]
  · have hname : ¬ c'.2 = c.2 := fun hname => heq (List.inj_on_of_nodup_map hnodup hc' hc hname)
    rw [if_neg (by simpa using hname), h c' hc' heq]

/-- A relation with a new name comes after those that are there. -/
theorem setRelation_concat {cs : List (Nat × String)} {c : Nat × String}
    (hnew : c.2 ∉ cs.map Prod.snd) (found : Nat → Option Record) (r : Record) :
    (withChildren cs found r).setRelation c.2 (.one (found c.1)) =
      withChildren (cs ++ [c]) found r := by
  have hkeys : c.2 ∉ Assoc.keys
      (cs.map fun c => (c.2, (Related.one (found c.1) : Related Record))) := by
    rwa [Assoc.keys, List.map_map]
  rw [withChildren, Record.setRelation, Assoc.insert_of_not_mem _ hkeys, withChildren,
    List.map_append]
  rfl

/-- The relations get their places in the order of the slots. -/
theorem getElem?_placed (h : IsLinked slots) (hrs : ∀ r, some r ∈ rs → r.relations = [])
    (i : Nat) : (slots.foldl (fun rs s => link s none rs) rs)[i]? =
      rs[i]?.map (Option.map (withChildren (childSlots slots i) fun _ => none)) := by
  have hplaced : slots <+: slots → ∀ i, (slots.foldl (fun rs s => link s none rs) rs)[i]? =
      rs[i]?.map (Option.map (withChildren (childSlots slots i) fun _ => none)) := by
    refine foldl_induct (fun before st => before <+: slots → ∀ i, st[i]? =
      rs[i]?.map (Option.map (withChildren (childSlots before i) fun _ => none))) ?_ ?_
    · intro _ i
      cases hi : rs[i]? with
      | none => rfl
      | some o =>
        cases o with
        | none => rfl
        | some r =>
          obtain ⟨entity, fields, relations⟩ := r
          obtain rfl : relations = [] := hrs _ (List.mem_of_getElem? hi)
          rfl
    · intro before s st hs ih hpre i
      rw [getElem?_link, ih ((List.prefix_append before [s]).trans hpre), childSlots_append]
      obtain ⟨rest, rfl⟩ := hpre
      cases hl : s.link with
      | none => simp
      | some l =>
        -- Only the record of the parent gets a place, under a name that it does not have yet.
        by_cases hp : l.parent = i
        · subst hp
          simp only [if_true, Option.map_map, Option.map_comp_map, Option.bind_some,
            Option.toList_some]
          congr 2
          funext r
          exact setRelation_concat (c := (before.length, l.relation)) (h.name_new hl)
            (fun _ => none) r
        · simp [hp]
  exact hplaced (List.prefix_refl _) i

/-- Records of which those from a slot on are linked: each has what is put together at the
    slots that start there as its relations. -/
def IsLinkedFrom (slots : List Slot) (rs st : List (Option Record)) (m : Nat) : Prop :=
  ∀ i : Nat, st[i]? = rs[i]?.map (Option.map (withChildren (childSlots slots i) fun k =>
    if m ≤ k then st[k]?.join else none))

/-- At first no record is linked. -/
theorem isLinkedFrom_length (h : IsLinked slots) (hrs : ∀ r, some r ∈ rs → r.relations = []) :
    IsLinkedFrom slots rs (slots.foldl (fun rs s => link s none rs) rs) slots.length := by
  intro i
  rw [getElem?_placed h hrs]
  congr 2
  funext r
  refine withChildren_congr (fun c hc => ?_) r
  obtain ⟨s, l, hs, -⟩ := mem_childSlots.1 hc
  have hlt := (List.getElem?_eq_some_iff.1 hs).1
  exact (if_neg (by omega)).symm

/-- Linking a slot changes no record from the slot on. -/
theorem getElem?_link_of_le (h : IsLinked slots) {m : Nat} {s : Slot} (hs : slots[m]? = some s)
    (child : Option Record) (st : List (Option Record)) {k : Nat} (hk : m ≤ k) :
    (link s child st)[k]? = st[k]? :=
  getElem?_link_of_ne
    (fun l hl => Nat.ne_of_lt (Nat.lt_of_lt_of_le (h.parent_lt m s l hs hl) hk)) child st

/-- What is found at the slots that are linked is what was found before one more was, and
    what is there at that one. -/
theorem found_link (h : IsLinked slots) {m : Nat} {s : Slot} (hs : slots[m]? = some s)
    (child : Option Record) (st : List (Option Record)) (k : Nat) :
    (if m ≤ k then (link s child st)[k]?.join else none) =
      if k = m then st[m]?.join else if m + 1 ≤ k then st[k]?.join else none := by
  by_cases hle : m ≤ k
  · rw [if_pos hle, getElem?_link_of_le h hs child st hle]
    by_cases heq : k = m
    · rw [if_pos heq, heq]
    · rw [if_neg heq, if_pos (by omega)]
  · rw [if_neg hle, if_neg (by omega), if_neg (by omega)]

/-- Linking one more slot. -/
theorem IsLinkedFrom.link {st : List (Option Record)} {m : Nat} (h : IsLinked slots)
    (hst : IsLinkedFrom slots rs st (m + 1)) {s : Slot} (hs : slots[m]? = some s) :
    IsLinkedFrom slots rs (link s (st[m]?.join) st) m := by
  intro i
  simp only [found_link h hs]
  by_cases hchild : ∃ l, s.link = some l ∧ l.parent = i
  · obtain ⟨l, hl, rfl⟩ := hchild
    have hmem : (m, l.relation) ∈ childSlots slots l.parent :=
      mem_childSlots.2 ⟨s, l, hs, hl, rfl, rfl⟩
    rw [getElem?_link, hl, hst]
    simp only [if_true, Option.map_map, Option.map_comp_map]
    congr 2
    funext r
    -- Of the relations of the owner only that of the slot is found anew.
    have hset := setRelation_withChildren (h.names_nodup l.parent) hmem
      (fun k => if m + 1 ≤ k then st[k]?.join else none)
      (fun k => if k = m then st[m]?.join else if m + 1 ≤ k then st[k]?.join else none)
      (fun c hc hne => (if_neg fun heq => hne (eq_of_mem_childSlots hc hmem heq)).symm) r
    rwa [if_pos rfl] at hset
  · rw [getElem?_link_of_ne (fun l hl hi => hchild ⟨l, hl, hi⟩), hst]
    congr 2
    funext r
    refine withChildren_congr (fun c hc => (if_neg fun heq => ?_).symm) r
    obtain ⟨t, l, ht, hl, hparent, -⟩ := mem_childSlots.1 hc
    rw [heq, hs] at ht
    obtain rfl := Option.some.inj ht
    exact hchild ⟨l, hl, hparent⟩

/-- What is put together: at every slot the record that was read, with what is put
    together at the slots that start there as its relations. -/
theorem getElem?_linkAll (h : IsLinked slots) (hrs : ∀ r, some r ∈ rs → r.relations = [])
    (i : Nat) : (linkAll slots rs)[i]? = rs[i]?.map (Option.map
      (withChildren (childSlots slots i) fun k => (linkAll slots rs)[k]?.join)) := by
  -- The slots are linked from the last one on.
  have hsuffix : ∀ post pre : List (Slot × Nat), pre ++ post = slots.zipIdx →
      IsLinkedFrom slots rs (post.foldr (fun s rs => link s.1 (rs[s.2]?.join) rs)
        (slots.foldl (fun rs s => link s none rs) rs)) pre.length := by
    intro post
    induction post with
    | nil =>
      intro pre hpre
      have hlen : pre.length = slots.length := by
        rw [← List.length_zipIdx (l := slots), ← hpre, List.append_nil]
      rw [hlen]
      exact isLinkedFrom_length h hrs
    | cons p post ih =>
      obtain ⟨s, k⟩ := p
      intro pre hpre
      have hget : slots.zipIdx[pre.length]? = some (s, k) := getElem?_of_append_cons hpre
      rw [List.getElem?_zipIdx, Nat.zero_add] at hget
      obtain ⟨t, ht, heq⟩ := Option.map_eq_some_iff.1 hget
      obtain ⟨rfl, rfl⟩ := Prod.mk.inj heq
      have hrest := ih (pre ++ [(t, pre.length)]) (by rw [← hpre, List.append_assoc]; rfl)
      rw [List.length_append, List.length_singleton] at hrest
      exact hrest.link h ht
  exact hsuffix slots.zipIdx [] rfl i

end CompiledStatement

end EntityFetch
