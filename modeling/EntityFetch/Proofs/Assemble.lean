import EntityFetch.Proofs.Combination
import EntityFetch.Proofs.Link

/-!
# Assembled combinations

A combination that is written out is read back as the rows of which it consists:
every slot has the record of its row (`Slot.record`), unless there is nothing but
nulls there or its owner is absent. These records are put together below the
record of the root (`Reading.exists_isAssembled`).
-/

namespace EntityFetch

/-- The record of a row at a slot, which has nothing but nulls if there is no row. -/
def Slot.record (s : Slot) (o : Option TableRow) : Record :=
  { entity := s.entity, fields := Assoc.ofList (s.columns.map fun c => (c, cell o c)) }

/-- A slot whose columns are in a row is read as the record of what is there. -/
theorem Slot.read_eq_ok {s : Slot} {row : Row} {o : Option TableRow}
    (h : ∀ c ∈ s.columns, row.get? s.aliasName c = some (cell o c)) :
    s.read row = .ok (s.record o) := by
  unfold Slot.read
  rw [mapM_eq_ok_map fun c hc => by rw [h c hc]]
  rfl

/-- What a record has in a field is what the row has in the column. -/
theorem Slot.get?_record {s : Slot} {o : Option TableRow} {c : String} (hc : c ∈ s.columns) :
    (s.record o).get? c = some (cell o c) := by
  rw [Record.get?, Slot.record, Assoc.lookup_ofList_map, if_pos hc]

namespace CompiledStatement

/-- Without a row there is nothing but nulls. -/
theorem isBlank_record_none (s : Slot) : isBlank (s.record none) = true := by
  rw [isBlank, List.all_eq_true]
  intro e he
  rw [(Assoc.mem_ofList_map he).2]
  rfl

/-- A record with a value is not blank. -/
theorem isBlank_eq_false {r : Record} {field : String} {v : Value} (h : r.get? field = some v)
    (hv : v.isNull = false) : isBlank r = false := by
  rw [isBlank, List.all_eq_false]
  exact ⟨(field, v), Assoc.mem_of_lookup h, by simp [hv]⟩

/-- Whether a record counts, given those before: the root always does, any other
    only with an owner and a value. -/
def counts (rs : List (Option Record)) (s : Slot) (r : Record) : Bool :=
  match s.link with
  | none => true
  | some l => (rs[l.parent]?.join).isSome && !isBlank r

/-- Whether a record counts depends on the slot of its owner alone. -/
theorem counts_concat {rs : List (Option Record)} {s : Slot}
    (h : ∀ l, s.link = some l → l.parent < rs.length) (r : Record) (o : Option Record) :
    counts (rs ++ [o]) s r = counts rs s r := by
  unfold counts
  cases hl : s.link with
  | none => rfl
  | some l =>
    simp only
    rw [List.getElem?_append_left (h l hl)]

/-- Reading the slots one after the other gives the records that count. -/
theorem foldlM_readSlot {slots : List Slot} {row : Row} {bare : Slot → Nat → Record}
    (hparent : ∀ (k : Nat) (s : Slot) (l : SlotLink),
      slots[k]? = some s → s.link = some l → l.parent < k)
    (hread : ∀ (i : Nat) (s : Slot), slots[i]? = some s → s.read row = .ok (bare s i)) :
    ∃ rs, slots.foldlM (readSlot row) [] = .ok rs ∧ rs.length = slots.length ∧
      ∀ (i : Nat) (s : Slot), slots[i]? = some s → rs[i]? =
        some (if counts rs s (bare s i) then some (bare s i) else none) := by
  induction slots using List.reverseRecOn with
  | nil => exact ⟨[], rfl, rfl, fun i s hs => by simp at hs⟩
  | append_singleton slots t ih =>
    have hbefore : ∀ {i : Nat} {s : Slot}, slots[i]? = some s → (slots ++ [t])[i]? = some s :=
      fun hs => getElem?_concat_eq_some.2 (Or.inl hs)
    have hlast : (slots ++ [t])[slots.length]? = some t := List.getElem?_concat_length
    obtain ⟨rs, hrs, hlen, hget⟩ := ih (fun k s l hs => hparent k s l (hbefore hs))
      (fun i s hs => hread i s (hbefore hs))
    -- Whether a slot counts depends on the slots before it only, so that one more slot changes
    -- nothing of those that were read.
    obtain ⟨o, ho, hstep⟩ : ∃ o, o = (if counts rs t (bare t slots.length) then
        some (bare t slots.length) else none) ∧ readSlot row rs t = .ok (rs ++ [o]) :=
      ⟨_, rfl, by rw [readSlot, hread _ t hlast]; rfl⟩
    refine ⟨rs ++ [o], ?_, ?_, fun i s hs => ?_⟩
    · rw [List.foldlM_append, hrs]
      exact (bind_eq_ok.2 ⟨rs ++ [o], hstep, rfl⟩ :)
    · rw [List.length_append, List.length_append, hlen]
      rfl
    · have howner : ∀ l, s.link = some l → l.parent < rs.length := by
        intro l hl
        have hi := (List.getElem?_eq_some_iff.1 hs).1
        have := hparent i s l hs hl
        rw [List.length_append, List.length_singleton] at hi
        omega
      rw [counts_concat howner]
      rcases getElem?_concat_eq_some.1 hs with hs | ⟨rfl, rfl⟩
      · exact getElem?_concat_eq_some.2 (Or.inl (hget i s hs))
      · rw [← ho]
        exact getElem?_concat_eq_some.2 (Or.inr ⟨hlen.symm, rfl⟩)

end CompiledStatement

/-- Of records at the places of some slots, what holds of each that is there. -/
theorem forall_of_slots {slots : List Slot} {rs : List (Option Record)} {P : Record → Prop}
    (hlen : rs.length = slots.length) (h : ∀ (i : Nat) (s : Slot) (r : Record),
      slots[i]? = some s → rs[i]? = some (some r) → P r) : ∀ r, some r ∈ rs → P r := by
  intro r hr
  obtain ⟨i, hi⟩ := List.mem_iff_getElem?.1 hr
  have hlt := (List.getElem?_eq_some_iff.1 hi).1
  exact h i _ r (List.getElem?_eq_getElem (hlen ▸ hlt)) hi

/-- What is put together at every slot, given what is read there: a record that counts, with
    what is put together at the slots that start there. -/
def IsPutTogether (slots : List Slot) (bare : Slot → Nat → Record) (out : Nat → Option Record) :
    Prop :=
  ∀ (i : Nat) (s : Slot), slots[i]? = some s →
    out i = if (match s.link with
        | none => true
        | some l => (out l.parent).isSome && !CompiledStatement.isBlank (bare s i))
      then some (CompiledStatement.withChildren (childSlots slots i) out (bare s i))
      else none

/-- Linking records that were read puts them together. -/
theorem isPutTogether_linkAll {slots : List Slot} {bare : Slot → Nat → Record}
    {rs : List (Option Record)} (h : IsLinked slots) (hlen : rs.length = slots.length)
    (hrelations : ∀ s i, (bare s i).relations = [])
    (hget : ∀ (i : Nat) (s : Slot), slots[i]? = some s → rs[i]? = some
      (if CompiledStatement.counts rs s (bare s i) then some (bare s i) else none)) :
    IsPutTogether slots bare fun i => (CompiledStatement.linkAll slots rs)[i]?.join := by
  have hbare : ∀ r, some r ∈ rs → r.relations = [] := by
    refine forall_of_slots hlen fun i s r hs hr => ?_
    obtain ⟨-, hr⟩ := Option.ite_none_right_eq_some.1 (Option.some.inj ((hget i s hs).symm.trans hr))
    exact Option.some.inj hr ▸ hrelations s i
  have hlink := CompiledStatement.getElem?_linkAll h hbare
  -- Linking neither adds a record nor takes one away.
  have hpresent : ∀ i : Nat, ((CompiledStatement.linkAll slots rs)[i]?.join).isSome =
      (rs[i]?.join).isSome := by
    intro i
    rw [hlink i]
    cases rs[i]? with
    | none => rfl
    | some o => cases o <;> rfl
  intro i s hs
  have hout : (CompiledStatement.linkAll slots rs)[i]?.join =
      if CompiledStatement.counts rs s (bare s i) then
        some (CompiledStatement.withChildren (childSlots slots i)
          (fun k => (CompiledStatement.linkAll slots rs)[k]?.join) (bare s i))
      else none := by
    rw [hlink i, hget i s hs]
    split <;> rfl
  refine hout.trans ?_
  cases hl : s.link with
  | none => simp only [CompiledStatement.counts, hl]
  | some l => simp only [CompiledStatement.counts, hl, hpresent]

/-- What is put together at every slot of a combination: the record of its row with
    what is put together at the slots that start there. -/
def IsAssembled (slots : List Slot) (x : Combination) (out : Nat → Option Record) : Prop :=
  IsPutTogether slots (fun s i => s.record (x.at? i)) out

theorem IsAssembled.out_eq {slots : List Slot} {x : Combination} {out : Nat → Option Record}
    (h : IsAssembled slots x out) {i : Nat} {s : Slot} (hs : slots[i]? = some s) :
    out i = if (match s.link with
        | none => true
        | some l => (out l.parent).isSome && !CompiledStatement.isBlank (s.record (x.at? i)))
      then some (CompiledStatement.withChildren (childSlots slots i) out (s.record (x.at? i)))
      else none :=
  h i s hs

/-- What there is at a slot is the record of its row with those below it. -/
theorem IsAssembled.eq_withChildren {slots : List Slot} {x : Combination}
    {out : Nat → Option Record} (h : IsAssembled slots x out) {i : Nat} {t : Slot} {r : Record}
    (ht : slots[i]? = some t) (hr : out i = some r) :
    r = CompiledStatement.withChildren (childSlots slots i) out (t.record (x.at? i)) := by
  rw [h.out_eq ht] at hr
  exact (Option.some.inj (Option.ite_none_right_eq_some.1 hr).2).symm

/-- What there is at the slot of a joint: something if there is an owner and a row that is not
    blank. -/
theorem IsAssembled.out_succ {R : Reading} {x : Combination} {out : Nat → Option Record}
    (h : IsAssembled R.slots x out) {n : Nat} {j : Joint} (hj : R.joints[n]? = some j) :
    out (n + 1) = if (out j.parent).isSome &&
      !CompiledStatement.isBlank (j.slot.record (x.at? (n + 1))) then
        some (CompiledStatement.withChildren (childSlots R.slots (n + 1)) out
          (j.slot.record (x.at? (n + 1)))) else none :=
  h.out_eq (Reading.getElem?_joints hj)

namespace CompiledStatement

/-- What is read at the slots of a row: a record with the columns of its slot and without
    relations, or nothing. -/
theorem read_of_foldlM_readSlot {slots : List Slot} {row : Row} {rs : List (Option Record)}
    (h : slots.foldlM (readSlot row) [] = .ok rs) : rs.length = slots.length ∧
      ∀ (i : Nat) (s : Slot) (r : Record), slots[i]? = some s → rs[i]? = some (some r) →
        s.read row = .ok r := by
  refine foldlM_induct (fun before rs => rs.length = before.length ∧
    ∀ (i : Nat) (s : Slot) (r : Record), before[i]? = some s → rs[i]? = some (some r) →
      s.read row = .ok r) ⟨rfl, fun i s r hs => by simp at hs⟩ ?_ h
  rintro before t rs rs' - ⟨hlen, hread⟩ hstep
  obtain ⟨r, hr, hstep⟩ := bind_eq_ok.1 hstep
  obtain rfl := pure_eq_ok.1 hstep
  refine ⟨by simp [hlen], fun i s q hs hq => ?_⟩
  rcases getElem?_concat_eq_some.1 hs with hs | ⟨rfl, rfl⟩
  · rw [List.getElem?_append_left (hlen ▸ (List.getElem?_eq_some_iff.1 hs).1)] at hq
    exact hread i s q hs hq
  · -- The last slot is the one that is read in this step.
    rw [← hlen, List.getElem?_concat_length] at hq
    obtain ⟨-, hq⟩ := Option.ite_none_right_eq_some.1 (Option.some.inj hq)
    exact Option.some.inj hq ▸ hr

/-- Whatever is in a row, its record is put together from what is read at the slots, each
    with what is put together at the slots that start there. -/
theorem exists_of_assembleRow {cs : CompiledStatement} (hlinked : IsLinked cs.slots) {row : Row}
    {r : Record} (h : cs.assembleRow row = .ok r) :
    ∃ out : Nat → Option Record, out 0 = some r ∧
      ∀ (i : Nat) (s : Slot) (q : Record), cs.slots[i]? = some s → out i = some q →
        ∃ bare, s.read row = .ok bare ∧ q = withChildren (childSlots cs.slots i) out bare := by
  unfold assembleRow at h
  obtain ⟨rs, hrs, h⟩ := bind_eq_ok.1 h
  obtain ⟨hlen, hread⟩ := read_of_foldlM_readSlot hrs
  have hbare : ∀ r, some r ∈ rs → r.relations = [] := by
    refine forall_of_slots hlen fun i s r hs hr => ?_
    obtain ⟨_, -, hfields⟩ := bind_eq_ok.1 (hread i s r hs hr)
    exact pure_eq_ok.1 hfields ▸ rfl
  refine ⟨fun i => (linkAll cs.slots rs)[i]?.join, ?_, fun i s q hs hq => ?_⟩
  · split at h
    · next heq => exact heq.trans (congrArg some (pure_eq_ok.1 h))
    · exact nomatch h
  · -- What is there after linking was read at its slot.
    simp only [getElem?_linkAll hlinked hbare i] at hq
    rcases hget : rs[i]? with _ | _ | bare
    · simp [hget] at hq
    · simp [hget] at hq
    · rw [hget] at hq
      exact ⟨bare, hread i s bare hs hget, (Option.some.inj hq).symm⟩

end CompiledStatement

namespace Reading

variable {k : Compiler} {plan : LoadPlan} {scope : QueryScope} {root : Entity} {R : Reading}
  {store : Store}

/-- The slots that start at one are those of the joints that do. -/
theorem mem_childSlots_iff {i : Nat} {c : Nat × String} : c ∈ childSlots R.slots i ↔
    ∃ n j, R.joints[n]? = some j ∧ c = (n + 1, j.edge.name) ∧ j.parent = i := by
  obtain ⟨m, name⟩ := c
  rw [mem_childSlots]
  constructor
  · rintro ⟨s, l, hs, hl, hparent, hname⟩
    cases m with
    | zero =>
      -- The slot of the root starts nowhere.
      obtain rfl := Option.some.inj hs
      exact nomatch hl
    | succ n =>
      obtain ⟨j, hj, rfl⟩ := exists_joint_of_slot hs
      obtain rfl := Option.some.inj hl
      exact ⟨n, j, hj, Prod.ext rfl hname.symm, hparent⟩
  · rintro ⟨n, j, hj, heq, hparent⟩
    obtain ⟨rfl, rfl⟩ := Prod.mk.inj heq
    exact ⟨j.slot, _, getElem?_joints hj, rfl, hparent, rfl⟩

/-- The slots of a reading start at earlier ones, by different relations. -/
theorem IsSound.isLinked (h : R.IsSound k plan scope) (hsel : plan.IsSelected k.catalog root)
    (hgroup : R.group ∈ plan.groups) : IsLinked R.slots where
  parent_lt i s l hs hl := by
    cases i with
    | zero =>
      obtain rfl := Option.some.inj hs
      exact nomatch hl
    | succ i =>
      obtain ⟨j, hj, rfl⟩ := exists_joint_of_slot hs
      obtain rfl := Option.some.inj hl
      exact Nat.lt_succ_of_le (h.parent_le i j hj)
  names_nodup i := by
    have hnodup : (childSlots R.slots i).Nodup :=
      (childSlots_sorted R.slots i).imp fun hlt heq => Nat.ne_of_lt hlt (congrArg Prod.fst heq)
    refine hnodup.map_on fun c hc c' hc' heq => ?_
    obtain ⟨n, j, hj, rfl, hparent⟩ := mem_childSlots_iff.1 hc
    obtain ⟨n', j', hj', rfl, hparent'⟩ := mem_childSlots_iff.1 hc'
    -- Joints with one name that start at one slot are of one path, and no path is joined twice.
    have hpath : j.relation.path = j'.relation.path := by
      rw [PlannedRelation.path, PlannedRelation.path, Node.path, Node.path,
        h.chain_eq hsel (List.mem_of_getElem? hj), h.chain_eq hsel (List.mem_of_getElem? hj'),
        hparent, hparent', List.map_append, List.map_append]
      exact congrArg (fun n => dotted (_ ++ [n])) heq
    rw [h.relation_inj hsel hgroup hj hj' hpath, show j.edge.name = j'.edge.name from heq]

/-- A row from which something is read at every slot is assembled: the record of the root has
    all others below it. -/
theorem exists_isPutTogether_of_read (hlinked : IsLinked R.slots) {row : Row}
    {bare : Slot → Nat → Record} (hrelations : ∀ s i, (bare s i).relations = [])
    (hread : ∀ (i : Nat) (s : Slot), R.slots[i]? = some s → s.read row = .ok (bare s i))
    (scope : QueryScope) :
    ∃ (out : Nat → Option Record) (r : Record), IsPutTogether R.slots bare out ∧
      out 0 = some r ∧ (R.compiled scope).assembleRow row = .ok r := by
  obtain ⟨rs, hrs, hlen, hget⟩ := CompiledStatement.foldlM_readSlot hlinked.parent_lt hread
  have hout := isPutTogether_linkAll hlinked hlen hrelations hget
  have hroot : (CompiledStatement.linkAll R.slots rs)[0]?.join =
      some (CompiledStatement.withChildren (childSlots R.slots 0)
        (fun k => (CompiledStatement.linkAll R.slots rs)[k]?.join) (bare R.rootSlot 0)) :=
    hout 0 R.rootSlot rfl
  refine ⟨_, _, hout, hroot, ?_⟩
  unfold CompiledStatement.assembleRow
  rw [show (R.compiled scope).slots = R.slots from rfl, hrs]
  simp only [bind, Except.bind, hroot]
  rfl

/-- A row from which the rows of a combination are read at the slots is assembled. -/
theorem exists_isAssembled_of_read (hlinked : IsLinked R.slots) {x : Combination} {row : Row}
    (hread : ∀ (i : Nat) (s : Slot), R.slots[i]? = some s →
      s.read row = .ok (s.record (x.at? i))) (scope : QueryScope) :
    ∃ (out : Nat → Option Record) (r : Record), IsAssembled R.slots x out ∧ out 0 = some r ∧
      (R.compiled scope).assembleRow row = .ok r :=
  exists_isPutTogether_of_read hlinked (fun _ _ => rfl) hread scope

/-- A combination that is read is assembled. -/
theorem exists_isAssembled (hR : R.IsJoinable) (hlinked : IsLinked R.slots) {x : Combination}
    (hx : x.length = R.slots.length) (scope : QueryScope) :
    ∃ (out : Nat → Option Record) (r : Record), IsAssembled R.slots x out ∧ out 0 = some r ∧
      (R.compiled scope).assembleRow (x.row R.slots) = .ok r := by
  refine exists_isAssembled_of_read hlinked (fun i s hs => Slot.read_eq_ok fun c hc => ?_) scope
  have hi := (List.getElem?_eq_some_iff.1 hs).1
  exact Combination.get?_row hR.aliases_nodup (Nat.le_of_eq hx) (hx ▸ hi) hs hc

end Reading

end EntityFetch
