import EntityFetch.Assoc
import EntityFetch.Distinct
import Mathlib.Data.List.Nodup

/-!
# Maps made from lists

Maps that are made by inserting one entry for every element of a list. If the keys
of the elements are distinct, inserting keeps the order of the list, and changing
the value of a key changes it for one element (`insert_map`, `modify_map`).

Two maps are merged by a function of the values that they have for a key (`mergeWith`,
`lookup_mergeWith`). If values can be merged in any grouping, so can maps
(`mergeWith_mergeWith`). A map over another one has its own values where it has the key
(`lookup_extend`); this, too, is in any grouping (`extend_extend`).
-/

namespace EntityFetch.Assoc

variable {α β γ : Type} [BEq α] [LawfulBEq α]

/-- An insertion adds no entry but its own. -/
theorem mem_insert {k : α} {v : β} {m : List (α × β)} {e : α × β} (h : e ∈ insert k v m) :
    e = (k, v) ∨ e ∈ m := by
  induction m with
  | nil => exact Or.inl (List.mem_singleton.1 h)
  | cons e' m ih =>
    obtain ⟨k', v'⟩ := e'
    simp only [insert, update] at h
    split at h
    · next heq =>
      rcases List.mem_cons.1 h with rfl | h
      · exact Or.inl (by rw [eq_of_beq heq])
      · exact Or.inr (List.mem_cons_of_mem _ h)
    · rcases List.mem_cons.1 h with rfl | h
      · exact Or.inr List.mem_cons_self
      · exact (ih h).imp_right (List.mem_cons_of_mem _)

/-- A new key comes last. -/
theorem update_of_not_mem {k : α} (f : Option β → β) {m : List (α × β)} (h : k ∉ keys m) :
    update k f m = m ++ [(k, f none)] := by
  induction m with
  | nil => rfl
  | cons e m ih =>
    obtain ⟨k', v'⟩ := e
    rw [keys_cons, List.mem_cons, not_or] at h
    have hne : (k == k') = false := beq_eq_false_iff_ne.2 h.1
    simp only [update, hne, Bool.false_eq_true, if_false, List.cons_append]
    exact congrArg _ (ih h.2)

theorem insert_of_not_mem {k : α} (v : β) {m : List (α × β)} (h : k ∉ keys m) :
    insert k v m = m ++ [(k, v)] :=
  update_of_not_mem _ h

/-- Changing the value of one key changes it for the element with the key. -/
theorem modify_map {key : γ → α} {val : γ → β} {cs : List γ} (hnodup : (cs.map key).Nodup)
    (k : α) (f : β → β) :
    modify k f (cs.map fun c => (key c, val c)) =
      cs.map fun c => (key c, if key c == k then f (val c) else val c) := by
  induction cs with
  | nil => rfl
  | cons c cs ih =>
    rw [List.map_cons, List.nodup_cons] at hnodup
    simp only [List.map_cons, modify]
    by_cases heq : k = key c
    · subst heq
      have hrest : ∀ c' ∈ cs, (key c' == key c) = false := fun c' hc' =>
        beq_eq_false_iff_ne.2 fun h => hnodup.1 (h ▸ List.mem_map_of_mem hc')
      simp only [beq_self_eq_true, if_true, List.cons.injEq, true_and]
      refine List.map_congr_left fun c' hc' => ?_
      rw [hrest c' hc']
      rfl
    · have hne : (k == key c) = false := beq_eq_false_iff_ne.2 heq
      have hne' : (key c == k) = false := beq_eq_false_iff_ne.2 (Ne.symm heq)
      simp only [hne, hne', Bool.false_eq_true, if_false, ih hnodup.2]

/-- A key that is there keeps its place. -/
theorem insert_eq_modify {k : α} (v : β) {m : List (α × β)} (h : k ∈ keys m) :
    insert k v m = modify k (fun _ => v) m := by
  induction m with
  | nil => exact absurd h List.not_mem_nil
  | cons e m ih =>
    obtain ⟨k', v'⟩ := e
    rw [keys_cons, List.mem_cons] at h
    by_cases heq : k = k'
    · simp [insert, update, modify, heq]
    · have hne : (k == k') = false := beq_eq_false_iff_ne.2 heq
      simp only [insert, update, modify, hne, Bool.false_eq_true, if_false]
      exact congrArg _ (ih (h.resolve_left heq))

/-- Giving a value to the key of an element changes it for this element. -/
theorem insert_map {key : γ → α} {val : γ → β} {cs : List γ} (hnodup : (cs.map key).Nodup)
    {c : γ} (hc : c ∈ cs) (v : β) :
    insert (key c) v (cs.map fun c => (key c, val c)) =
      cs.map fun c' => (key c', if key c' == key c then v else val c') := by
  rw [insert_eq_modify, modify_map hnodup]
  rw [keys, List.map_map]
  exact List.mem_map_of_mem hc

omit [LawfulBEq α] in
/-- Only what is done to the value of the key matters. -/
theorem modify_congr {k : α} {f g : β → β} {m : List (α × β)}
    (h : ∀ v, m.lookup k = some v → f v = g v) : modify k f m = modify k g m := by
  induction m with
  | nil => rfl
  | cons e m ih =>
    obtain ⟨k', v⟩ := e
    rw [List.lookup_cons] at h
    unfold modify
    split
    · next heq =>
      rw [heq] at h
      rw [h v rfl]
    · next heq =>
      rw [Bool.not_eq_true] at heq
      rw [heq] at h
      rw [ih h]

omit [LawfulBEq α] in
/-- What is not changed about the values is as it was about the entries. -/
theorem map_modify {g : α × β → γ} {f : β → β} (h : ∀ k v, g (k, f v) = g (k, v)) (k : α)
    (m : List (α × β)) : (modify k f m).map g = m.map g := by
  induction m with
  | nil => rfl
  | cons e m ih =>
    unfold modify
    split
    · rw [List.map_cons, List.map_cons, h]
    · rw [List.map_cons, List.map_cons, ih]

/-- After a change in place the key has the changed value and every other key the
    value it had. -/
theorem lookup_modify (k j : α) (f : β → β) (m : List (α × β)) :
    (modify k f m).lookup j = if j == k then (m.lookup k).map f else m.lookup j := by
  induction m with
  | nil => simp [modify]
  | cons e m ih =>
    obtain ⟨k', v⟩ := e
    simp only [modify]
    by_cases heq : k = k'
    · subst heq
      simp only [beq_self_eq_true, if_true, List.lookup_cons]
      cases j == k <;> rfl
    · have hne : (k == k') = false := beq_eq_false_iff_ne.2 heq
      simp only [hne, Bool.false_eq_true, if_false, List.lookup_cons, ih]
      by_cases hj : j = k'
      · subst hj
        have hne' : (j == k) = false := beq_eq_false_iff_ne.2 (Ne.symm heq)
        simp [hne']
      · simp [beq_eq_false_iff_ne.2 hj]

/-! ### Maps over maps -/

theorem mem_keys_update {j k : α} {f : Option β → β} {m : List (α × β)} :
    j ∈ keys (update k f m) ↔ j = k ∨ j ∈ keys m := by
  rw [keys_update]
  split
  · next h =>
    rw [List.contains_iff_mem] at h
    exact ⟨Or.inr, fun hj => hj.elim (fun heq => heq ▸ h) id⟩
  · rw [List.mem_append, List.mem_singleton, or_comm]

theorem mem_keys_insert {j k : α} {v : β} {m : List (α × β)} :
    j ∈ keys (insert k v m) ↔ j = k ∨ j ∈ keys m :=
  mem_keys_update

theorem nodup_keys_update {k : α} {f : Option β → β} {m : List (α × β)} (h : (keys m).Nodup) :
    (keys (update k f m)).Nodup := by
  rw [keys_update]
  split
  · exact h
  · next hk =>
    rw [List.contains_iff_mem] at hk
    exact List.nodup_append.2 ⟨h, List.nodup_singleton k, fun a ha b hb heq =>
      hk (List.mem_singleton.1 hb ▸ heq ▸ ha)⟩

theorem lookup_eq_none_iff {k : α} {m : List (α × β)} : m.lookup k = none ↔ k ∉ keys m := by
  induction m with
  | nil => simp
  | cons e m ih =>
    rw [List.lookup_cons, keys_cons, List.mem_cons, not_or, ← ih]
    by_cases h : k = e.1
    · simp [h]
    · simp [beq_eq_false_iff_ne.2 h, h]

/-- What is found by a key is in an entry with the key. -/
theorem mem_of_lookup {k : α} {v : β} {m : List (α × β)}
    (h : m.lookup k = some v) : (k, v) ∈ m := by
  obtain ⟨before, after, rfl, -⟩ := List.lookup_eq_some_iff.1 h
  exact List.mem_append_right before List.mem_cons_self

/-- An entry of a map is found by its key. -/
theorem lookup_of_mem {m : List (α × β)} (h : (keys m).Nodup) {e : α × β} (he : e ∈ m) :
    m.lookup e.1 = some e.2 := by
  obtain ⟨before, after, rfl⟩ := List.append_of_mem he
  rw [keys, List.map_append, List.nodup_append] at h
  refine List.lookup_eq_some_iff.2 ⟨before, after, rfl, fun e' he' => ?_⟩
  exact bne_iff_ne.2 fun heq =>
    h.2.2 _ (List.mem_map_of_mem he') _ (List.mem_map_of_mem List.mem_cons_self) heq.symm

/-- Of two updates of one key the first makes the value for the second. -/
theorem update_update (k : α) (f g : Option β → β) (m : List (α × β)) :
    update k g (update k f m) = update k (fun o => g (some (f o))) m := by
  induction m with
  | nil => simp [update]
  | cons e m ih =>
    by_cases h : (k == e.1) = true
    · simp [update, h]
    · rw [Bool.not_eq_true] at h
      simp only [update, h, Bool.false_eq_true, if_false, ih]

/-- Different keys may be updated in any order, if one of the keys is there. -/
theorem update_comm {j k : α} {f g : Option β → β} {m : List (α × β)} (hk : k ∈ keys m)
    (hne : j ≠ k) : update k f (update j g m) = update j g (update k f m) := by
  induction m with
  | nil => exact absurd hk List.not_mem_nil
  | cons e m ih =>
    rw [keys_cons, List.mem_cons] at hk
    by_cases hke : k = e.1
    · have hje : (j == e.1) = false := beq_eq_false_iff_ne.2 (hke ▸ hne)
      simp [update, hke, hje]
    · have hke' : (k == e.1) = false := beq_eq_false_iff_ne.2 hke
      by_cases hje : j = e.1
      · subst hje
        simp [update, hke]
      · have hje' : (j == e.1) = false := beq_eq_false_iff_ne.2 hje
        simp only [update, hke', hje', Bool.false_eq_true, if_false]
        exact congrArg _ (ih (hk.resolve_left hke))

/-- The map in which every key of a second one has what `f` makes of the value there and of
    its own value, if it has one. -/
def mergeWith (f : γ → Option β → β) (m : List (α × β)) (n : List (α × γ)) : List (α × β) :=
  n.foldl (fun m e => update e.1 (f e.2) m) m

/-- A map that is merged with another one is a map. -/
theorem nodup_keys_mergeWith {f : γ → Option β → β} {m : List (α × β)} (h : (keys m).Nodup)
    (n : List (α × γ)) : (keys (mergeWith f m n)).Nodup := by
  induction n generalizing m with
  | nil => exact h
  | cons e n ih => exact ih (nodup_keys_update h)

theorem lookup_mergeWith {f : γ → Option β → β} {n : List (α × γ)} (hn : (keys n).Nodup)
    (m : List (α × β)) (k : α) : (mergeWith f m n).lookup k =
      ((n.lookup k).map fun v => f v (m.lookup k)).or (m.lookup k) := by
  induction n generalizing m with
  | nil => rfl
  | cons e n ih =>
    rw [keys_cons, List.nodup_cons] at hn
    rw [mergeWith, List.foldl_cons, ← mergeWith, ih hn.2, lookup_update, List.lookup_cons]
    by_cases h : k = e.1
    · -- No later entry has the key.
      rw [h, lookup_eq_none_iff.2 hn.1]
      simp
    · simp [beq_eq_false_iff_ne.2 h]

/-- A map that is merged with one of different keys comes before it. -/
theorem mergeWith_eq_append {f : γ → Option β → β} {m : List (α × β)} {n : List (α × γ)}
    (h : (keys m ++ keys n).Nodup) :
    mergeWith f m n = m ++ n.map fun e => (e.1, f e.2 none) := by
  induction n generalizing m with
  | nil => exact (List.append_nil m).symm
  | cons e n ih =>
    have hnew : e.1 ∉ keys m := fun hm =>
      (List.nodup_append.1 h).2.2 _ hm _ List.mem_cons_self rfl
    have hupdate : update e.1 (f e.2) m = m ++ [(e.1, f e.2 none)] := update_of_not_mem _ hnew
    have hkeys : keys (m ++ [(e.1, f e.2 none)]) = keys m ++ [e.1] := List.map_append
    change mergeWith f (update e.1 (f e.2) m) n = _
    rw [hupdate, ih (by rw [hkeys]; simpa using h), List.append_assoc]
    rfl

/-- A key that the second map does not have may be updated before or after. -/
theorem update_mergeWith {f : γ → Option β → β} {g : Option β → β} {k : α} {m : List (α × β)}
    {n : List (α × γ)} (hm : k ∈ keys m) (hn : k ∉ keys n) :
    update k g (mergeWith f m n) = mergeWith f (update k g m) n := by
  induction n generalizing m with
  | nil => rfl
  | cons e n ih =>
    rw [keys_cons, List.mem_cons, not_or] at hn
    change update k g (mergeWith f (update e.1 (f e.2) m) n) =
      mergeWith f (update e.1 (f e.2) (update k g m)) n
    rw [ih (mem_keys_update.2 (Or.inr hm)) hn.2, update_comm hm (Ne.symm hn.1)]

/-- A value goes through two maps as it goes into the lower one of them and this one into the
    other. -/
theorem mergeWith_update {f : β → Option β → β} {k : α} {v : β} {n : List (α × β)}
    (hn : (keys n).Nodup) (hnew : ∀ old, f (f v none) old = f v old)
    (hold : ∀ w, n.lookup k = some w → ∀ old, f (f v (some w)) old = f v (some (f w old)))
    (m : List (α × β)) :
    mergeWith f m (update k (f v) n) = update k (f v) (mergeWith f m n) := by
  induction n generalizing m with
  | nil =>
    change update k (f (f v none)) m = update k (f v) m
    rw [funext hnew]
  | cons e n ih =>
    rw [keys_cons, List.nodup_cons] at hn
    by_cases h : k = e.1
    · subst h
      have hvalue : f (f v (some e.2)) = fun old => f v (some (f e.2 old)) :=
        funext (hold e.2 (by rw [List.lookup_cons, beq_self_eq_true]))
      simp only [update, beq_self_eq_true, if_true]
      change mergeWith f (update e.1 (f (f v (some e.2))) m) n =
        update e.1 (f v) (mergeWith f (update e.1 (f e.2) m) n)
      rw [update_mergeWith (mem_keys_update.2 (Or.inl rfl)) hn.1, update_update, hvalue]
    · have hne : (k == e.1) = false := beq_eq_false_iff_ne.2 h
      simp only [update, hne, Bool.false_eq_true, if_false]
      exact ih hn.2 (fun w hw => hold w (by rwa [List.lookup_cons, hne])) _

/-- Of three maps either two may be merged first, if the same is true of the values of the
    second one, as far as `P` holds of them. -/
theorem mergeWith_mergeWith {P : β → Prop} {f : β → Option β → β}
    (hkeep : ∀ v old, (∀ w, old = some w → P w) → P (f v old))
    (hnew : ∀ v old, f (f v none) old = f v old)
    (hold : ∀ v w, P w → ∀ old, f (f v (some w)) old = f v (some (f w old)))
    (m : List (α × β)) {n : List (α × β)} (hn : (keys n).Nodup)
    (hvalues : ∀ k w, n.lookup k = some w → P w) (l : List (α × β)) :
    mergeWith f m (mergeWith f n l) = mergeWith f (mergeWith f m n) l := by
  induction l generalizing n with
  | nil => rfl
  | cons e l ih =>
    change mergeWith f m (mergeWith f (update e.1 (f e.2) n) l) =
      mergeWith f (update e.1 (f e.2) (mergeWith f m n)) l
    rw [ih (nodup_keys_update hn), mergeWith_update hn (hnew e.2) fun w hw => hold e.2 w
      (hvalues e.1 w hw)]
    intro k w hw
    rw [lookup_update] at hw
    split at hw
    · exact Option.some.inj hw ▸ hkeep e.2 _ (hvalues e.1)
    · exact hvalues k w hw

omit [LawfulBEq α] in
/-- A map over another one is merged with it, the values of the upper one staying as they are. -/
theorem extend_eq_mergeWith (m n : List (α × β)) : extend m n = mergeWith (fun v _ => v) m n :=
  rfl

theorem lookup_extend {m n : List (α × β)} (hn : (keys n).Nodup) (k : α) :
    (extend m n).lookup k = (n.lookup k).or (m.lookup k) := by
  rw [extend_eq_mergeWith, lookup_mergeWith hn, Option.map_id']

theorem nodup_keys_extend {m : List (α × β)} (h : (keys m).Nodup) (n : List (α × β)) :
    (keys (extend m n)).Nodup := by
  rw [extend_eq_mergeWith]
  exact nodup_keys_mergeWith h n

theorem extend_nil_left {n : List (α × β)} (h : (keys n).Nodup) : extend [] n = n := by
  rw [extend_eq_mergeWith, mergeWith_eq_append (by simpa using h)]
  exact List.map_id n

/-- Of three maps over each other either two may be taken together. -/
theorem extend_extend (m : List (α × β)) {n : List (α × β)} (hn : (keys n).Nodup)
    (l : List (α × β)) : extend m (extend n l) = extend (extend m n) l := by
  simp only [extend_eq_mergeWith]
  exact mergeWith_mergeWith (P := fun _ => True) (fun _ _ _ => trivial) (fun _ _ => rfl)
    (fun _ _ _ _ => rfl) m hn (fun _ _ _ => trivial) l

/-- The keys of some entries are put behind each other, each once. -/
theorem keys_extend (m n : List (α × β)) : keys (extend m n) = addAllNew (keys m) (keys n) := by
  induction n generalizing m with
  | nil => rfl
  | cons e n ih =>
    change keys (extend (insert e.1 e.2 m) n) = addAllNew (addNew (keys m) e.1) (keys n)
    rw [ih, keys_insert, addNew]

/-! ### One entry for every key of a list -/

variable {ks : List α} {v : α → β}

/-- Every entry has a key of the list and its value. -/
theorem mem_ofList_map {e : α × β} (h : e ∈ ofList (ks.map fun k => (k, v k))) :
    e.1 ∈ ks ∧ e.2 = v e.1 := by
  have hfold : ∀ (ks' : List α) (m : List (α × β)), (∀ k ∈ ks', k ∈ ks) →
      (∀ e ∈ m, e.1 ∈ ks ∧ e.2 = v e.1) →
      ∀ e ∈ extend m (ks'.map fun k => (k, v k)), e.1 ∈ ks ∧ e.2 = v e.1 := by
    intro ks'
    induction ks' with
    | nil => exact fun _ _ h => h
    | cons k ks' ih =>
      intro m hks hm
      refine ih _ (fun k hk => hks k (List.mem_cons_of_mem _ hk)) fun e he => ?_
      rcases mem_insert he with rfl | he
      · exact ⟨hks k List.mem_cons_self, rfl⟩
      · exact hm e he
  exact hfold ks [] (fun _ h => h) (fun _ h => absurd h List.not_mem_nil) e h

/-- Every key of the list has its value. -/
theorem lookup_ofList_map (k : α) :
    (ofList (ks.map fun k => (k, v k))).lookup k = if k ∈ ks then some (v k) else none := by
  have hfold : ∀ (ks' : List α) (m : List (α × β)),
      (extend m (ks'.map fun k => (k, v k))).lookup k =
        if k ∈ ks' then some (v k) else m.lookup k := by
    intro ks'
    induction ks' with
    | nil => exact fun _ => by simp [extend]
    | cons k' ks' ih =>
      intro m
      rw [List.map_cons, show extend m ((k', v k') :: ks'.map fun k => (k, v k)) =
        extend (insert k' (v k') m) (ks'.map fun k => (k, v k)) from rfl, ih, lookup_insert]
      by_cases hk : k ∈ ks'
      · rw [if_pos hk, if_pos (List.mem_cons_of_mem _ hk)]
      · by_cases heq : k = k'
        · subst heq
          simp [hk]
        · simp [hk, heq]
  exact hfold ks []

end EntityFetch.Assoc
