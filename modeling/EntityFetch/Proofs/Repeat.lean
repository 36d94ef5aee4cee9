import EntityFetch.Record.Assemble
import EntityFetch.Store
import Mathlib.Data.List.Basic
import Mathlib.Data.List.Induction

/-!
# Repeated rows

A statement reads a row of its root once for every combination with rows that are
joined to it. The repetitions come one after the other (`Repeats`). Taking the first row
with every key gives the same rows as if there were none (`Repeats.mem_firstBy_iff`). The
rows that are taken have no key, or one that no row before has (`firstBy_eq_firsts`).
-/

namespace EntityFetch

variable {α β : Type}

/-- A list and one in which its elements are repeated in place. -/
inductive Repeats : List α → List α → Prop
  | nil : Repeats [] []
  | cons (a : α) (n : Nat) {as bs : List α} :
    Repeats as bs → Repeats (a :: as) (List.replicate (n + 1) a ++ bs)

namespace Repeats

/-- Elements that are repeated no times are missing. -/
theorem of_replicate (times : α → Nat) (as : List α) :
    Repeats (as.filter fun a => 0 < times a) (as.flatMap fun a => List.replicate (times a) a) := by
  induction as with
  | nil => exact .nil
  | cons a as ih =>
    rw [List.flatMap_cons]
    cases htimes : times a with
    | zero => rwa [List.filter_cons_of_neg (by simp [htimes])]
    | succ n =>
      rw [List.filter_cons_of_pos (by simp [htimes])]
      exact .cons a n ih

/-- Elements that are repeated once at most are a part of the list. -/
theorem flatMap_replicate_sublist {times : α → Nat} {as : List α} (h : ∀ a ∈ as, times a ≤ 1) :
    (as.flatMap fun a => List.replicate (times a) a).Sublist as := by
  induction as with
  | nil => exact List.Sublist.slnil
  | cons a as ih =>
    have ih := ih fun a' ha' => h a' (List.mem_cons_of_mem a ha')
    rw [List.flatMap_cons]
    rcases Nat.le_one_iff_eq_zero_or_eq_one.1 (h a List.mem_cons_self) with hzero | hone
    · rw [hzero]
      exact ih.cons a
    · rw [hone]
      exact ih.cons_cons a

end Repeats

/-! ### First elements -/

/-- The first element with every key that has not been seen, and all elements without
    a key. -/
def firstBy (key : α → Option Key) (seen : List Key) : List α → List α
  | [] => []
  | a :: as =>
    match key a with
    | none => a :: firstBy key seen as
    | some k => if seen.contains k then firstBy key seen as else a :: firstBy key (k :: seen) as

theorem firstByKey_eq (field : String) (seen : List Key) (rs : List Record) :
    CompiledStatement.firstByKey field seen rs = firstBy (·.key? field) seen rs := by
  induction rs generalizing seen with
  | nil => rfl
  | cons r rs ih =>
    rw [CompiledStatement.firstByKey, firstBy]
    cases r.key? field with
    | none => exact congrArg (r :: ·) (ih seen)
    | some k =>
      simp only
      rw [ih seen, ih (k :: seen)]

theorem mem_of_mem_firstBy {key : α → Option Key} {seen : List Key} {as : List α} {a : α}
    (h : a ∈ firstBy key seen as) : a ∈ as := by
  induction as generalizing seen with
  | nil => exact h
  | cons b as ih =>
    unfold firstBy at h
    split at h
    · exact (List.mem_cons.1 h).elim (fun heq => heq ▸ List.mem_cons_self)
        fun h => List.mem_cons_of_mem _ (ih h)
    · split at h
      · exact List.mem_cons_of_mem _ (ih h)
      · exact (List.mem_cons.1 h).elim (fun heq => heq ▸ List.mem_cons_self)
          fun h => List.mem_cons_of_mem _ (ih h)

theorem firstBy_map (f : α → β) (key : β → Option Key) (seen : List Key) (as : List α) :
    firstBy key seen (as.map f) = (firstBy (key ∘ f) seen as).map f := by
  induction as generalizing seen with
  | nil => rfl
  | cons a as ih =>
    rw [List.map_cons]
    unfold firstBy
    simp only [Function.comp_apply, ih]
    split
    · rfl
    · split <;> rfl

/-- Only which keys have been seen matters, not in which order. -/
theorem firstBy_congr {key : α → Option Key} {seen seen' : List Key}
    (h : ∀ k, k ∈ seen ↔ k ∈ seen') (as : List α) :
    firstBy key seen as = firstBy key seen' as := by
  induction as generalizing seen seen' with
  | nil => rfl
  | cons a as ih =>
    rw [firstBy, firstBy, ih h]
    cases key a with
    | none => rfl
    | some k =>
      have hcontains : seen.contains k = seen'.contains k := by
        rw [Bool.eq_iff_iff, List.contains_iff_mem, List.contains_iff_mem]
        exact h k
      have hmore : ∀ k', k' ∈ k :: seen ↔ k' ∈ k :: seen' := fun k' => by
        rw [List.mem_cons, List.mem_cons, h k']
      simp only [hcontains, ih hmore]

/-- After some elements their keys have been seen. -/
theorem firstBy_append (key : α → Option Key) (seen : List Key) (as bs : List α) :
    firstBy key seen (as ++ bs) =
      firstBy key seen as ++ firstBy key (as.filterMap key ++ seen) bs := by
  induction as generalizing seen with
  | nil => rfl
  | cons a as ih =>
    rw [List.cons_append, firstBy, firstBy]
    cases ha : key a with
    | none =>
      rw [List.filterMap_cons_none ha]
      exact congrArg (a :: ·) (ih seen)
    | some k =>
      rw [List.filterMap_cons_some ha]
      simp only [ih]
      split
      · next hk =>
        have hmem := List.contains_iff_mem.1 hk
        -- The key has been seen, so that seeing it once more makes no difference.
        refine congrArg (firstBy key seen as ++ ·) (firstBy_congr (fun k' => ?_) bs)
        rw [List.cons_append, List.mem_cons]
        refine ⟨Or.inr, ?_⟩
        rintro (rfl | hk')
        · exact List.mem_append_right _ hmem
        · exact hk'
      · refine congrArg (a :: firstBy key (k :: seen) as ++ ·) (firstBy_congr (fun k' => ?_) bs)
        rw [List.cons_append, List.mem_append, List.mem_cons, List.mem_cons, List.mem_append]
        tauto

/-- The elements without a key, and those of which no element before has the key. -/
def firsts (key : α → Option Key) (as : List α) : List α :=
  (as.zipIdx.filter fun e => (key e.1).isNone || (as.take e.2).all fun b => key b != key e.1).map
    Prod.fst

theorem firsts_concat (key : α → Option Key) (as : List α) (a : α) :
    firsts key (as ++ [a]) =
      firsts key as ++ if (key a).isNone || as.all (fun b => key b != key a) then [a] else [] := by
  have hbefore : (as.zipIdx.filter fun e =>
      (key e.1).isNone || ((as ++ [a]).take e.2).all fun b => key b != key e.1) =
        as.zipIdx.filter fun e =>
          (key e.1).isNone || (as.take e.2).all fun b => key b != key e.1 := by
    refine List.filter_congr fun e he => ?_
    have hlt := (List.getElem?_eq_some_iff.1 (List.mem_zipIdx_iff_getElem?.1 he)).1
    rw [List.take_append_of_le_length (Nat.le_of_lt hlt)]
  rw [firsts, List.zipIdx_append, List.filter_append, List.map_append, hbefore, Nat.zero_add,
    List.zipIdx_singleton, List.filter_singleton, List.take_left, firsts]
  cases (key a).isNone || as.all (fun b => key b != key a) <;> rfl

/-- Elements that are left are the first with their key. -/
theorem firstBy_eq_firsts (key : α → Option Key) (as : List α) :
    firstBy key [] as = firsts key as := by
  induction as using List.reverseRecOn with
  | nil => rfl
  | append_singleton as a ih =>
    rw [firstBy_append, firsts_concat, ih, List.append_nil, firstBy]
    cases ha : key a with
    | none => rfl
    | some k =>
      have hseen : (as.filterMap key).contains k = !as.all fun b => key b != some k := by
        rw [Bool.eq_iff_iff, List.contains_iff_mem, List.mem_filterMap]
        simp
      simp only [hseen, Option.isNone_some, Bool.false_or]
      cases as.all fun b => key b != some k <;> rfl

/-- Elements without a key are all left. -/
theorem firstBy_replicate_of_eq_none {key : α → Option Key} {b : α} (hb : key b = none)
    (seen : List Key) (n : Nat) (cs : List α) :
    firstBy key seen (List.replicate n b ++ cs) = List.replicate n b ++ firstBy key seen cs := by
  induction n with
  | zero => rfl
  | succ n ih =>
    rw [List.replicate_succ, List.cons_append, firstBy, hb]
    exact congrArg (b :: ·) ih

/-- Elements of which the key has been seen are all left out. -/
theorem firstBy_replicate_of_mem {key : α → Option Key} {b : α} {k : Key} (hb : key b = some k)
    {seen : List Key} (hk : k ∈ seen) (n : Nat) (cs : List α) :
    firstBy key seen (List.replicate n b ++ cs) = firstBy key seen cs := by
  induction n with
  | zero => rfl
  | succ n ih =>
    rw [List.replicate_succ, List.cons_append, firstBy, hb]
    simp only [List.contains_iff_mem.2 hk, if_true]
    exact ih

/-- Repetitions make no difference to which elements are the first. -/
theorem Repeats.mem_firstBy_iff {key : α → Option Key} {as bs : List α} (h : Repeats as bs)
    (seen : List Key) (a : α) : a ∈ firstBy key seen bs ↔ a ∈ firstBy key seen as := by
  induction h generalizing seen with
  | nil => exact Iff.rfl
  | @cons b n as cs _ ih =>
    cases hb : key b with
    | none =>
      rw [firstBy_replicate_of_eq_none hb, firstBy, hb]
      simp only [List.mem_append, List.mem_replicate, List.mem_cons, ih]
      simp
    | some k =>
      rw [List.replicate_succ, List.cons_append, firstBy, firstBy, hb]
      simp only
      split
      · next hk => rw [firstBy_replicate_of_mem hb (List.contains_iff_mem.1 hk), ih]
      · rw [List.mem_cons, List.mem_cons, firstBy_replicate_of_mem hb List.mem_cons_self, ih]

/-- If elements with the same key are the same, then all are the first with theirs. -/
theorem mem_firstBy_of_inj {key : α → Option Key} {as : List α}
    (hinj : ∀ a ∈ as, ∀ b ∈ as, (key a).isSome → key a = key b → a = b) (seen : List Key) (a : α) :
    a ∈ firstBy key seen as ↔ a ∈ as ∧ ∀ k ∈ seen, key a ≠ some k := by
  induction as generalizing seen with
  | nil => simp [firstBy]
  | cons b as ih =>
    have ih := fun seen => ih (fun a ha b hb => hinj a (List.mem_cons_of_mem _ ha) b
      (List.mem_cons_of_mem _ hb)) seen
    rw [firstBy, List.mem_cons]
    cases hb : key b with
    | none =>
      have hkeyless : a = b → ∀ k ∈ seen, key a ≠ some k := by
        rintro rfl k - hk
        cases hb.symm.trans hk
      simp only [List.mem_cons, ih]
      rw [or_and_right, and_iff_left_of_imp hkeyless]
    | some k =>
      simp only
      split
      · next hk =>
        rw [ih]
        refine ⟨fun ⟨hmem, hne⟩ => ⟨Or.inr hmem, hne⟩, fun ⟨hmem, hne⟩ => ⟨hmem.resolve_left ?_, hne⟩⟩
        rintro rfl
        exact hne k (List.contains_iff_mem.1 hk) hb
      · next hk =>
        rw [List.mem_cons, ih]
        constructor
        · rintro (rfl | ⟨hmem, hne⟩)
          · refine ⟨Or.inl rfl, fun k' hk' heq => hk ?_⟩
            rw [Option.some.inj (hb.symm.trans heq)]
            exact List.contains_iff_mem.2 hk'
          · exact ⟨Or.inr hmem, fun k' hk' => hne k' (List.mem_cons_of_mem _ hk')⟩
        · rintro ⟨rfl | hmem, hne⟩
          · exact Or.inl rfl
          · by_cases heq : a = b
            · exact Or.inl heq
            · -- Another element has another key than the one just seen.
              refine Or.inr ⟨hmem, fun k' hk' ha => ?_⟩
              rcases List.mem_cons.1 hk' with rfl | hk'
              · exact heq (hinj a (List.mem_cons_of_mem _ hmem) b List.mem_cons_self
                  (by rw [ha]; rfl) (ha.trans hb.symm))
              · exact hne k' hk' ha

theorem firstBy_sublist (key : α → Option Key) (seen : List Key) (as : List α) :
    (firstBy key seen as).Sublist as := by
  induction as generalizing seen with
  | nil => exact List.Sublist.slnil
  | cons a as ih =>
    unfold firstBy
    split
    · exact (ih seen).cons_cons a
    · split
      · exact (ih seen).cons a
      · exact (ih _).cons_cons a

/-- The first element is not left out as a repetition. -/
theorem head?_firstBy (key : α → Option Key) (as : List α) :
    (firstBy key [] as).head? = as.head? := by
  rcases as with _ | ⟨a, as⟩
  · rfl
  · rw [firstBy]
    cases key a <;> rfl

/-- Nothing is left out just if every key is there once and none has been seen. -/
theorem firstBy_eq_self_iff {key : α → Option Key} {seen : List Key} {as : List α} :
    firstBy key seen as = as ↔
      (as.filterMap key).Nodup ∧ ∀ k ∈ as.filterMap key, k ∉ seen := by
  induction as generalizing seen with
  | nil => exact iff_of_true rfl ⟨List.nodup_nil, fun _ hk => absurd hk List.not_mem_nil⟩
  | cons a as ih =>
    rw [firstBy]
    rcases hkey : key a with _ | k
    · rw [List.filterMap_cons_none hkey, List.cons.injEq]
      exact (and_iff_right rfl).trans ih
    · rw [List.filterMap_cons_some hkey, List.nodup_cons, List.forall_mem_cons]
      simp only
      split
      · next hseen =>
        -- Fewer elements are left than there are.
        refine iff_of_false (fun heq => ?_) fun h => h.2.1 (List.contains_iff_mem.1 hseen)
        have hlength := (firstBy_sublist key seen as).length_le
        rw [heq, List.length_cons] at hlength
        omega
      · next hnew =>
        rw [List.cons.injEq, ih]
        simp only [List.mem_cons, not_or]
        constructor
        · rintro ⟨-, hnodup, hseen⟩
          exact ⟨⟨fun hk => (hseen k hk).1 rfl, hnodup⟩, fun hk => hnew (List.contains_iff_mem.2 hk),
            fun k' hk' => (hseen k' hk').2⟩
        · rintro ⟨⟨hk, hnodup⟩, -, hseen⟩
          exact ⟨trivial, hnodup, fun k' hk' => ⟨fun heq => hk (heq ▸ hk'), hseen k' hk'⟩⟩

/-- If nothing is left out of a list, nothing is of a part of it. -/
theorem firstBy_eq_self_of_sublist {key : α → Option Key} {seen : List Key} {as bs : List α}
    (h : firstBy key seen as = as) (hsub : bs.Sublist as) : firstBy key seen bs = bs := by
  obtain ⟨hnodup, hseen⟩ := firstBy_eq_self_iff.1 h
  have hkeys := hsub.filterMap key
  exact firstBy_eq_self_iff.2 ⟨hnodup.sublist hkeys, fun k hk => hseen k (hkeys.mem hk)⟩

/-- The windows of a list lose nothing only if the list does not: otherwise there is a
    window behind the end of what is left of the list. -/
theorem length_firstBy_of_windows {key : α → Option Key} {as : List α}
    (h : ∀ m n, (firstBy key [] ((as.drop m).take n)).length =
      (((firstBy key [] as).drop m).take n).length) : as.length = (firstBy key [] as).length := by
  have hle := (firstBy_sublist key [] as).length_le
  by_contra hne
  have hlt : (firstBy key [] as).length < as.length := by omega
  have hone := h (firstBy key [] as).length 1
  rw [List.drop_eq_getElem_cons hlt, List.take_succ_cons, List.take_zero,
    firstBy_eq_self_iff.2 ⟨?_, fun _ _ => List.not_mem_nil⟩, List.drop_length] at hone
  · exact absurd hone (Nat.succ_ne_zero _)
  · -- A window of one element has no key twice.
    cases hkey : key as[(firstBy key [] as).length] <;> simp [hkey]

/-- If no two elements have the same key, all are the first with theirs. -/
theorem firstBy_eq_self {key : α → Option Key} {as : List α} (hnodup : as.Nodup)
    (hinj : ∀ a ∈ as, ∀ b ∈ as, (key a).isSome → key a = key b → a = b) {seen : List Key}
    (hseen : ∀ a ∈ as, ∀ k ∈ seen, key a ≠ some k) : firstBy key seen as = as := by
  induction as generalizing seen with
  | nil => rfl
  | cons a as ih =>
    obtain ⟨ha, hnodup⟩ := List.nodup_cons.1 hnodup
    have hinj' : ∀ b ∈ as, ∀ c ∈ as, (key b).isSome → key b = key c → b = c := fun b hb c hc =>
      hinj b (List.mem_cons_of_mem a hb) c (List.mem_cons_of_mem a hc)
    have hseen' : ∀ b ∈ as, ∀ k ∈ seen, key b ≠ some k :=
      fun b hb => hseen b (List.mem_cons_of_mem a hb)
    unfold firstBy
    split
    · rw [ih hnodup hinj' hseen']
    · next k hk =>
      have hnew : seen.contains k = false := by
        rw [Bool.eq_false_iff, ne_eq, List.contains_iff_mem]
        exact fun hmem => hseen a List.mem_cons_self k hmem hk
      rw [hnew]
      refine congrArg (a :: ·) (ih hnodup hinj' fun b hb k' hk' heq => ?_)
      rcases List.mem_cons.1 hk' with rfl | hk'
      · have hsame := hinj a List.mem_cons_self b (List.mem_cons_of_mem a hb) (by rw [hk]; rfl)
          (hk.trans heq.symm)
        exact ha (hsame ▸ hb)
      · exact hseen' b hb k' hk' heq

end EntityFetch
