import EntityFetch.Proofs.Success

/-!
# Computations that fail

A computation with errors fails where one of its steps does, and with the error of that
step: a sequence (`bind_eq_error`), one computation for every element of a list
(`mapM_eq_error`, `forM_eq_error`) and one that goes through a list with a state
(`foldlM_eq_error`). All that comes before the step has succeeded.
-/

namespace EntityFetch

universe u v

variable {ε : Type u} {α β : Type v}

/-- A sequence fails if the first step does, or the second after it. -/
theorem bind_eq_error {x : Except ε α} {f : α → Except ε β} {e : ε} :
    x >>= f = .error e ↔ x = .error e ∨ ∃ a, x = .ok a ∧ f a = .error e := by
  cases x with
  | error e' =>
    refine ⟨fun h => Or.inl ?_, ?_⟩
    · exact congrArg _ (Except.error.inj h)
    · rintro (h | ⟨a, h, -⟩)
      · exact congrArg _ (Except.error.inj h)
      · cases h
  | ok a =>
    refine ⟨fun h => Or.inr ⟨a, rfl, h⟩, ?_⟩
    rintro (h | ⟨a', h, hf⟩)
    · cases h
    · exact (Except.ok.inj h) ▸ hf

/-- A computation for every element of a list fails at the first one at which it does. -/
theorem mapM_eq_error_iff {f : α → Except ε β} {as : List α} {e : ε} : as.mapM f = .error e ↔
    ∃ before a after, as = before ++ a :: after ∧ (∀ b ∈ before, ∃ c, f b = .ok c) ∧
      f a = .error e := by
  induction as with
  | nil => exact ⟨nofun, fun ⟨_, _, _, h, _⟩ => absurd h (by simp)⟩
  | cons a as ih =>
    rw [List.mapM_cons, bind_eq_error]
    constructor
    · rintro (h | ⟨b, hb, h⟩)
      · exact ⟨[], a, as, rfl, List.forall_mem_nil _, h⟩
      · rcases bind_eq_error.1 h with h | ⟨bs, -, h⟩
        · obtain ⟨before, a', after, rfl, hbefore, hf⟩ := ih.1 h
          exact ⟨a :: before, a', after, rfl, List.forall_mem_cons.2 ⟨⟨b, hb⟩, hbefore⟩, hf⟩
        · cases h
    · -- The first failure is at the first element just if none comes before it.
      rintro ⟨_ | ⟨b, before⟩, a', after, hsplit, hbefore, hf⟩
      · obtain ⟨rfl, rfl⟩ := List.cons.inj hsplit
        exact .inl hf
      · obtain ⟨rfl, rfl⟩ := List.cons.inj hsplit
        obtain ⟨⟨c, hc⟩, hbefore⟩ := List.forall_mem_cons.1 hbefore
        exact .inr ⟨c, hc, bind_eq_error.2 (.inl (ih.2 ⟨before, a', after, rfl, hbefore, hf⟩))⟩

/-- A computation for every element of a list fails at one of them. -/
theorem mapM_eq_error {f : α → Except ε β} {as : List α} {e : ε} (h : as.mapM f = .error e) :
    ∃ a ∈ as, f a = .error e := by
  obtain ⟨before, a, after, rfl, -, hf⟩ := mapM_eq_error_iff.1 h
  exact ⟨a, List.mem_append_right before List.mem_cons_self, hf⟩

/-- A check of every element of a list fails at one of them. -/
theorem forM_eq_error {f : α → Except ε PUnit} {as : List α} {e : ε} (h : as.forM f = .error e) :
    ∃ a ∈ as, f a = .error e := by
  induction as with
  | nil => cases h
  | cons a as ih =>
    rcases bind_eq_error.1 (show f a >>= (fun _ => as.forM f) = .error e from h) with h | ⟨_, -, h⟩
    · exact ⟨a, List.mem_cons_self, h⟩
    · obtain ⟨a', ha', hf⟩ := ih h
      exact ⟨a', List.mem_cons_of_mem a ha', hf⟩

/-- A way through a list with a state ends at an element where its step fails. What all
    steps keep holds of the state there. -/
theorem foldlM_eq_error {f : β → α → Except ε β} (P : List α → β → Prop) {b : β} {as : List α}
    {e : ε} (start : P [] b)
    (step : ∀ before a s t, a ∈ as → P before s → f s a = .ok t → P (before ++ [a]) t)
    (h : as.foldlM f b = .error e) :
    ∃ before a after s, as = before ++ a :: after ∧ P before s ∧ f s a = .error e := by
  suffices H : ∀ rest before s, before ++ rest = as → P before s → rest.foldlM f s = .error e →
      ∃ before a after s, as = before ++ a :: after ∧ P before s ∧ f s a = .error e from
    H as [] b rfl start h
  intro rest
  induction rest with
  | nil =>
    intro _ _ _ _ h
    cases h
  | cons a rest ih =>
    intro before s hsplit hs h
    rw [List.foldlM_cons] at h
    rcases bind_eq_error.1 h with h | ⟨t, ht, h⟩
    · exact ⟨before, a, rest, s, hsplit.symm, hs, h⟩
    · have ha : a ∈ as := hsplit ▸ List.mem_append_right before List.mem_cons_self
      refine ih (before ++ [a]) t ?_ (step before a s t ha hs ht) h
      rw [List.append_assoc]
      exact hsplit

end EntityFetch
