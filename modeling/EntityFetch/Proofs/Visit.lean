import EntityFetch.Proofs.Record

/-!
# Visits along a path

Two walks go along a path: one lists the records at its end (`Record.reached`), the other one
changes them (`Record.updateAt`). The keys of owners are collected by the first, and what is found
for the keys is attached by the second, so both are to come to the same records in the same order.

The order in which records are changed is seen if the update has an effect, and so the second walk
is also defined for updates with effects (`Record.updateAtM`). Whatever the effect, the walk is
that of the update along the list of the records at the end of the path
(`Record.reached_updateAtM`). With an update that notes what it is applied to, it is a change by
`Record.updateAt` that notes what is listed (`Record.run_updateAtM_noting`).

Nothing else is touched (`Record.IsSameOff`): this is said by addresses, at which there is the
same as before as long as they do not lead beyond the end of the path.

* `Record.visits_agree`: the two walks agree, and go along a path part by part.
-/

namespace EntityFetch

universe u

variable {m : Type → Type u} [Monad m]

/-! ### Changes with effects -/

/-- The map in which the value of a key, if it has one, is changed in place with an effect. -/
def Assoc.modifyM {α β : Type} [BEq α] (k : α) (f : β → m β) : List (α × β) → m (List (α × β))
  | [] => pure []
  | (k', v) :: es =>
    if k == k' then do return (k', ← f v) :: es
    else do return (k', v) :: (← modifyM k f es)

/-- Every record changed with an effect, in order. -/
def Related.mapM {ρ σ : Type} (f : ρ → m σ) : Related ρ → m (Related σ)
  | one r => one <$> r.mapM f
  | many rs => many <$> rs.mapM f

namespace Record

/-- The record in which every record that is reached along a path is changed with an effect, one
    after the other. -/
def updateAtM : List String → (Record → m Record) → Record → m Record
  | [], f, r => f r
  | name :: path, f, r => do
    return { r with relations := ← Assoc.modifyM name (Related.mapM (updateAtM path f)) r.relations }

end Record

section Lawful

variable [LawfulMonad m]

theorem Assoc.lookup_modifyM {α β : Type} [BEq α] [LawfulBEq α] (k : α) (f : β → m β)
    (es : List (α × β)) : (List.lookup k ·) <$> modifyM k f es = (es.lookup k).mapM f := by
  induction es with
  | nil => simp [modifyM]
  | cons e es ih =>
    obtain ⟨k', v⟩ := e
    rw [modifyM, List.lookup_cons]
    split
    · next h => simp [List.lookup_cons, h]
    · next h =>
      rw [Bool.not_eq_true] at h
      simp [List.lookup_cons, h, ← ih]

theorem Related.toList_mapM {ρ σ : Type} (f : ρ → m σ) (rel : Related ρ) :
    toList <$> rel.mapM f = rel.toList.mapM f := by
  cases rel with
  | one o => cases o <;> simp [mapM, toList]
  | many rs => simp [mapM, toList]

/-- If what is below an element is changed in order with the element, what is below some elements
    is changed in order with them. -/
theorem flatMap_mapM {α β : Type} {below : α → List β} {f : α → m α} {g : β → m β}
    (h : ∀ a, below <$> f a = (below a).mapM g) (as : List α) :
    List.flatMap below <$> as.mapM f = (as.flatMap below).mapM g := by
  induction as with
  | nil => simp
  | cons a as ih =>
    rw [List.flatMap_cons, List.mapM_append, ← h, ← ih]
    simp

namespace Record

/-- The records of the first relation of a path are visited in order. -/
theorem related_updateAtM (name : String) (path : List String) (f : Record → m Record)
    (r : Record) :
    (related · name) <$> updateAtM (name :: path) f r = (r.related name).mapM (updateAtM path f) := by
  have hloaded : (related · name) <$> updateAtM (name :: path) f r =
      (fun rel => (rel.map Related.toList).getD []) <$> (List.lookup name ·) <$>
        Assoc.modifyM name (Related.mapM (updateAtM path f)) r.relations := by
    simp [updateAtM, related, relation?]
  rw [hloaded, Assoc.lookup_modifyM, related, relation?]
  cases r.relations.lookup name with
  | none => simp
  | some rel => simp [← Related.toList_mapM]

/-- A change at the end of a path, with its effects, is one of what is reached along the path,
    one record after the other. -/
theorem reached_updateAtM (path : List String) (f : Record → m Record) (rs : List Record) :
    reached path <$> rs.mapM (updateAtM path f) = (reached path rs).mapM f := by
  induction path generalizing rs with
  | nil => exact id_map _
  | cons name path ih =>
    have hreached : reached (name :: path) = reached path ∘ List.flatMap (related · name) :=
      funext fun rs => reached_cons_eq name path rs
    rw [hreached, comp_map, flatMap_mapM (related_updateAtM name path f), ih]
    rfl

end Record

end Lawful

namespace Record

theorem updateAtM_append (path rest : List String) (f : Record → m Record) :
    updateAtM (path ++ rest) f = updateAtM path (updateAtM rest f) := by
  induction path with
  | nil => rfl
  | cons name path ih =>
    funext r
    rw [List.cons_append, updateAtM, ih, updateAtM]

/-! ### What stays as it is -/

/-- The record at an address below a record. Every step of an address says which relation is
    followed, and which of the records of the relation is taken. -/
def at? : List (String × Nat) → Record → Option Record
  | [], r => some r
  | (name, i) :: way, r => (r.related name)[i]?.bind (at? way)

/-- A record that is what another one was, but for what is reached along a path and what is
    below this. Everywhere else there are the records that there were, with the same fields and
    the same relations, and a relation that is not on the path leads to what it led to. -/
structure IsSameOff (path : List String) (r r' : Record) : Prop where
  surface : ∀ way : List (String × Nat), ¬ path <+: way.map Prod.fst →
    (r'.at? way).map Record.surface = (r.at? way).map Record.surface
  relation? : ∀ (way : List (String × Nat)) (name : String), ¬ path <+: way.map Prod.fst →
    ¬ way.map Prod.fst ++ [name] <+: path →
    (r'.at? way).bind (Record.relation? · name) = (r.at? way).bind (Record.relation? · name)

variable {name : String} {path : List String} {r r' : Record}

/-- At the end of the path a record may be anything. -/
theorem isSameOff_nil (r r' : Record) : IsSameOff [] r r' where
  surface _ h := absurd List.nil_prefix h
  relation? _ _ h := absurd List.nil_prefix h

/-- What is seen at an address is the same, if it is the same below each record of one relation
    and the other relations lead to what they led to. -/
theorem bind_at?_congr {α : Type} {view : Record → Option α}
    (hother : ∀ n, n ≠ name → r'.relation? n = r.relation? n) {n : String} {i : Nat}
    {way : List (String × Nat)}
    (hbelow : n = name →
      List.Forall₂ (fun q q' : Record => (q'.at? way).bind view = (q.at? way).bind view)
        (r.related name) (r'.related name)) :
    (r'.at? ((n, i) :: way)).bind view = (r.at? ((n, i) :: way)).bind view := by
  rw [at?, at?, Option.bind_assoc, Option.bind_assoc]
  by_cases hn : n = name
  · subst hn
    have hlength := (hbelow rfl).length_eq
    cases hq : (r.related n)[i]? with
    | none =>
      -- The address leads nowhere, and neither does it after the change.
      have hq' : (r'.related n)[i]? = none := by
        rw [List.getElem?_eq_none_iff] at hq ⊢
        omega
      rw [hq']
    | some q =>
      obtain ⟨hi, rfl⟩ := List.getElem?_eq_some_iff.1 hq
      rw [List.getElem?_eq_getElem (hlength ▸ hi)]
      exact (hbelow rfl).get hi (hlength ▸ hi)
  · rw [related, hother n hn, ← related]

/-- A change of the records of the first relation on the path. -/
theorem IsSameOff.cons (hsurface : r'.surface = r.surface)
    (hother : ∀ n, n ≠ name → r'.relation? n = r.relation? n)
    (hbelow : List.Forall₂ (IsSameOff path) (r.related name) (r'.related name)) :
    IsSameOff (name :: path) r r' where
  surface way hway := by
    rcases way with _ | ⟨⟨n, i⟩, way⟩
    · exact congrArg some hsurface
    · rw [Option.map_eq_bind, Option.map_eq_bind]
      refine bind_at?_congr hother fun hn => hbelow.imp fun q q' hq => ?_
      rw [← Option.map_eq_bind, ← Option.map_eq_bind]
      exact hq.surface way fun h => hway (hn ▸ List.cons_prefix_cons.2 ⟨rfl, h⟩)
  relation? way n hway hn := by
    rcases way with _ | ⟨⟨n', i⟩, way⟩
    · exact hother n fun heq => hn (heq ▸ ⟨path, rfl⟩)
    · refine bind_at?_congr hother fun hn' => hbelow.imp fun q q' hq => hq.relation? way n ?_ ?_
      · exact fun h => hway (hn' ▸ List.cons_prefix_cons.2 ⟨rfl, h⟩)
      · exact fun h => hn (hn' ▸ List.cons_prefix_cons.2 ⟨rfl, h⟩)

end Record

/-! ### Changes with a state -/

section State

variable {σ : Type}

/-- Only one value is changed, and so in the state at the start. -/
theorem Assoc.run_modifyM {α β : Type} [BEq α] (k : α) (f : β → StateM σ β) (es : List (α × β))
    (s : σ) : ((modifyM k f es).run s).1 = modify k (fun v => ((f v).run s).1) es := by
  induction es with
  | nil => rfl
  | cons e es ih =>
    obtain ⟨k', v⟩ := e
    rw [modifyM, modify]
    split
    · rfl
    · exact congrArg (List.cons (k', v)) ih

/-- Elements that are changed one after the other are related to what they were, if each is in
    every state. -/
theorem forall₂_mapM {α β : Type} {R : α → β → Prop} {f : α → StateM σ β}
    (h : ∀ a s, R a ((f a).run s).1) (as : List α) (s : σ) :
    List.Forall₂ R as ((as.mapM f).run s).1 := by
  induction as generalizing s with
  | nil => exact .nil
  | cons a as ih =>
    rw [List.mapM_cons]
    exact .cons (h a s) (ih _)

theorem run_mapM_of_forall {α β : Type} {f : α → β} {g : α → StateM σ β}
    (h : ∀ a s, ((g a).run s).1 = f a) (as : List α) (s : σ) :
    ((as.mapM g).run s).1 = as.map f := by
  have hvalues : List.Forall₂ (· = ·) (as.map f) ((as.mapM g).run s).1 :=
    List.forall₂_map_left_iff.2 (forall₂_mapM (fun a s => (h a s).symm) as s)
  rw [List.forall₂_eq_eq_eq] at hvalues
  exact hvalues.symm

namespace Related

variable {ρ τ : Type}

theorem cardinality_mapM (f : ρ → StateM σ τ) (rel : Related ρ) (s : σ) :
    ((rel.mapM f).run s).1.cardinality = rel.cardinality := by
  cases rel <;> rfl

theorem run_toList_mapM (f : ρ → StateM σ τ) (rel : Related ρ) (s : σ) :
    ((rel.mapM f).run s).1.toList = ((rel.toList.mapM f).run s).1 :=
  congrArg (fun x => (StateT.run x s).1) (toList_mapM f rel)

theorem run_mapM_of_forall {f : ρ → τ} {g : ρ → StateM σ τ}
    (h : ∀ r s, ((g r).run s).1 = f r) (rel : Related ρ) (s : σ) :
    ((rel.mapM g).run s).1 = rel.map f := by
  cases rel with
  | one o =>
    cases o with
    | none => rfl
    | some r => exact congrArg (fun r => one (some r)) (h r s)
  | many rs => exact congrArg many (EntityFetch.run_mapM_of_forall h rs s)

end Related

namespace Record

/-- A record is changed in the first relation on the path. -/
theorem run_updateAtM (name : String) (path : List String) (f : Record → StateM σ Record)
    (r : Record) (s : σ) :
    let change (rel : Related Record) := ((rel.mapM (updateAtM path f)).run s).1
    ((updateAtM (name :: path) f r).run s).1 =
      { r with relations := Assoc.modify name change r.relations } :=
  congrArg (Record.mk r.entity r.fields) (Assoc.run_modifyM name _ r.relations s)

/-- Whatever an update does with a state, nothing is changed but what is reached. -/
theorem isSameOff_updateAtM (path : List String) (f : Record → StateM σ Record) (r : Record)
    (s : σ) : IsSameOff path r ((updateAtM path f r).run s).1 := by
  induction path generalizing r s with
  | nil => exact isSameOff_nil ..
  | cons name path ih =>
    rw [run_updateAtM]
    refine .cons (surface_modify (fun rel => Related.cardinality_mapM _ rel s) name r)
      (fun n hn => ?_) ?_
    · exact (Assoc.lookup_modify ..).trans (if_neg (by simpa using hn))
    · rw [related, related, Record.relation?, Record.relation?, Assoc.lookup_modify,
        if_pos (beq_self_eq_true name)]
      cases r.relations.lookup name with
      | none => exact .nil
      | some rel =>
        change List.Forall₂ _ rel.toList ((rel.mapM (updateAtM path f)).run s).1.toList
        rw [Related.run_toList_mapM]
        exact forall₂_mapM ih rel.toList s

/-- An update whose results do not depend on the state changes records as one without a state. -/
theorem run_updateAtM_of_forall {f : Record → Record} {g : Record → StateM σ Record}
    (h : ∀ r s, ((g r).run s).1 = f r) (path : List String) (r : Record) (s : σ) :
    ((updateAtM path g r).run s).1 = updateAt path f r := by
  induction path generalizing r s with
  | nil => exact h r s
  | cons name path ih =>
    have hchange : (fun rel => ((Related.mapM (updateAtM path g) rel).run s).1) =
        Related.map (updateAt path f) := by
      funext rel
      exact Related.run_mapM_of_forall ih rel s
    rw [run_updateAtM, hchange, updateAt]

theorem isSameOff_updateAt (path : List String) (f : Record → Record) (r : Record) :
    IsSameOff path r (updateAt path f r) := by
  have h := isSameOff_updateAtM path (fun r => (pure (f r) : StateM Unit Record)) r ()
  rwa [run_updateAtM_of_forall fun _ _ => rfl] at h

end Record

end State

/-! ### Visits in order -/

namespace Record

/-- An update that notes what it is applied to. -/
def noting (f : Record → Record) (r : Record) : StateM (List Record) Record := do
  modify (· ++ [r])
  return f r

theorem run_mapM_noting (f : Record → Record) (rs seen : List Record) :
    (rs.mapM (noting f)).run seen = (rs.map f, seen ++ rs) := by
  induction rs generalizing seen with
  | nil => exact congrArg (Prod.mk []) (List.append_nil seen).symm
  | cons r rs ih =>
    rw [List.mapM_cons]
    change (f r :: ((rs.mapM (noting f)).run (seen ++ [r])).1,
      ((rs.mapM (noting f)).run (seen ++ [r])).2) = _
    rw [ih, List.append_assoc, List.map_cons, List.singleton_append]

/-- An update is applied to what is reached, once to each record and in order. -/
theorem run_updateAtM_noting (path : List String) (f : Record → Record) (rs : List Record) :
    (rs.mapM (updateAtM path (noting f))).run [] = (rs.map (updateAt path f), reached path rs) := by
  have hnoted := congrArg (fun x => (x.run []).2) (reached_updateAtM path (noting f) rs)
  rw [run_mapM_noting, List.nil_append] at hnoted
  refine Prod.ext (run_mapM_of_forall ?_ rs []) hnoted
  exact run_updateAtM_of_forall (fun _ _ => rfl) path

/-- An update that keeps the relations of a path does not change what is reached along it, unless
    it is made at its end or below. -/
theorem reached_updateAt_of_keeps {path names : List String} {f : Record → Record}
    (hf : ∀ r, ∀ name ∈ path, (f r).relation? name = r.relation? name)
    (hpath : ¬ path <+: names) (rs : List Record) :
    reached path (rs.map (updateAt names f)) = reached path rs := by
  refine reached_updateAt_of_related hpath (fun name hname r => ?_) rs
  rw [related, related, hf r name (hname.subset (by simp))]

/-- What is reached along a path is what an update there is applied to, once to each record and
    in order, with or without a state of its own. What is reached afterwards are the updated
    records, and all else is as it was. A longer path is gone along from each record that is
    reached along its first part, by either walk, and also after an update that keeps the
    relations of the path and is not made at its end or below. -/
theorem visits_agree (path : List String) (rs : List Record) :
    (∀ f : Record → Record,
      (rs.mapM (updateAtM path (noting f))).run [] =
        (rs.map (updateAt path f), reached path rs) ∧
      reached path (rs.map (updateAt path f)) = (reached path rs).map f ∧
      List.Forall₂ (IsSameOff path) rs (rs.map (updateAt path f))) ∧
    (∀ (σ : Type) (f : Record → StateM σ Record),
      reached path <$> rs.mapM (updateAtM path f) = (reached path rs).mapM f ∧
      ∀ s, List.Forall₂ (IsSameOff path) rs ((rs.mapM (updateAtM path f)).run s).1) ∧
    ∀ rest : List String,
      reached (path ++ rest) rs = (reached path rs).flatMap (fun r => reached rest [r]) ∧
      (∀ f, updateAt (path ++ rest) f = updateAt path (updateAt rest f)) ∧
      (∀ (σ : Type) (f : Record → StateM σ Record),
        updateAtM (path ++ rest) f = updateAtM path (updateAtM rest f)) ∧
      ∀ (f : Record → Record) (names : List String),
        (∀ r, ∀ name ∈ path ++ rest, (f r).relation? name = r.relation? name) →
        ¬ path ++ rest <+: names →
          reached (path ++ rest) (rs.map (updateAt names f)) =
            (reached path rs).flatMap fun r => reached rest [r] := by
  have hsplit : ∀ rest : List String,
      reached (path ++ rest) rs = (reached path rs).flatMap fun r => reached rest [r] := by
    intro rest
    rw [reached_append, ← reached_flatMap, List.flatMap_singleton']
  refine ⟨fun f => ⟨run_updateAtM_noting path f rs, reached_updateAt path f rs, ?_⟩,
    fun σ f => ⟨reached_updateAtM path f rs, ?_⟩,
    fun rest => ⟨hsplit rest, updateAt_append path rest, fun _ => updateAtM_append path rest,
      fun f names hf hnames => ?_⟩⟩
  · exact List.forall₂_map_right_iff.2 (List.forall₂_same.2 fun r _ => isSameOff_updateAt path f r)
  · exact forall₂_mapM (isSameOff_updateAtM path f) rs
  · rw [reached_updateAt_of_keeps hf hnames, hsplit]

/-- A comment with its author, if it has one. -/
def comment (id : Int) (author : Option Int) : Record :=
  { entity := "Comment", fields := [("id", .int id)]
    relations := [("author",
      .one (author.map fun id => { entity := "User", fields := [("id", .int id)] }))] }

/-- A task with three comments, the second of which has no author. -/
def commentedTask : Record :=
  { entity := "Task", fields := [("id", .int 1)]
    relations := [("owner", .one none),
      ("comments", .many [comment 1 (some 7), comment 2 none, comment 3 (some 8)])] }

/-- Authors are noted in the order of their comments, and they are reached as before when the
    comments have another relation. -/
theorem visits_agree_authors :
    (∀ f, (([commentedTask].mapM (updateAtM ["comments", "author"] (noting f))).run []).2.map
      Record.fields = [[("id", .int 7)], [("id", .int 8)]]) ∧
    ∀ rel, reached ["comments", "author"]
        ([commentedTask].map (updateAt ["comments"] (·.setRelation "likes" rel))) =
      reached ["comments", "author"] [commentedTask] := by
  constructor
  · intro f
    obtain ⟨hpure, -, -⟩ := visits_agree ["comments", "author"] [commentedTask]
    rw [(hpure f).1]
    rfl
  · intro rel
    obtain ⟨-, -, hrest⟩ := visits_agree ["comments"] [commentedTask]
    obtain ⟨hsplit, -, -, hkept⟩ := hrest ["author"]
    refine (hkept (·.setRelation "likes" rel) ["comments"] ?_ (by decide)).trans hsplit.symm
    intro r name hname
    have hne : name ≠ "likes" := by
      rintro rfl
      exact absurd hname (by decide)
    rw [relation?_setRelation, if_neg (by simpa using hne)]

end Record

end EntityFetch
