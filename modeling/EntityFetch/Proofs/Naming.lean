import EntityFetch.Proofs.Partition
import EntityFetch.Proofs.Scoped

/-!
# Names of the tables of a statement

Every statement has a pool of its own, from which its tables get their aliases one after the
other. What holds of all answers of a pool (`AliasPool.IsOrderly`) thus holds of the aliases of
a statement; as their bases are in snake case, they also differ where capital letters are not
told from small ones.

* `AliasPool.isOrderly_serve`: a pool in which nothing is in use gives no alias twice, and each
  answer is the first candidate that is free.
* `Compiler.aliases_of_compile`: the aliases of a compiled statement are what such a pool gives.
-/

namespace EntityFetch

/-- What aliases are made from: the name of an entity or the path of a relation. -/
inductive IsAliasBase : String → Prop
  | entity (name : String) : IsAliasBase (snakeCase name)
  | path (path : String) : IsAliasBase (pathAlias path)

theorem IsAliasBase.isPlain {base : String} (h : IsAliasBase base) : IsPlain base := by
  cases h with
  | entity name => exact isPlain_snakeCase name
  | path path => exact isPlain_pathAlias path

namespace AliasPool

variable {p : AliasPool} {bases : List String}

/-- How a pool answers requests one after the other. -/
structure IsOrderly (p : AliasPool) (bases : List String) : Prop where
  nodup : (given (p.serve bases).1).Nodup
  length_le : ∀ a ∈ given (p.serve bases).1, a.length ≤ p.maxLength
  /-- What was given is what is in use. -/
  used : (p.serve bases).2.used = (given (p.serve bases).1).reverse
  /-- Every answer goes by the requests before it. -/
  answers : ∀ before base after, bases = before ++ base :: after →
    ∃ answer, (p.serve bases).1[before.length]? = some answer ∧
      (p.serve before).2.Answers base answer (p.serve (before ++ [base])).2
  isPlain : (∀ base ∈ bases, IsAliasBase base) → ∀ a ∈ given (p.serve bases).1, IsPlain a

theorem length_serve (p : AliasPool) (bases : List String) :
    (p.serve bases).1.length = bases.length := by
  induction bases generalizing p with
  | nil => rfl
  | cons base bases ih => rw [serve, List.length_cons, List.length_cons, ih]

theorem isOrderly (hused : p.used = [])
    (hfits : p.maxSuffix.repr.length < p.maxLength) (bases : List String) :
    p.IsOrderly bases where
  nodup := nodup_given_serve hused bases
  length_le := forall_given_serve fun _ _ _ => length_le_of_mem_candidates hfits
  used := by rw [serve_snd, hused, List.append_nil]
  answers := by
    rintro before base after rfl
    refine ⟨((p.serve before).2.request base).1, ?_, ?_⟩
    · rw [serve_append, ← p.length_serve before, List.getElem?_append_right (Nat.le_refl _),
        Nat.sub_self]
      rfl
    · rw [serve_append]
      exact answers_request _ _
  isPlain h := forall_given_serve fun base hbase _ => isPlain_of_mem_candidates (h base hbase).isPlain

theorem given_map_ok (aliases : List String) : given (aliases.map .ok) = aliases := by
  rw [given, List.filterMap_map]
  exact List.filterMap_some

end AliasPool

namespace Reading

variable {k : Compiler} {plan : LoadPlan} {R : Reading}

theorem isAliasBase_of_mem_bases {base : String} (h : base ∈ R.bases plan) :
    IsAliasBase base := by
  rcases List.mem_cons.1 h with rfl | h
  · cases R.root with
    | none => exact .entity plan.root
    | some r => exact .path r.path
  · obtain ⟨j, -, rfl⟩ := List.mem_map.1 h
    exact .path j.relation.path

/-- The aliases of the statement are what the pool gives. -/
theorem IsNamed.aliases_eq (h : R.IsNamed k plan) (scope : QueryScope) :
    (k.pool.serve (R.bases plan)).1 = (R.statement scope).aliases.map .ok := by
  rw [h, ← R.map_aliasName_slots scope, List.map_map]
  rfl

end Reading

namespace Compiler

variable {k : Compiler} {plan : LoadPlan} {scope : QueryScope} {compiled : CompiledPlan}
  {cs : CompiledStatement}

/-- Compiled statements have the aliases that a pool of their own gives. -/
theorem aliases_of_compile (h : k.compile plan scope = .ok compiled)
    (hcs : cs ∈ compiled.statements) :
    ∃ bases, (∀ base ∈ bases, IsAliasBase base) ∧
      (k.pool.serve bases).1 = cs.statement.aliases.map .ok := by
  obtain ⟨statements, hstatements, h⟩ := bind_eq_ok.1 h
  obtain rfl := pure_eq_ok.1 h
  obtain ⟨i, hi⟩ := List.mem_iff_getElem?.1 hcs
  obtain ⟨group, -, hcompile⟩ := exists_of_mapM_eq_ok hstatements hi
  obtain ⟨R, -, -, hnamed, rfl⟩ := Reading.exists_of_compileGroup hcompile
  exact ⟨R.bases plan, fun _ => Reading.isAliasBase_of_mem_bases, hnamed.aliases_eq scope⟩

/-- Whatever the names of entities and relations are, the aliases are in small letters. -/
theorem isPlain_of_mem_aliases (h : k.compile plan scope = .ok compiled)
    (hcs : cs ∈ compiled.statements) : ∀ a ∈ cs.statement.aliases, IsPlain a := by
  obtain ⟨bases, hbases, hserve⟩ := aliases_of_compile h hcs
  rw [← AliasPool.given_map_ok cs.statement.aliases, ← hserve]
  exact AliasPool.forall_given_serve fun base hbase _ =>
    AliasPool.isPlain_of_mem_candidates (hbases base hbase).isPlain

/-- They are different also if capital letters are not told from small ones. -/
theorem nodup_toLower_aliases (h : k.compile plan scope = .ok compiled)
    (hcs : cs ∈ compiled.statements) : (cs.statement.aliases.map String.toLower).Nodup := by
  obtain ⟨bases, -, hserve⟩ := aliases_of_compile h hcs
  rw [List.map_congr_left fun a ha => (isPlain_of_mem_aliases h hcs a ha).toLower_eq, List.map_id',
    ← AliasPool.given_map_ok cs.statement.aliases, ← hserve]
  exact AliasPool.nodup_given_serve rfl bases

end Compiler

namespace AliasPool

/-- Aliases are given without collisions, within their bounds, and as long as there are any:
    whatever is asked for, one after the other. The tables of a compiled statement get theirs
    in this way. -/
theorem isOrderly_serve (maxLength maxSuffix : Nat) (hfits : 1 + maxSuffix.repr.length ≤ maxLength)
    (bases : List String) :
    IsOrderly { maxLength, maxSuffix } bases ∧
      ∀ (k : Compiler) (plan : LoadPlan) (scope : QueryScope) (compiled : CompiledPlan),
        k.compile plan scope = .ok compiled → ∀ cs ∈ compiled.statements,
          (∃ bases, (∀ base ∈ bases, IsAliasBase base) ∧
            (k.pool.serve bases).1 = cs.statement.aliases.map .ok) ∧
          (cs.statement.aliases.map String.toLower).Nodup := by
  refine ⟨isOrderly (p := { maxLength, maxSuffix }) rfl (Nat.one_add_le_iff.1 hfits) bases, ?_⟩
  intro k plan scope compiled hcompile cs hcs
  exact ⟨Compiler.aliases_of_compile hcompile hcs, Compiler.nodup_toLower_aliases hcompile hcs⟩

/-- With one number, the third request for an alias of at most four characters fails. -/
theorem isOrderly_serve_owners :
    ∃ collision, (serve { maxLength := 4, maxSuffix := 1 } ["user", "user", "users"]).1 =
        [.ok "user", .ok "us_1", .error collision] ∧
      IsOrderly { maxLength := 4, maxSuffix := 1 } ["user", "user", "users"] ∧
      ∃ catalog, Catalog.build taskDecls = .ok catalog ∧
      ∃ g, Graph.resolve catalog 4 "Task" [⟨["project"]⟩] = .ok g ∧
      ∃ compiled, Compiler.compile ⟨catalog, {}, { maxIdentifierLength := 8 }⟩
          (StrategyDefaults.select {} g) {} = .ok compiled ∧
        compiled.statements.map (fun cs => cs.statement.aliases) = [["task", "project", "owner"]] ∧
        ∀ cs ∈ compiled.statements, (cs.statement.aliases.map String.toLower).Nodup := by
  have horderly := isOrderly_serve 4 1 (by decide) ["user", "user", "users"]
  refine ⟨_, rfl, horderly.1, ?_⟩
  obtain ⟨catalog, hbuild, g, hg, compiled, hcompile, haliases⟩ :
      ∃ catalog, Catalog.build taskDecls = .ok catalog ∧
      ∃ g, Graph.resolve catalog 4 "Task" [⟨["project"]⟩] = .ok g ∧
      ∃ compiled, Compiler.compile ⟨catalog, {}, { maxIdentifierLength := 8 }⟩
          (StrategyDefaults.select {} g) {} = .ok compiled ∧
        compiled.statements.map (fun cs => cs.statement.aliases) =
          [["task", "project", "owner"]] := ⟨_, rfl, _, rfl, _, rfl, rfl⟩
  exact ⟨catalog, hbuild, g, hg, compiled, hcompile, haliases,
    fun cs hcs => (horderly.2 _ _ _ _ hcompile cs hcs).2⟩

end AliasPool

end EntityFetch
