import Mathlib.Data.List.Nodup
import Mathlib.Data.List.Perm.Subperm
import EntityFetch.Statement.Alias
import EntityFetch.Proofs.Scan

/-!
# Aliases from a pool

What a base can be given is a list of candidates (`AliasPool.candidates`): the base itself,
as far as it fits, and then the base with each number. A pool gives the first of them that
is free (`AliasPool.allocate_eq`). One can also watch it put candidates into use one after the
other, until one was not in use before (`AliasPool.request`); a request that fails has then
changed nothing.

* `AliasPool.answers_request`: what one request does. Candidates with different numbers are
  different, since the number is what follows the last underscore. Hence a pool with more
  numbers than aliases in use has a free one.
* `AliasPool.serve_snd`: after any requests the aliases in use are those that were given, so that
  no alias is given twice.
* `AliasPool.isPlain_of_mem_candidates`: what is in snake case stays in small letters, digits and
  underscores.
-/

namespace EntityFetch

/-! ### Small letters -/

/-- Small letters, digits and underscores. -/
def isPlainChar (c : Char) : Bool :=
  c.isLower || c.isDigit || c == '_'

/-- A text of small letters, digits and underscores. -/
def IsPlain (s : String) : Prop :=
  ∀ c ∈ s.toList, isPlainChar c

theorem isPlainChar_toLower {c : Char} (h : c.isUpper) : isPlainChar c.toLower := by
  have hbounds : c.val ≥ 'A'.val ∧ c.val ≤ 'Z'.val := of_decide_eq_true h
  have hval : c.toLower.val = c.val + ('a'.val - 'A'.val) := congrArg Char.val (dif_pos hbounds)
  have hlower : c.toLower.val ≥ 'a'.val ∧ c.toLower.val ≤ 'z'.val := by
    rw [ge_iff_le, UInt32.le_iff_toNat_le, UInt32.le_iff_toNat_le] at hbounds
    rw [hval, ge_iff_le, UInt32.le_iff_toNat_le, UInt32.le_iff_toNat_le, UInt32.toNat_add]
    simp only [Char.reduceVal, UInt32.reduceToNat, UInt32.reduceSub] at hbounds ⊢
    omega
  have hsmall : c.toLower.isLower :=
    Bool.and_eq_true_iff.2 ⟨decide_eq_true hlower.1, decide_eq_true hlower.2⟩
  rw [isPlainChar, hsmall, Bool.true_or, Bool.true_or]

theorem isPlainChar_of_isAlphanum {c : Char} (h : c.isAlphanum) (hupper : ¬c.isUpper) :
    isPlainChar c := by
  have hclasses : ((c.isUpper || c.isLower) || c.isDigit) = true := h
  rw [Bool.eq_false_iff.2 hupper, Bool.false_or] at hclasses
  rw [isPlainChar, hclasses, Bool.true_or]

theorem toLower_of_isPlainChar {c : Char} (h : isPlainChar c) : c.toLower = c := by
  refine dif_neg ?_
  rintro ⟨hge, hle⟩
  rw [isPlainChar, Bool.or_eq_true, Bool.or_eq_true, beq_iff_eq] at h
  rcases h with (h | h) | rfl
  · have hsmall := of_decide_eq_true (Bool.and_eq_true_iff.1 h).1
    exact absurd (UInt32.le_trans hsmall hle) (by decide)
  · have hdigit := of_decide_eq_true (Bool.and_eq_true_iff.1 h).2
    exact absurd (UInt32.le_trans hge hdigit) (by decide)
  · exact absurd hle (by decide)

/-- Letters that are small stay as they are. -/
theorem IsPlain.toLower_eq {s : String} (h : IsPlain s) : s.toLower = s := by
  have hmap : s.toLower.toList = s.toList.map Char.toLower := String.toList_map
  rw [← String.toList_inj, hmap]
  exact (List.map_congr_left fun c hc => toLower_of_isPlainChar (h c hc)).trans (List.map_id _)

theorem IsPlain.append {s t : String} (hs : IsPlain s) (ht : IsPlain t) : IsPlain (s ++ t) := by
  intro c hc
  rw [String.toList_append] at hc
  exact (List.mem_append.1 hc).elim (hs c) (ht c)

theorem IsPlain.intercalate {separator : String} (hseparator : IsPlain separator) :
    ∀ {parts : List String}, (∀ s ∈ parts, IsPlain s) → IsPlain (separator.intercalate parts)
  | [], _ => fun _ hc => absurd hc List.not_mem_nil
  | [s], h => by
    rw [String.intercalate_singleton]
    exact h s List.mem_cons_self
  | s :: t :: parts, h => by
    rw [String.intercalate_cons_cons]
    exact ((h s List.mem_cons_self).append hseparator).append
      (hseparator.intercalate fun r hr => h r (List.mem_cons_of_mem _ hr))

theorem IsPlain.truncate {s : String} (h : IsPlain s) (n : Nat) :
    IsPlain (Text.truncate n s) := by
  intro c hc
  rw [Text.truncate, String.toList_ofList] at hc
  exact h c (List.mem_of_mem_take hc)

theorem isPlain_repr (n : Nat) : IsPlain n.repr := by
  intro c hc
  rw [isPlainChar, Token.isDigit_of_mem_repr hc, Bool.or_true, Bool.true_or]

theorem isPlainChar_of_mem_snakeChars {cs : List Char} {afterSmall : Bool} :
    ∀ c ∈ snakeChars afterSmall cs, isPlainChar c := by
  induction cs generalizing afterSmall with
  | nil => exact fun _ hc => absurd hc List.not_mem_nil
  | cons d cs ih =>
    have hmark : isPlainChar '_' := rfl
    rw [snakeChars]
    split
    · next hupper =>
      have hlower := isPlainChar_toLower hupper
      split
      · exact List.forall_mem_cons.2 ⟨hmark, List.forall_mem_cons.2 ⟨hlower, ih⟩⟩
      · exact List.forall_mem_cons.2 ⟨hlower, ih⟩
    · next hupper =>
      split
      · next halnum =>
        exact List.forall_mem_cons.2 ⟨isPlainChar_of_isAlphanum halnum hupper, ih⟩
      · exact List.forall_mem_cons.2 ⟨hmark, ih⟩

theorem isPlain_snakeCase (name : String) : IsPlain (snakeCase name) := by
  intro c hc
  rw [snakeCase, String.toList_ofList] at hc
  exact isPlainChar_of_mem_snakeChars c hc

theorem isPlain_pathAlias (path : String) : IsPlain (pathAlias path) := by
  refine IsPlain.intercalate (fun c hc => ?_) fun s hs => ?_
  · rw [List.eq_of_mem_replicate (show c ∈ List.replicate 2 '_' from hc)]
    rfl
  · obtain ⟨name, -, rfl⟩ := List.mem_map.1 hs
    exact isPlain_snakeCase name

namespace AliasPool

variable {p p' : AliasPool} {base aliasName : String}

/-! ### Candidates -/

/-- What a base can be given: itself, as far as it fits, or with one of the numbers. -/
def candidates (p : AliasPool) (base : String) : List String :=
  Text.truncate p.maxLength base ::
    (List.range' 1 p.maxSuffix).map (p.numbered (Text.truncate p.maxLength base))

theorem firstNumbered?_eq (p : AliasPool) (base : String) (n left : Nat) :
    p.firstNumbered? base n left =
      ((List.range' n left).map (p.numbered base)).find? (!p.contains ·) := by
  induction left generalizing n with
  | zero => rfl
  | succ left ih =>
    rw [firstNumbered?, List.range'_succ, List.map_cons, List.find?_cons]
    cases hc : p.contains (p.numbered base n) with
    | true => exact ih (n + 1)
    | false => rfl

/-- A base is given the first candidate that is free. -/
theorem allocate_eq (p : AliasPool) (base : String) :
    p.allocate base = match (p.candidates base).find? (!p.contains ·) with
      | some aliasName => .ok (aliasName, { p with used := aliasName :: p.used })
      | none =>
        .error (Fault.aliasCollision (Text.truncate p.maxLength base) p.maxSuffix) := by
  have hfree : p.free? (Text.truncate p.maxLength base) =
      (p.candidates base).find? (!p.contains ·) := by
    rw [candidates, List.find?_cons, free?, firstNumbered?_eq]
    cases p.contains (Text.truncate p.maxLength base) <;> rfl
  rewrite [allocate, hfree]
  rfl

/-- An alias is the first candidate of a base that is free. -/
def IsFirstFree (p : AliasPool) (base aliasName : String) : Prop :=
  ∃ before after, p.candidates base = before ++ aliasName :: after ∧
    (∀ b ∈ before, b ∈ p.used) ∧ aliasName ∉ p.used

/-- The first that is free is one of its candidates. -/
theorem IsFirstFree.mem_candidates (h : p.IsFirstFree base aliasName) :
    aliasName ∈ p.candidates base := by
  obtain ⟨before, after, hsplit, -⟩ := h
  rw [hsplit]
  exact List.mem_append_right _ List.mem_cons_self

theorem IsFirstFree.notMem_used (h : p.IsFirstFree base aliasName) : aliasName ∉ p.used := by
  obtain ⟨-, -, -, -, hfree⟩ := h
  exact hfree

theorem contains_iff : p.contains aliasName = true ↔ aliasName ∈ p.used :=
  List.contains_iff_mem

/-- What is allocated was the first candidate that was free, and is in use from then on. -/
theorem allocate_eq_ok (h : p.allocate base = .ok (aliasName, p')) :
    p.IsFirstFree base aliasName ∧ p' = { p with used := aliasName :: p.used } := by
  rw [allocate_eq] at h
  split at h
  · next hfind =>
    obtain ⟨rfl, rfl⟩ := Prod.mk.inj (Except.ok.inj h)
    obtain ⟨hfree, before, after, hsplit, hbefore⟩ := List.find?_eq_some_iff_append.1 hfind
    refine ⟨⟨before, after, hsplit, fun b hb => ?_, fun hused => ?_⟩, rfl⟩
    · have := hbefore b hb
      rwa [Bool.not_not, contains_iff] at this
    · rw [contains_iff.2 hused] at hfree
      cases hfree
  · cases h

theorem mem_used_of_allocate (h : p.allocate base = .ok (aliasName, p')) :
    aliasName ∈ p'.used :=
  (allocate_eq_ok h).2 ▸ List.mem_cons_self

/-- Allocating fails if all candidates are in use. -/
theorem allocate_eq_error {err : QueryError} (h : p.allocate base = .error err) :
    (∀ a ∈ p.candidates base, a ∈ p.used) ∧
      err = Fault.aliasCollision (Text.truncate p.maxLength base) p.maxSuffix := by
  rw [allocate_eq] at h
  split at h
  · cases h
  · next hfind =>
    refine ⟨fun a ha => ?_, (Except.error.inj h).symm⟩
    have := List.find?_eq_none.1 hfind a ha
    rwa [Bool.not_eq_true, Bool.not_eq_false', contains_iff] at this

/-- A number is at most as long as a greater one. -/
theorem length_repr_le {m n : Nat} (h : m ≤ n) : m.repr.length ≤ n.repr.length := by
  have hn := (Nat.length_repr_le_iff Nat.length_repr_pos).1 (Nat.le_refl n.repr.length)
  exact (Nat.length_repr_le_iff Nat.length_repr_pos).2 (Nat.lt_of_le_of_lt h hn)

theorem length_truncate_le (n : Nat) (s : String) : (Text.truncate n s).length ≤ n := by
  rw [Text.truncate, String.length_ofList]
  exact List.length_take_le _ _

/-- If an underscore and the greatest number fit, then all candidates do. -/
theorem length_le_of_mem_candidates (hfits : p.maxSuffix.repr.length < p.maxLength)
    (h : aliasName ∈ p.candidates base) : aliasName.length ≤ p.maxLength := by
  rcases List.mem_cons.1 h with rfl | h
  · exact length_truncate_le _ _
  · obtain ⟨n, hn, rfl⟩ := List.mem_map.1 h
    have hsuffix : ("_" ++ n.repr).length ≤ p.maxLength := by
      have hle : n ≤ p.maxSuffix := by
        have := List.mem_range'_1.1 hn
        omega
      have hrepr := length_repr_le hle
      rw [String.length_append, show "_".length = 1 from rfl]
      omega
    have hcut := length_truncate_le (p.maxLength - ("_" ++ n.repr).length)
      (Text.truncate p.maxLength base)
    rw [numbered, String.length_append]
    omega

/-- The number of a candidate is what follows its last underscore. -/
theorem numbered_inj {base' : String} {m n : Nat}
    (h : p.numbered base m = p.numbered base' n) : m = n := by
  have hdigits : ∀ (b : String) (k : Nat),
      (p.numbered b k).toList.reverse.takeWhile Char.isDigit = k.repr.toList.reverse := by
    intro b k
    rw [numbered, String.toList_append, String.toList_append, List.reverse_append,
      List.reverse_append, List.append_assoc,
      List.takeWhile_append_of_pos fun c hc => Token.isDigit_of_mem_repr (List.mem_reverse.1 hc),
      show "_".toList.reverse = ['_'] from rfl, List.singleton_append,
      List.takeWhile_cons_of_neg (by decide), List.append_nil]
  have heq : m.repr.toList.reverse = n.repr.toList.reverse := by
    rw [← hdigits base, h, hdigits]
  exact Token.eq_of_toList_repr (List.reverse_injective heq)

/-- A base that can be given nothing needs as many aliases in use as there are numbers. -/
theorem maxSuffix_le_length_used (h : ∀ a ∈ p.candidates base, a ∈ p.used) :
    p.maxSuffix ≤ p.used.length := by
  let numbers := (List.range' 1 p.maxSuffix).map (p.numbered (Text.truncate p.maxLength base))
  have hdistinct : numbers.Nodup :=
    List.Nodup.map (fun _ _ heq => numbered_inj heq) (List.nodup_range' 1)
  have hused : numbers ⊆ p.used := fun a ha => h a (List.mem_cons_of_mem _ ha)
  have hlength : numbers.length = p.maxSuffix := by
    rw [List.length_map, List.length_range']
  exact hlength ▸ (hdistinct.subperm hused).length_le

/-- What is in snake case stays so. -/
theorem isPlain_of_mem_candidates (hbase : IsPlain base) (h : aliasName ∈ p.candidates base) :
    IsPlain aliasName := by
  rcases List.mem_cons.1 h with rfl | h
  · exact hbase.truncate _
  · obtain ⟨n, -, rfl⟩ := List.mem_map.1 h
    have hmark : IsPlain "_" := fun c hc => by rw [List.mem_singleton.1 hc]; rfl
    exact ((hbase.truncate _).truncate _).append (hmark.append (isPlain_repr n))

/-! ### Requests -/

/-- Puts an alias into use, and says whether it was free. -/
def insert (p : AliasPool) (aliasName : String) : Bool × AliasPool :=
  if p.contains aliasName then (false, p)
  else (true, { p with used := aliasName :: p.used })

/-- Puts aliases into use one after the other, until one was free. -/
def insertFirst (p : AliasPool) : List String → Option String × AliasPool
  | [] => (none, p)
  | aliasName :: rest =>
    match p.insert aliasName with
    | (true, p') => (some aliasName, p')
    | (false, p') => p'.insertFirst rest

/-- The answer to a request for an alias, and the pool after it. -/
def request (p : AliasPool) (base : String) : Except QueryError String × AliasPool :=
  match p.insertFirst (p.candidates base) with
  | (some aliasName, p') => (.ok aliasName, p')
  | (none, p') =>
    (.error (Fault.aliasCollision (Text.truncate p.maxLength base) p.maxSuffix), p')

/-- What was in use before changes nothing when it is put into use again. -/
theorem insertFirst_eq (p : AliasPool) (aliases : List String) :
    p.insertFirst aliases = match aliases.find? (!p.contains ·) with
      | some aliasName => (some aliasName, { p with used := aliasName :: p.used })
      | none => (none, p) := by
  induction aliases with
  | nil => rfl
  | cons a rest ih =>
    rw [insertFirst, insert, List.find?_cons]
    cases p.contains a with
    | true => exact ih
    | false => rfl

/-- A request is what is allocated, and leaves the pool as it is if nothing is. -/
theorem request_eq (p : AliasPool) (base : String) :
    p.request base = match p.allocate base with
      | .ok (aliasName, p') => (.ok aliasName, p')
      | .error err => (.error err, p) := by
  rw [request, insertFirst_eq, allocate_eq]
  cases (p.candidates base).find? (!p.contains ·) <;> rfl

/-- What one request does. -/
structure Answers (p : AliasPool) (base : String) (answer : Except QueryError String)
    (p' : AliasPool) : Prop where
  /-- What is given is what is allocated. -/
  allocated : p.allocate base = answer.map fun aliasName => (aliasName, p')
  /-- It fails just if all candidates are in use. -/
  fails_iff : (∃ err, answer = .error err) ↔ ∀ a ∈ p.candidates base, a ∈ p.used
  /-- Then the pool stays as it is. -/
  failed : ∀ err, answer = .error err →
    err = Fault.aliasCollision (Text.truncate p.maxLength base) p.maxSuffix ∧ p' = p
  /-- Otherwise just what is given comes into use. -/
  given : ∀ aliasName, answer = .ok aliasName →
    p.IsFirstFree base aliasName ∧ p' = { p with used := aliasName :: p.used }
  /-- It does not fail as long as there are more numbers than aliases in use. -/
  given_of_lt : p.used.length < p.maxSuffix → ∃ aliasName, answer = .ok aliasName

theorem answers_request (p : AliasPool) (base : String) :
    p.Answers base (p.request base).1 (p.request base).2 := by
  rw [request_eq]
  cases halloc : p.allocate base with
  | error err =>
    obtain ⟨hall, herr⟩ := allocate_eq_error halloc
    -- A pool that gives nothing stays as it is.
    change p.Answers base (.error err) p
    constructor
    case allocated => exact halloc
    case fails_iff => exact ⟨fun _ => hall, fun _ => ⟨err, rfl⟩⟩
    case failed => exact fun _ h => ⟨(Except.error.inj h).symm.trans herr, rfl⟩
    case given => exact nofun
    case given_of_lt =>
      exact fun hlt => absurd (maxSuffix_le_length_used hall) (Nat.not_le_of_gt hlt)
  | ok granted =>
    obtain ⟨aliasName, p'⟩ := granted
    have hgiven := allocate_eq_ok halloc
    change p.Answers base (.ok aliasName) p'
    constructor
    case allocated => exact halloc
    case fails_iff =>
      constructor
      · rintro ⟨_, h⟩
        cases h
      · exact fun hall => absurd (hall _ hgiven.1.mem_candidates) hgiven.1.notMem_used
    case failed =>
      intro _ h
      cases h
    case given =>
      intro _ h
      obtain rfl := Except.ok.inj h
      exact hgiven
    case given_of_lt => exact fun _ => ⟨aliasName, rfl⟩

/-- The answers to requests one after the other, and the pool after them. -/
def serve (p : AliasPool) : List String → List (Except QueryError String) × AliasPool
  | [] => ([], p)
  | base :: bases =>
    ((p.request base).1 :: ((p.request base).2.serve bases).1,
      ((p.request base).2.serve bases).2)

/-- The aliases among some answers. -/
def given (answers : List (Except QueryError String)) : List String :=
  answers.filterMap Except.toOption

/-- A request that is met goes first. -/
theorem serve_cons_of_allocate (h : p.allocate base = .ok (aliasName, p'))
    (bases : List String) :
    p.serve (base :: bases) = (.ok aliasName :: (p'.serve bases).1, (p'.serve bases).2) := by
  rw [serve, request_eq, h]

theorem serve_append (p : AliasPool) (before after : List String) :
    p.serve (before ++ after) =
      ((p.serve before).1 ++ ((p.serve before).2.serve after).1,
        ((p.serve before).2.serve after).2) := by
  induction before generalizing p with
  | nil => rfl
  | cons base before ih => simp only [List.cons_append, serve, ih]

theorem given_cons (answer : Except QueryError String)
    (answers : List (Except QueryError String)) :
    given (answer :: answers) = given [answer] ++ given answers := by
  cases answer <;> rfl

/-- What is in use after a request is what is given and what was in use before. -/
theorem request_snd (p : AliasPool) (base : String) :
    (p.request base).2 =
      { p with used := (given [(p.request base).1]).reverse ++ p.used } := by
  have h := p.answers_request base
  cases hanswer : (p.request base).1 with
  | error err => exact (h.failed err hanswer).2
  | ok aliasName => exact (h.given aliasName hanswer).2

/-- What is in use in the end is what was given, the last first, and what was in use before. -/
theorem serve_snd (p : AliasPool) (bases : List String) :
    (p.serve bases).2 = { p with used := (given (p.serve bases).1).reverse ++ p.used } := by
  induction bases generalizing p with
  | nil => rfl
  | cons base bases ih =>
    have hsnd := p.request_snd base
    simp only [serve]
    rw [given_cons (p.request base).1, List.reverse_append, List.append_assoc]
    generalize (p.request base).2 = q at hsnd
    subst hsnd
    exact ih _

/-- A request puts nothing into use twice. -/
theorem nodup_used_request (hp : p.used.Nodup) : (p.request base).2.used.Nodup := by
  have h := p.answers_request base
  cases hanswer : (p.request base).1 with
  | error err =>
    rw [(h.failed err hanswer).2]
    exact hp
  | ok aliasName =>
    obtain ⟨hfirst, hp'⟩ := h.given aliasName hanswer
    rw [hp']
    exact List.nodup_cons.2 ⟨hfirst.notMem_used, hp⟩

theorem nodup_used_serve (hp : p.used.Nodup) (bases : List String) :
    (p.serve bases).2.used.Nodup := by
  induction bases generalizing p with
  | nil => exact hp
  | cons base bases ih => exact ih (nodup_used_request hp)

/-- No alias is given twice. -/
theorem nodup_given_serve (hp : p.used = []) (bases : List String) :
    (given (p.serve bases).1).Nodup := by
  have h := nodup_used_serve (hp ▸ List.nodup_nil) bases
  rwa [serve_snd, hp, List.append_nil, List.nodup_reverse] at h

/-- What holds of all candidates holds of all that is given. -/
theorem forall_given_serve {P : String → Prop} {bases : List String}
    (h : ∀ base ∈ bases, ∀ a ∈ p.candidates base, P a) :
    ∀ a ∈ given (p.serve bases).1, P a := by
  induction bases generalizing p with
  | nil => exact fun _ ha => absurd ha List.not_mem_nil
  | cons base bases ih =>
    intro a ha
    rw [serve, given_cons, List.mem_append] at ha
    rcases ha with ha | ha
    · cases hanswer : (p.request base).1 with
      | error err =>
        rw [hanswer] at ha
        exact absurd ha List.not_mem_nil
      | ok aliasName =>
        rw [hanswer] at ha
        obtain rfl := List.mem_singleton.1 ha
        exact h base List.mem_cons_self a
          ((p.answers_request base).given a hanswer).1.mem_candidates
    · -- Requests keep the bounds, on which the candidates depend.
      refine ih (fun b hb => ?_) a ha
      rw [request_snd]
      exact h b (List.mem_cons_of_mem _ hb)

end AliasPool

end EntityFetch
