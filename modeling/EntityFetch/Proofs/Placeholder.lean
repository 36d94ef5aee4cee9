import EntityFetch.Config.Placeholder
import EntityFetch.Sql.Identifier
import Mathlib.Data.List.Basic

/-!
# What becomes of placeholders

A configuration is meant to be read with the placeholder of every variable that is set replaced
by its value, and nothing else changed (`Placeholder.Replaces`). A placeholder is read up to the
next `}` though, whatever is in between. So a `${` that is not closed before it takes what comes
next into its name, up to and with the end of the next placeholder (`Placeholder.IsOpen`). The
texts to which this does not happen are those that are expanded as they are meant to be, whatever
the values of the variables are (`Placeholder.replaces_expand_iff`).
-/

namespace EntityFetch.Placeholder

variable {env : Environment} {name word before after cs out o : List Char} {c : Char}

/-- The text of a placeholder. -/
def written (name : List Char) : List Char :=
  '$' :: '\x7b' :: (name ++ ['\x7d'])

/-- Whether a name is one of those that variables have: letters, digits and underscores, the first
    of which is no digit. -/
def IsWord (name : List Char) : Prop :=
  name ≠ [] ∧ name.head?.any Char.isDigit = false ∧ name.all Identifier.isWordChar

instance (name : List Char) : Decidable (IsWord name) :=
  inferInstanceAs (Decidable (_ ∧ _ ∧ _))

theorem IsWord.not_mem (h : IsWord name) (hc : Identifier.isWordChar c = false) : c ∉ name := by
  intro hmem
  have hword := List.all_eq_true.1 h.2.2 c hmem
  rw [hc] at hword
  exact Bool.false_ne_true hword

theorem IsWord.dollar_not_mem (h : IsWord name) : '$' ∉ name :=
  h.not_mem (by decide)

theorem IsWord.close_not_mem (h : IsWord name) : '\x7d' ∉ name :=
  h.not_mem (by decide)

/-- Whether a text starts with the placeholder of a variable that is set. -/
def StartsSet (env : Environment) (cs : List Char) : Prop :=
  ∃ word, IsWord word ∧ (env (.ofList word)).isSome ∧ written word <+: cs

/-- A text with the placeholders of variables that are set replaced by their values, and no other
    change. -/
inductive Replaces (env : Environment) : List Char → List Char → Prop
  | nil : Replaces env [] []
  | value {word : List Char} {v : String} {cs out : List Char} : IsWord word →
      env (.ofList word) = some v → Replaces env cs out →
        Replaces env (written word ++ cs) (v.toList ++ out)
  | keep {c : Char} {cs out : List Char} : ¬StartsSet env (c :: cs) → Replaces env cs out →
      Replaces env (c :: cs) (c :: out)

/-- Whether there is a `${` with no `}` after it. -/
def IsOpen (cs : List Char) : Prop :=
  ∃ name, '$' :: '\x7b' :: name <:+ cs ∧ '\x7d' ∉ name

/-! ### Where placeholders are -/

/-- What is before the first `}` of a text and what is after it. -/
theorem append_close_inj {xs xs' ys ys' : List Char} (h : '\x7d' ∉ xs) (h' : '\x7d' ∉ xs')
    (heq : xs ++ '\x7d' :: ys = xs' ++ '\x7d' :: ys') : xs = xs' ∧ ys = ys' := by
  have htake : ∀ {xs ys : List Char}, '\x7d' ∉ xs →
      (xs ++ '\x7d' :: ys).takeWhile (· != '\x7d') = xs := by
    intro xs ys hxs
    have hne : ∀ c ∈ xs, (c != '\x7d') = true :=
      fun c hc => bne_iff_ne.2 (ne_of_mem_of_not_mem hc hxs)
    rw [List.takeWhile_append_of_pos hne, List.takeWhile_cons_of_neg (by decide), List.append_nil]
  obtain rfl : xs = xs' := by rw [← htake h, heq, htake h']
  exact ⟨rfl, (List.cons.inj (List.append_cancel_left heq)).2⟩

theorem written_append (name cs : List Char) :
    written name ++ cs = ('$' :: '\x7b' :: name) ++ '\x7d' :: cs := by
  simp [written]

/-- What is opened last in what a placeholder opens is that placeholder or in its name. -/
theorem append_open_eq (heq : before ++ '$' :: '\x7b' :: word = '$' :: '\x7b' :: name) :
    before = [] ∧ word = name ∨
      ∃ start, before = '$' :: '\x7b' :: start ∧ name = start ++ '$' :: '\x7b' :: word := by
  match before with
  | [] => exact .inl ⟨rfl, by simpa using heq⟩
  | [d] => simp at heq
  | d :: e :: start =>
    obtain ⟨rfl, hrest⟩ := List.cons.inj heq
    obtain ⟨rfl, hname⟩ := List.cons.inj hrest
    exact .inr ⟨start, rfl, hname.symm⟩

/-- A placeholder in a text that starts with another one comes after that one, is that one or is
    the end of it. -/
theorem split_written (h : '\x7d' ∉ name) (h' : '\x7d' ∉ word)
    (heq : before ++ (written word ++ after) = written name ++ cs) :
    (∃ rest, before = written name ++ rest ∧ rest ++ (written word ++ after) = cs) ∨
      (before = [] ∧ word = name ∧ after = cs) ∨
        ∃ start, before = '$' :: '\x7b' :: start ∧ name = start ++ '$' :: '\x7b' :: word := by
  have hname : '\x7d' ∉ '$' :: '\x7b' :: name := by simpa using h
  rw [written_append name] at heq
  by_cases hbefore : '\x7d' ∈ before
  · obtain ⟨start, rest, rfl, hstart⟩ := List.eq_append_cons_of_mem hbefore
    rw [List.append_assoc, List.cons_append] at heq
    obtain ⟨rfl, hrest⟩ := append_close_inj hstart hname heq
    exact .inl ⟨rest, (written_append name rest).symm, hrest⟩
  · have hword : '\x7d' ∉ before ++ '$' :: '\x7b' :: word := by simp [hbefore, h']
    rw [written_append, ← List.append_assoc] at heq
    obtain ⟨hopen, hafter⟩ := append_close_inj hword hname heq
    rcases append_open_eq hopen with ⟨hnil, hsame⟩ | hlonger
    · exact .inr (.inl ⟨hnil, hsame, hafter⟩)
    · exact .inr (.inr hlonger)

/-- Whether a name is opened at the start of a text: by a `${` with something other than a `}`
    behind it. -/
def Opens (cs : List Char) : Prop :=
  ∃ d ds, cs = '$' :: '\x7b' :: d :: ds ∧ d ≠ '\x7d'

theorem opens_append (hne : name ≠ []) (h : '\x7d' ∉ name) (cs : List Char) :
    Opens ('$' :: '\x7b' :: (name ++ cs)) := by
  obtain ⟨d, ds, rfl⟩ := List.exists_cons_of_ne_nil hne
  exact ⟨d, ds ++ cs, rfl, fun hd => h (hd ▸ List.mem_cons_self)⟩

theorem opens_written (hne : name ≠ []) (h : '\x7d' ∉ name) (cs : List Char) :
    Opens (written name ++ cs) := by
  have heq : written name ++ cs = '$' :: '\x7b' :: (name ++ '\x7d' :: cs) := by simp [written]
  exact heq ▸ opens_append hne h _

theorem StartsSet.opens (h : StartsSet env cs) : Opens cs := by
  obtain ⟨word, hword, -, rest, rfl⟩ := h
  exact opens_written hword.1 hword.close_not_mem rest

/-- A text is read from the left: character by character, and each name that is opened up to the
    next `}`, or to the end if there is none. -/
theorem reading_induction {P : List Char → Prop} (nil : P [])
    (keep : ∀ c cs, ¬Opens (c :: cs) → P cs → P (c :: cs))
    (closed : ∀ name cs, name ≠ [] → '\x7d' ∉ name → P cs → P (written name ++ cs))
    (unclosed : ∀ name, name ≠ [] → '\x7d' ∉ name → P ('$' :: '\x7b' :: name)) :
    ∀ cs, P cs := by
  -- A placeholder is read as a whole, so that the induction is on a bound of the length.
  suffices h : ∀ (n : Nat) (cs : List Char), cs.length ≤ n → P cs from
    fun cs => h cs.length cs (Nat.le_refl _)
  intro n
  induction n with
  | zero =>
    intro cs hlen
    obtain rfl := List.length_eq_zero_iff.1 (Nat.le_zero.1 hlen)
    exact nil
  | succ n ih =>
    intro cs hlen
    by_cases hopens : Opens cs
    · obtain ⟨d, ds, rfl, hd⟩ := hopens
      by_cases hclose : '\x7d' ∈ ds
      · obtain ⟨more, rest, rfl, hmore⟩ := List.eq_append_cons_of_mem hclose
        have heq : '$' :: '\x7b' :: d :: (more ++ '\x7d' :: rest) =
            written (d :: more) ++ rest := by simp [written]
        rw [heq]
        refine closed _ rest (List.cons_ne_nil d more) (by simp [Ne.symm hd, hmore]) (ih rest ?_)
        simp only [List.length_cons, List.length_append] at hlen
        omega
      · exact unclosed _ (List.cons_ne_nil d ds) (by simp [Ne.symm hd, hclose])
    · cases cs with
      | nil => exact nil
      | cons c cs => exact keep c cs hopens (ih cs (Nat.le_of_succ_le_succ hlen))

/-! ### What is open -/

theorem not_isOpen_nil : ¬IsOpen [] :=
  fun ⟨_, hsuffix, _⟩ => nomatch List.suffix_nil.1 hsuffix

theorem isOpen_cons (h : IsOpen cs) (c : Char) : IsOpen (c :: cs) := by
  obtain ⟨name, hsuffix, hname⟩ := h
  exact ⟨name, hsuffix.trans (List.suffix_cons c cs), hname⟩

theorem isOpen_of_not_mem (h : '\x7d' ∉ name) (cs : List Char) :
    IsOpen (cs ++ '$' :: '\x7b' :: name) :=
  ⟨name, List.suffix_append _ _, h⟩

/-- What is before a `}` is open no longer. -/
theorem isOpen_append_close {xs ys : List Char} : IsOpen (xs ++ '\x7d' :: ys) ↔ IsOpen ys := by
  constructor
  · rintro ⟨name, hsuffix, hname⟩
    rcases List.suffix_or_suffix_of_suffix hsuffix (List.suffix_append xs _) with hin | hout
    · rcases List.suffix_cons_iff.1 hin with heq | hin
      · exact absurd (List.cons.inj heq).1 (by decide)
      · exact ⟨name, hin, hname⟩
    · have hmem := hout.subset List.mem_cons_self
      exact absurd hmem (by simp [hname])
  · rintro ⟨name, hsuffix, hname⟩
    exact ⟨name, (hsuffix.trans (List.suffix_cons _ ys)).trans (List.suffix_append xs _), hname⟩

theorem isOpen_written {cs : List Char} : IsOpen (written name ++ cs) ↔ IsOpen cs := by
  rw [written_append, isOpen_append_close]

/-- A character makes nothing open if it opens no name in what follows. -/
theorem isOpen_of_isOpen_cons {rest : List Char} (h : IsOpen (c :: before))
    (hopens : ¬Opens (c :: (before ++ '$' :: rest))) : IsOpen before := by
  obtain ⟨opened, hsuffix, hopened⟩ := h
  rcases List.suffix_cons_iff.1 hsuffix with heq | hsuffix
  · obtain ⟨rfl, rfl⟩ := List.cons.inj heq
    refine absurd ?_ hopens
    cases opened with
    | nil => exact ⟨_, _, rfl, by decide⟩
    | cons d ds => exact ⟨d, _, rfl, fun hd => hopened (hd ▸ List.mem_cons_self)⟩
  · exact ⟨opened, hsuffix, hopened⟩

/-! ### What is read -/

/-- A character that opens no name stays. -/
theorem expandFrom_keep (h : ¬Opens (c :: cs)) :
    expandFrom env none (c :: cs) = c :: expandFrom env none cs := by
  by_cases hempty : ∃ ds, c :: cs = '$' :: '\x7b' :: '\x7d' :: ds
  · obtain ⟨ds, heq⟩ := hempty
    obtain ⟨rfl, rfl⟩ := List.cons.inj heq
    simp [expandFrom]
  · refine expandFrom.eq_2 env c cs ?_
    rintro d ds rfl rfl
    refine h ⟨d, ds, rfl, ?_⟩
    rintro rfl
    exact hempty ⟨ds, rfl⟩

/-- A placeholder gives way to what its name stands for. -/
theorem expandFrom_written (hne : name ≠ []) (h : '\x7d' ∉ name) (cs : List Char) :
    expandFrom env none (written name ++ cs) = valueOf env name ++ expandFrom env none cs := by
  obtain ⟨d, ds, rfl⟩ := List.exists_cons_of_ne_nil hne
  rw [List.mem_cons, not_or] at h
  rw [written_append]
  exact expandFrom_closed env d ds cs (Ne.symm h.1) h.2

/-- A name that is not closed stays. -/
theorem expandFrom_some_unclosed (h : '\x7d' ∉ cs) :
    expandFrom env (some name) cs = '$' :: '\x7b' :: (name ++ cs) := by
  induction cs generalizing name with
  | nil => rw [expandFrom, List.append_nil]
  | cons c cs ih =>
    rw [List.mem_cons, not_or] at h
    rw [expandFrom, if_neg (Ne.symm h.1), ih h.2, List.append_assoc, List.singleton_append]

theorem expandFrom_unclosed (hne : name ≠ []) (h : '\x7d' ∉ name) :
    expandFrom env none ('$' :: '\x7b' :: name) = '$' :: '\x7b' :: name := by
  obtain ⟨d, ds, rfl⟩ := List.exists_cons_of_ne_nil hne
  rw [List.mem_cons, not_or] at h
  rw [expandFrom, if_neg (Ne.symm h.1), expandFrom_some_unclosed h.2, List.singleton_append]

/-! ### What is meant -/

variable {isSet : String → Prop}

/-- Whether no placeholder of a variable that is set would end with a text. -/
def EndsUnset (isSet : String → Prop) (cs : List Char) : Prop :=
  ∀ word, IsWord word → isSet (.ofList word) → ¬('$' :: '\x7b' :: word <:+ cs)

/-- The placeholder that is read with a name ends there, and the ones that end with the name. -/
theorem EndsUnset.opened (h : EndsUnset isSet name) (hname : ¬isSet (.ofList name)) :
    EndsUnset isSet ('$' :: '\x7b' :: name) := by
  intro word hword hset hsuffix
  rcases List.suffix_cons_iff.1 hsuffix with heq | hsuffix
  · obtain rfl : word = name := by simpa using heq
    exact hname hset
  · rcases List.suffix_cons_iff.1 hsuffix with heq | hsuffix
    · exact absurd (List.cons.inj heq).1 (by decide)
    · exact h word hword hset hsuffix

theorem EndsUnset.of_cons (h : EndsUnset isSet (c :: cs)) : EndsUnset isSet cs :=
  fun word hword hset hsuffix => h word hword hset (hsuffix.trans (List.suffix_cons c cs))

/-- Whether no placeholder of a variable that is set is taken into a longer name, and no other
    variable that is set is read. -/
structure IsClean (isSet : String → Prop) (cs : List Char) : Prop where
  not_isOpen : ∀ before word after, cs = before ++ (written word ++ after) → IsWord word →
    isSet (.ofList word) → ¬IsOpen before
  isWord : ∀ before name after, cs = before ++ (written name ++ after) → name ≠ [] →
    '\x7d' ∉ name → ¬IsOpen before → isSet (.ofList name) → IsWord name

theorem isClean_of_not_mem (h : '\x7d' ∉ cs) : IsClean isSet cs := by
  have hnot : ∀ before name after, cs ≠ before ++ (written name ++ after) := by
    rintro before name after rfl
    simp [written] at h
  exact ⟨fun before word after heq => absurd heq (hnot _ _ _),
    fun before name after heq => absurd heq (hnot _ _ _)⟩

theorem isClean_cons (h : ¬Opens (c :: cs)) : IsClean isSet (c :: cs) ↔ IsClean isSet cs := by
  constructor
  · rintro ⟨hopen, hword⟩
    refine ⟨fun before word after heq hw hset hb => ?_,
      fun before name after heq hne hclose hb hset => ?_⟩
    · subst heq
      exact hopen (c :: before) word after rfl hw hset (isOpen_cons hb c)
    · subst heq
      exact hword (c :: before) name after rfl hne hclose
        (fun hcons => hb (isOpen_of_isOpen_cons hcons h)) hset
  · rintro ⟨hopen, hword⟩
    -- What is opened is not opened by the first character, so that something stands before it.
    refine ⟨fun before word after heq hw hset => ?_,
      fun before name after heq hne hclose hb hset => ?_⟩
    · cases before with
      | nil =>
        exact absurd (heq ▸ opens_written hw.1 hw.close_not_mem after) h
      | cons d before =>
        obtain ⟨rfl, rfl⟩ := List.cons.inj heq
        exact fun hcons =>
          hopen before word after rfl hw hset (isOpen_of_isOpen_cons hcons h)
    · cases before with
      | nil => exact absurd (heq ▸ opens_written hne hclose after) h
      | cons d before =>
        obtain ⟨rfl, rfl⟩ := List.cons.inj heq
        exact hword before name after rfl hne hclose (fun hcs => hb (isOpen_cons hcs c)) hset

/-- A placeholder before the rest of a text is read as it is meant to be if its name is a word, and
    one of a variable that is not set if none that is set ends where it does. -/
theorem isClean_written (hne : name ≠ []) (h : '\x7d' ∉ name) :
    IsClean isSet (written name ++ cs) ↔
      (isSet (.ofList name) → IsWord name) ∧ EndsUnset isSet name ∧ IsClean isSet cs := by
  constructor
  · rintro ⟨hopen, hword⟩
    refine ⟨hword [] name cs rfl hne h not_isOpen_nil, ?_, ?_, ?_⟩
    · rintro word hw hset ⟨start, rfl⟩
      have hstart : '\x7d' ∉ start := fun hmem => h (List.mem_append_left _ hmem)
      exact hopen ('$' :: '\x7b' :: start) word cs (by simp [written]) hw hset
        (isOpen_of_not_mem hstart [])
    · rintro before word after rfl hw hset hb
      exact hopen (written name ++ before) word after (List.append_assoc _ _ _).symm hw hset
        (isOpen_written.2 hb)
    · rintro before last after rfl hlast hclose hb
      exact hword (written name ++ before) last after (List.append_assoc _ _ _).symm hlast hclose
        fun hopened => hb (isOpen_written.1 hopened)
  · rintro ⟨hname, hends, hopen, hword⟩
    refine ⟨fun before word after heq hw hset => ?_,
      fun before last after heq hlast hclose hb hset => ?_⟩
    · -- A name that is closed is after the placeholder, is its name, or ends where its name does.
      rcases split_written h hw.close_not_mem heq.symm with
        ⟨rest, rfl, hrest⟩ | ⟨rfl, -, -⟩ | ⟨start, -, rfl⟩
      · exact fun hb => hopen rest word after hrest.symm hw hset (isOpen_written.1 hb)
      · exact not_isOpen_nil
      · exact absurd (List.suffix_append _ _) (hends word hw hset)
    · rcases split_written h hclose heq.symm with
        ⟨rest, rfl, hrest⟩ | ⟨-, rfl, -⟩ | ⟨start, rfl, rfl⟩
      · exact hword rest last after hrest.symm hlast hclose
          (fun hopened => hb (isOpen_written.2 hopened)) hset
      · exact hname hset
      · exact absurd (isOpen_of_not_mem (fun hmem => h (List.mem_append_left _ hmem)) []) hb

/-! ### What is replaced -/

theorem replaces_cons_iff (h : ¬StartsSet env (c :: cs)) :
    Replaces env (c :: cs) o ↔ ∃ out, o = c :: out ∧ Replaces env cs out := by
  constructor
  · generalize htext : c :: cs = text
    rintro (_ | @⟨word, v, rest, out, hword, hv, -⟩ | ⟨-, hrest⟩)
    · exact nomatch htext
    · exact absurd ⟨word, hword, Option.isSome_of_mem hv, rest, htext.symm⟩ h
    · obtain ⟨rfl, rfl⟩ := List.cons.inj htext
      exact ⟨_, rfl, hrest⟩
  · rintro ⟨out, rfl, hrest⟩
    exact .keep h hrest

theorem replaces_written_iff {v : String} (hword : IsWord word)
    (hv : env (.ofList word) = some v) :
    Replaces env (written word ++ cs) o ↔ ∃ out, o = v.toList ++ out ∧ Replaces env cs out := by
  constructor
  · generalize htext : written word ++ cs = text
    rintro (_ | @⟨word', v', rest, out, hword', hv', hrest⟩ | @⟨c, cs', out, hstarts, -⟩)
    · exact nomatch htext
    · rw [written_append, written_append] at htext
      obtain ⟨heq, rfl⟩ := append_close_inj (by simp [hword.close_not_mem])
        (by simp [hword'.close_not_mem]) htext
      obtain rfl : word = word' := by simpa using heq
      obtain rfl : v = v' := Option.some.inj (hv.symm.trans hv')
      exact ⟨out, rfl, hrest⟩
    · exact absurd ⟨word, hword, Option.isSome_of_mem hv, cs, htext⟩ hstarts
  · rintro ⟨out, rfl, hrest⟩
    exact .value hword hv hrest

/-- The placeholder at the start of a text ends at the first `}`. -/
theorem startsSet_append_close (h : '\x7d' ∉ name) :
    StartsSet env (name ++ '\x7d' :: cs) ↔
      ∃ word, IsWord word ∧ (env (.ofList word)).isSome ∧ name = '$' :: '\x7b' :: word := by
  constructor
  · rintro ⟨word, hword, hset, rest, heq⟩
    rw [written_append] at heq
    exact ⟨word, hword, hset,
      (append_close_inj (by simp [hword.close_not_mem]) h heq).1.symm⟩
  · rintro ⟨word, hword, hset, rfl⟩
    exact ⟨word, hword, hset, cs, written_append word cs⟩

theorem not_startsSet_append_close (h : '\x7d' ∉ name)
    (hends : EndsUnset (fun n => (env n).isSome) name) : ¬StartsSet env (name ++ '\x7d' :: cs) := by
  rw [startsSet_append_close h]
  rintro ⟨word, hword, hset, rfl⟩
  exact hends word hword hset (List.suffix_refl _)

/-- Up to a `}` nothing is replaced if no placeholder of a variable that is set ends there. -/
theorem replaces_append_close (h : '\x7d' ∉ name)
    (hends : EndsUnset (fun n => (env n).isSome) name) (hcs : Replaces env cs out) :
    Replaces env (name ++ '\x7d' :: cs) (name ++ '\x7d' :: out) := by
  induction name with
  | nil => exact .keep (not_startsSet_append_close h hends) hcs
  | cons c name ih =>
    exact .keep (not_startsSet_append_close h hends)
      (ih (fun hmem => h (List.mem_cons_of_mem c hmem)) hends.of_cons)

/-- Without a `}` nothing is replaced. -/
theorem replaces_of_not_mem (h : '\x7d' ∉ cs) : Replaces env cs cs := by
  induction cs with
  | nil => exact .nil
  | cons c cs ih =>
    refine .keep ?_ (ih fun hmem => h (List.mem_cons_of_mem c hmem))
    rintro ⟨word, -, -, hstart⟩
    exact h (hstart.subset (by simp [written]))

/-- Whether no value is empty or starts with a `$`. A text in which a placeholder is replaced by
    such a value differs there from one in which the placeholder stays. -/
def IsTelling (env : Environment) : Prop :=
  ∀ n v, env n = some v → ∃ d ds, v.toList = d :: ds ∧ d ≠ '$'

/-- What stays the same up to a `}` has no placeholder of a variable that is set ending there. -/
theorem of_replaces_append_close (htelling : IsTelling env) (h : '\x7d' ∉ name)
    (hr : Replaces env (name ++ '\x7d' :: cs) (name ++ '\x7d' :: out)) :
    EndsUnset (fun n => (env n).isSome) name ∧ Replaces env cs out := by
  induction name with
  | nil =>
    have hends : EndsUnset (fun n => (env n).isSome) [] :=
      fun word _ _ hsuffix => nomatch List.suffix_nil.1 hsuffix
    obtain ⟨out', heq, hcs⟩ := (replaces_cons_iff (not_startsSet_append_close h hends)).1 hr
    obtain ⟨-, rfl⟩ := List.cons.inj heq
    exact ⟨hends, hcs⟩
  | cons c name ih =>
    -- A placeholder that starts here would put its value in place of the first character.
    by_cases hstarts : StartsSet env (c :: name ++ '\x7d' :: cs)
    · obtain ⟨word, hword, hset, hname⟩ := (startsSet_append_close h).1 hstarts
      obtain ⟨v, hv⟩ := Option.isSome_iff_exists.1 hset
      obtain ⟨d, ds, hd, hne⟩ := htelling _ v hv
      rw [hname, ← written_append, replaces_written_iff hword hv, hd] at hr
      obtain ⟨out', heq, -⟩ := hr
      exact absurd (List.cons.inj heq).1.symm hne
    · obtain ⟨out', heq, hrest⟩ := (replaces_cons_iff hstarts).1 hr
      obtain ⟨-, rfl⟩ := List.cons.inj heq
      obtain ⟨hends, hcs⟩ := ih (fun hmem => h (List.mem_cons_of_mem c hmem)) hrest
      refine ⟨fun word hword hset hsuffix => ?_, hcs⟩
      rcases List.suffix_cons_iff.1 hsuffix with heq | hsuffix
      · exact hstarts ((startsSet_append_close h).2 ⟨word, hword, hset, heq.symm⟩)
      · exact hends word hword hset hsuffix

/-! ### What is replaced as it is meant to be -/

theorem valueOf_of_eq_some {v : String} (h : env (.ofList name) = some v) :
    valueOf env name = v.toList := by
  rw [valueOf, h]

theorem valueOf_of_eq_none (h : env (.ofList name) = none) : valueOf env name = written name := by
  rw [valueOf, h, written]

theorem replaces_expandFrom (h : IsClean (fun n => (env n).isSome) cs) :
    Replaces env cs (expandFrom env none cs) := by
  induction cs using reading_induction with
  | nil => exact expandFrom.eq_3 env ▸ .nil
  | keep c cs hopens ih =>
    rw [expandFrom_keep hopens]
    exact .keep (fun hstarts => hopens hstarts.opens) (ih ((isClean_cons hopens).1 h))
  | closed name cs hne hclose ih =>
    obtain ⟨hname, hends, hcs⟩ := (isClean_written hne hclose).1 h
    rw [expandFrom_written hne hclose]
    cases hv : env (.ofList name) with
    | some v =>
      rw [valueOf_of_eq_some hv]
      exact .value (hname (Option.isSome_of_mem hv)) hv (ih hcs)
    | none =>
      rw [valueOf_of_eq_none hv, written_append, written_append]
      exact replaces_append_close (by simp [hclose]) (hends.opened (by simp [hv])) (ih hcs)
  | unclosed name hne hclose =>
    rw [expandFrom_unclosed hne hclose]
    exact replaces_of_not_mem (by simp [hclose])

/-- Only where a placeholder has a word for a name its value is to stand in its place. -/
theorem isWord_of_replaces (htelling : IsTelling env) (hclose : '\x7d' ∉ name) {v : String}
    (hv : env (.ofList name) = some v) (hr : Replaces env (written name ++ cs) (v.toList ++ out)) :
    IsWord name := by
  by_contra hword
  obtain ⟨d, ds, hd, hne⟩ := htelling _ v hv
  have hstarts : ¬StartsSet env (written name ++ cs) := by
    rw [written_append, startsSet_append_close (by simp [hclose])]
    rintro ⟨word, hword', -, heq⟩
    obtain rfl : name = word := by simpa using heq
    exact hword hword'
  -- the `$` is to stay then, but the value starts with something else
  obtain ⟨rest, heq, -⟩ := (replaces_cons_iff hstarts).1 hr
  rw [hd] at heq
  exact hne (List.cons.inj heq).1

theorem isClean_of_replaces_expandFrom (htelling : IsTelling env)
    (h : Replaces env cs (expandFrom env none cs)) : IsClean (fun n => (env n).isSome) cs := by
  induction cs using reading_induction with
  | nil => exact isClean_of_not_mem List.not_mem_nil
  | keep c cs hopens ih =>
    rw [expandFrom_keep hopens] at h
    obtain ⟨out, heq, hcs⟩ := (replaces_cons_iff fun hstarts => hopens hstarts.opens).1 h
    obtain ⟨-, rfl⟩ := List.cons.inj heq
    exact (isClean_cons hopens).2 (ih hcs)
  | closed name cs hne hclose ih =>
    -- A variable that is not set is left as it stands.
    rw [expandFrom_written hne hclose] at h
    cases hv : env (.ofList name) with
    | some v =>
      rw [valueOf_of_eq_some hv] at h
      have hword := isWord_of_replaces htelling hclose hv h
      obtain ⟨out, heq, hcs⟩ := (replaces_written_iff hword hv).1 h
      obtain rfl := List.append_cancel_left heq
      refine (isClean_written hne hclose).2 ⟨fun _ => hword, ?_, ih hcs⟩
      exact fun word _ _ hsuffix => hword.dollar_not_mem (hsuffix.subset List.mem_cons_self)
    | none =>
      rw [valueOf_of_eq_none hv, written_append, written_append] at h
      obtain ⟨hends, hcs⟩ := of_replaces_append_close htelling (by simp [hclose]) h
      exact (isClean_written hne hclose).2 ⟨fun hset => absurd hset (by simp [hv]),
        hends.of_cons.of_cons, ih hcs⟩
  | unclosed name hne hclose => exact isClean_of_not_mem (by simp [hclose])

/-- The texts in which, whatever the values of the variables that are set, all their placeholders
    and nothing else are replaced: those in which nothing is open before such a placeholder, and
    no variable is read that is set and has another name. -/
theorem replaces_expand_iff (isSet : String → Prop) (text : String) :
    (∀ env : Environment, (∀ name, (env name).isSome ↔ isSet name) →
        Replaces env text.toList (expand env text).toList) ↔ IsClean isSet text.toList := by
  constructor
  · intro h
    classical
    -- with one letter for every value it is seen where a value stands
    let env : Environment := fun name => if isSet name then some "x" else none
    have hset : ∀ name, (env name).isSome ↔ isSet name := fun name => by
      by_cases hname : isSet name <;> simp [env, hname]
    have htelling : IsTelling env := by
      intro n v hv
      have hx : "x" = v := by
        simp only [env, Option.ite_none_right_eq_some, Option.some.injEq] at hv
        exact hv.2
      exact hx ▸ ⟨_, _, rfl, by decide⟩
    have hclean := isClean_of_replaces_expandFrom htelling (String.toList_ofList ▸ h env hset)
    exact funext (fun name => propext (hset name)) ▸ hclean
  · intro h env hset
    rw [expand, String.toList_ofList]
    exact replaces_expandFrom (funext (fun name => propext (hset name)) ▸ h)

/-- A `${` in a comment: the placeholder on the next line, of a variable that is set, stays. -/
theorem kept_depth :
    expand (.ofList [("DEPTH", "3")]) "# $\x7b\nmax_depth = $\x7bDEPTH\x7d\n" =
        "# $\x7b\nmax_depth = $\x7bDEPTH\x7d\n" ∧
      ¬Replaces (.ofList [("DEPTH", "3")]) "# $\x7b\nmax_depth = $\x7bDEPTH\x7d\n".toList
        (expand (.ofList [("DEPTH", "3")]) "# $\x7b\nmax_depth = $\x7bDEPTH\x7d\n").toList := by
  refine ⟨by decide +kernel, fun h => ?_⟩
  have htelling : IsTelling (.ofList [("DEPTH", "3")]) := by
    intro n v hv
    obtain rfl : "3" = v := by
      simp only [Environment.ofList, Assoc.ofList, Assoc.extend, List.foldl_cons, List.foldl_nil,
        Assoc.insert, Assoc.update, List.lookup_cons, List.lookup_nil] at hv
      cases hn : n == "DEPTH" with
      | true =>
        rw [hn] at hv
        exact Option.some.inj hv
      | false =>
        rw [hn] at hv
        exact absurd hv.symm (Option.some_ne_none v)
    exact ⟨_, _, rfl, by decide⟩
  rw [expand, String.toList_ofList] at h
  exact (isClean_of_replaces_expandFrom htelling h).not_isOpen "# $\x7b\nmax_depth = ".toList
    "DEPTH".toList "\n".toList rfl (by decide) (by decide +kernel)
    (@isOpen_of_not_mem "\nmax_depth = ".toList (by decide) "# ".toList)

end EntityFetch.Placeholder
