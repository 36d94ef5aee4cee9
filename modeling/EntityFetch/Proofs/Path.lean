import EntityFetch.Graph.Path
import EntityFetch.Proofs.Success

/-!
# Dotted paths

Names with dots between them are read back by cutting the text at its dots, as
long as no name has a dot itself (`split_dotted_iff`). Whatever text is cut, the parts
give it back (`dotted_split`). The names of a parsed path have no dots
(`RelationPath.isDotFree_of_parse`): blanks are all that trimming takes away. A path
is parsed back from its text if a path can hold each of its names
(`RelationPath.parse_dotted_iff`).
-/

namespace EntityFetch

/-- A name without dots. -/
def IsDotFree (name : String) : Prop := '.' ∉ name.toList

instance : DecidablePred IsDotFree := fun name => inferInstanceAs (Decidable ('.' ∉ name.toList))

theorem toList_dotted (names : List String) :
    (dotted names).toList = ['.'].intercalate (names.map String.toList) :=
  String.toList_intercalate

/-- Names without dots are read back from the text. -/
theorem split_dotted {names : List String} (hne : names ≠ [])
    (hdot : ∀ n ∈ names, IsDotFree n) : Text.split '.' (dotted names) = names := by
  rw [Text.split, toList_dotted, List.splitOn_intercalate, List.map_map]
  · exact List.map_id'' (fun n => String.ofList_toList) names
  · intro cs hcs
    obtain ⟨n, hn, rfl⟩ := List.mem_map.1 hcs
    exact hdot n hn
  · exact fun h => hne (List.map_eq_nil_iff.1 h)

/-- Different names have different texts. -/
theorem dotted_inj {names names' : List String} (hne : names ≠ []) (hne' : names' ≠ [])
    (hdot : ∀ n ∈ names, IsDotFree n) (hdot' : ∀ n ∈ names', IsDotFree n)
    (h : dotted names = dotted names') : names = names' := by
  rw [← split_dotted hne hdot, h, split_dotted hne' hdot']

/-- The parts of a text give it back. -/
theorem dotted_split (s : String) : dotted (Text.split '.' s) = s := by
  rw [← String.toList_inj, toList_dotted, Text.split, List.map_map]
  rw [show String.toList ∘ String.ofList = id from funext fun _ => String.toList_ofList,
    List.map_id, List.intercalate_splitOn]

/-- A text has a part. -/
theorem split_ne_nil (s : String) : Text.split '.' s ≠ [] := by
  rw [Text.split, Ne, List.map_eq_nil_iff]
  exact List.splitOn_ne_nil _ _

/-- A name after others is put behind a dot. -/
theorem dotted_append_singleton {names : List String} (hne : names ≠ []) (n : String) :
    dotted (names ++ [n]) = dotted names ++ "." ++ n := by
  rw [dotted, String.intercalate_append_of_ne_nil hne (List.cons_ne_nil _ _),
    String.intercalate_singleton]
  rfl

/-- No part between separators has the separator. -/
theorem not_mem_of_mem_splitOn {c : Char} {cs part : List Char} (h : part ∈ cs.splitOn c) :
    c ∉ part := by
  induction cs generalizing part with
  | nil =>
    rw [List.splitOn_nil, List.mem_singleton] at h
    exact h ▸ List.not_mem_nil
  | cons d cs ih =>
    rw [List.splitOn_cons_eq_if_modifyHead] at h
    split at h
    · rcases List.mem_cons.1 h with rfl | h
      · exact List.not_mem_nil
      · exact ih h
    · next hd =>
      -- The first part starts with a character that is no separator.
      obtain ⟨first, rest, hsplit⟩ := List.exists_cons_of_ne_nil (List.splitOn_ne_nil c cs)
      rw [hsplit, List.modifyHead_cons] at h
      rcases List.mem_cons.1 h with rfl | h
      · rw [List.mem_cons, not_or]
        exact ⟨fun hc => hd (hc ▸ beq_self_eq_true d), ih (hsplit ▸ List.mem_cons_self)⟩
      · exact ih (hsplit ▸ List.mem_cons_of_mem _ h)

/-- The parts of a text have no dots. -/
theorem isDotFree_of_mem_split {s part : String} (h : part ∈ Text.split '.' s) :
    IsDotFree part := by
  obtain ⟨cs, hcs, rfl⟩ := List.mem_map.1 h
  rw [IsDotFree, String.toList_ofList]
  exact not_mem_of_mem_splitOn hcs

/-- Cutting names at their dots leaves the text as it is. -/
theorem dotted_flatMap_split (names : List String) :
    dotted (names.flatMap (Text.split '.')) = dotted names := by
  induction names with
  | nil => rfl
  | cons n names ih =>
    cases names with
    | nil => simpa [dotted] using dotted_split n
    | cons n' names =>
      have hne : (n' :: names).flatMap (Text.split '.') ≠ [] := by simp [split_ne_nil]
      rw [List.flatMap_cons, dotted, String.intercalate_append_of_ne_nil (split_ne_nil n) hne,
        dotted, String.intercalate_cons_cons]
      exact congrArg₂ (· ++ "." ++ ·) (dotted_split n) ih

/-- Names with dots are read back as their parts. -/
theorem split_dotted_eq {names : List String} (hne : names ≠ []) :
    Text.split '.' (dotted names) = names.flatMap (Text.split '.') := by
  rw [← dotted_flatMap_split]
  refine split_dotted (fun h => ?_) fun part hpart => ?_
  · obtain ⟨n, hn⟩ := List.exists_mem_of_ne_nil names hne
    exact split_ne_nil n (List.flatMap_eq_nil_iff.1 h n hn)
  · obtain ⟨n, -, hpart⟩ := List.mem_flatMap.1 hpart
    exact isDotFree_of_mem_split hpart

/-- Names are read back if and only if none has a dot. -/
theorem split_dotted_iff {names : List String} (hne : names ≠ []) :
    Text.split '.' (dotted names) = names ↔ ∀ n ∈ names, IsDotFree n := by
  refine ⟨fun h n hn => ?_, split_dotted hne⟩
  rw [← h] at hn
  exact isDotFree_of_mem_split hn

/-! ### Parsed paths -/

/-- Trimming adds no characters. -/
theorem mem_of_mem_trimChars {c : Char} {cs : List Char} (h : c ∈ Text.trimChars cs) : c ∈ cs := by
  rw [Text.trimChars, List.mem_reverse] at h
  have h := (List.dropWhile_sublist _).mem h
  rw [List.mem_reverse] at h
  exact (List.dropWhile_sublist _).mem h

/-- The names of a parsed path have no dots. -/
theorem RelationPath.isDotFree_of_parse {s : String} {p : RelationPath} (h : parse s = .ok p) :
    ∀ n ∈ p.segments, IsDotFree n := by
  simp only [parse] at h
  split at h
  · exact nomatch h
  · obtain rfl := Except.ok.inj h
    intro n hn
    obtain ⟨part, hpart, rfl⟩ := List.mem_map.1 hn
    intro hdot
    rw [Text.trim, String.toList_ofList] at hdot
    exact isDotFree_of_mem_split hpart (mem_of_mem_trimChars hdot)

/-- A name that a path can hold: it is not empty, and has no dots and no blanks at its
    two ends. -/
def IsSegment (name : String) : Prop :=
  name ≠ "" ∧ IsDotFree name ∧ Text.trim name = name

/-- Names are parsed back from their text if and only if a path can hold each of them. -/
theorem RelationPath.parse_dotted_iff {names : List String} (hne : names ≠ []) :
    parse (dotted names) = .ok ⟨names⟩ ↔ ∀ n ∈ names, IsSegment n := by
  constructor
  · intro h
    have hdot := isDotFree_of_parse h
    simp only [parse, split_dotted hne hdot] at h
    split at h
    · exact nomatch h
    · next hempty =>
      have htrim : names.map Text.trim = names := congrArg segments (Except.ok.inj h)
      rw [htrim, List.any_eq_true] at hempty
      refine fun n hn => ⟨fun h => hempty ⟨n, hn, by simp [h]⟩, hdot n hn, ?_⟩
      exact List.map_inj_left.1 (htrim.trans names.map_id.symm) n hn
  · intro h
    have htrim : names.map Text.trim = names :=
      (List.map_inj_left.2 fun n hn => (h n hn).2.2).trans names.map_id
    have hempty : ¬names.any (·.isEmpty) = true := by
      simpa using fun hn => (h "" hn).1 rfl
    simp only [parse, split_dotted hne fun n hn => (h n hn).2.1, htrim, if_neg hempty]

theorem RelationPath.isDotFree_of_mapM_parse {texts : List String} {paths : List RelationPath}
    (h : texts.mapM parse = .ok paths) : ∀ path ∈ paths, ∀ n ∈ path.segments, IsDotFree n := by
  intro path hpath
  obtain ⟨text, -, htext⟩ := exists_mem_of_mapM_eq_ok h hpath
  exact isDotFree_of_parse htext

end EntityFetch
