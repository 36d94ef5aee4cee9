import EntityFetch.Proofs.Filter
import EntityFetch.Proofs.Filtered
import EntityFetch.Proofs.Rendered

/-!
# Footprints of filters

The columns of a filter are all that there is to its use of a row (`Filter.IsFootprint`): they are
those that occur in the filter, each once, in the order in which they first do; the truth of the
filter depends on nothing else, and its text refers to no other column. So a filter that passes the
check for an entity is as true of a row of the table as of the record that a statement reads of it
(`Filter.isFootprint_columns`).
-/

namespace EntityFetch

/-! ### Lists without repetitions -/

/-- Elements that are added one by one, if they are new, are in the order in which each of them
    first came. -/
theorem pairwise_idxOf_addAllNew {α : Type} [BEq α] [LawfulBEq α] (as : List α) :
    (addAllNew [] as).Pairwise fun a b => as.idxOf a < as.idxOf b := by
  induction as using List.reverseRecOn with
  | nil => exact .nil
  | append_singleton as a ih =>
    -- What came before keeps its place in the longer list.
    have hplace : ∀ b ∈ addAllNew [] as, (as ++ [a]).idxOf b = as.idxOf b := fun b hb =>
      List.idxOf_append_of_mem ((mem_addAllNew.1 hb).resolve_left List.not_mem_nil)
    have hbefore : (addAllNew [] as).Pairwise fun b c =>
        (as ++ [a]).idxOf b < (as ++ [a]).idxOf c :=
      ih.imp_of_mem fun hb hc hlt => by rwa [hplace _ hb, hplace _ hc]
    have hlast : addAllNew [] (as ++ [a]) = addNew (addAllNew [] as) a := List.foldl_concat ..
    rw [hlast, addNew]
    split
    · exact hbefore
    · next hnew =>
      rw [List.contains_iff_mem] at hnew
      refine List.pairwise_append.2 ⟨hbefore, List.pairwise_singleton _ _, fun b hb c hc => ?_⟩
      have hmem : b ∈ as := (mem_addAllNew.1 hb).resolve_left List.not_mem_nil
      have ha : a ∉ as := fun h => hnew (mem_addAllNew.2 (.inr h))
      rw [List.mem_singleton.1 hc, hplace b hb, List.idxOf_append_of_notMem ha]
      exact Nat.lt_of_lt_of_le (List.idxOf_lt_length_of_mem hmem) (Nat.le_add_right ..)

namespace Filter

/-! ### Occurrences -/

mutual

/-- The columns in a filter from left to right, as often as they occur. -/
def mentions : Filter → List String
  | always => []
  | compare _ c _ => [c]
  | member c _ => [c]
  | notMember c _ => [c]
  | like _ c _ => [c]
  | isNull c => [c]
  | isNotNull c => [c]
  | all fs => mentionsAll fs
  | any fs => mentionsAll fs
  | negation f => mentions f

/-- The columns in some filters from left to right. -/
def mentionsAll : List Filter → List String
  | [] => []
  | f :: fs => mentions f ++ mentionsAll fs

end

mutual

/-- Collecting the columns of a filter adds those that occur in it, if they are new. -/
theorem collect_eq : ∀ (f : Filter) (seen : List String),
    collect seen f = addAllNew seen f.mentions
  | always, _ => rfl
  | compare .., _ => rfl
  | member .., _ => rfl
  | notMember .., _ => rfl
  | like .., _ => rfl
  | isNull _, _ => rfl
  | isNotNull _, _ => rfl
  | all fs, seen => collectAll_eq fs seen
  | any fs, seen => collectAll_eq fs seen
  | negation f, seen => collect_eq f seen

/-- Collecting the columns of some filters adds those that occur in them, if they are new. -/
theorem collectAll_eq : ∀ (fs : List Filter) (seen : List String),
    collectAll seen fs = addAllNew seen (mentionsAll fs)
  | [], _ => rfl
  | f :: fs, seen => by
    rw [collectAll, collect_eq f, collectAll_eq fs, mentionsAll, addAllNew, addAllNew, addAllNew,
      List.foldl_append]

end

theorem columns_eq (f : Filter) : f.columns = addAllNew [] f.mentions :=
  collect_eq f []

theorem mem_columns {f : Filter} {c : String} : c ∈ f.columns ↔ c ∈ f.mentions := by
  rw [columns_eq, mem_addAllNew, or_iff_right List.not_mem_nil]

theorem exists_names_member (c : String) (vs : List Value) : ∃ written : List String,
    written.Sublist [c] ∧ ∀ aliasName, (if vs.isEmpty then [] else [aliasName, c]) =
      written.flatMap fun c => [aliasName, c] := by
  cases vs with
  | nil => exact ⟨[], List.nil_sublist _, fun _ => rfl⟩
  | cons v vs => exact ⟨[c], List.Sublist.refl _, fun _ => rfl⟩

mutual

/-- The names in the text of a filter are columns with their alias, in the order in which they
    occur. One that is asked to be in an empty list is not there. -/
theorem exists_names : ∀ f : Filter, ∃ written : List String, written.Sublist f.mentions ∧
    ∀ aliasName, f.names aliasName = written.flatMap fun c => [aliasName, c]
  | always => ⟨[], List.Sublist.refl _, fun _ => rfl⟩
  | compare _ c _ => ⟨[c], List.Sublist.refl _, fun _ => rfl⟩
  | member c vs => exists_names_member c vs
  | notMember c vs => exists_names_member c vs
  | like _ c _ => ⟨[c], List.Sublist.refl _, fun _ => rfl⟩
  | isNull c => ⟨[c], List.Sublist.refl _, fun _ => rfl⟩
  | isNotNull c => ⟨[c], List.Sublist.refl _, fun _ => rfl⟩
  | all fs => exists_namesAll fs
  | any fs => exists_namesAll fs
  | negation f => exists_names f

/-- The names in the texts of some filters. -/
theorem exists_namesAll : ∀ fs : List Filter, ∃ written : List String,
    written.Sublist (mentionsAll fs) ∧
      ∀ aliasName, namesAll aliasName fs = written.flatMap fun c => [aliasName, c]
  | [] => ⟨[], List.Sublist.refl _, fun _ => rfl⟩
  | f :: fs => by
    obtain ⟨written, hsub, hnames⟩ := exists_names f
    obtain ⟨rest, hrest, hnames'⟩ := exists_namesAll fs
    refine ⟨written ++ rest, hsub.append hrest, fun aliasName => ?_⟩
    rw [namesAll, hnames, hnames', List.flatMap_append]

end

/-- What is read of the text of a filter. -/
theorem names_scan_text (f : Filter) (aliasName : String) (d : Dialect) :
    Token.names (Token.scan ((f.fragment aliasName).text d)) = f.names aliasName := by
  have hnames := (f.hasNames_fragment aliasName (d := d) 1).namesAfter_append [] nofun
  rw [List.append_nil] at hnames
  rw [(f.isSpaced_fragment aliasName).scan_text, Token.names, hnames, Token.namesAfter,
    List.append_nil]

/-! ### Footprints -/

/-- Columns that are all there is to how a filter uses a row. -/
structure IsFootprint (f : Filter) (columns : List String) : Prop where
  nodup : columns.Nodup
  mem_iff : ∀ c, c ∈ columns ↔ c ∈ f.mentions
  /-- The columns are in the order in which they first occur. -/
  order : columns.Pairwise fun c c' => f.mentions.idxOf c < f.mentions.idxOf c'
  eval_congr : ∀ row row' : String → Value, (∀ c ∈ columns, row c = row' c) →
    f.eval row = f.eval row'
  /-- The names in the text of the filter are those of the columns, each with the alias. -/
  names : ∀ (aliasName : String) (d : Dialect), ∃ written : List String,
    (∀ c ∈ written, c ∈ columns) ∧
    Token.names (Token.scan ((f.fragment aliasName).text d)) =
      written.flatMap fun c => [aliasName, c]
  check_iff : ∀ (e : Entity) (what : String),
    GlobalFilters.checkColumns e what f = .ok () ↔ ∀ c ∈ columns, c ∈ e.columns
  /-- A filter that passes the check for an entity is as true of the record that is read where
      the values of a row of its table are as it is of the row. -/
  eval_record : ∀ (e : Entity) (what : String), GlobalFilters.checkColumns e what f = .ok () →
    ∀ (s : Slot) (row : Row) (t : TableRow), s.columns = e.columns →
      (∀ c ∈ e.columns, row.get? s.aliasName c = some (t.value c)) →
        ∃ r, s.read row = .ok r ∧ f.eval r.value = f.eval t.value

theorem checkColumns_eq_ok_iff {e : Entity} {what : String} {f : Filter} :
    GlobalFilters.checkColumns e what f = .ok () ↔ ∀ c ∈ f.columns, c ∈ e.columns := by
  refine ⟨GlobalFilters.mem_of_checkColumns, fun h => ?_⟩
  have hfind : f.columns.find? (!e.hasColumn ·) = none := List.find?_eq_none.2 fun c hc => by
    simpa [Entity.hasColumn] using h c hc
  rw [GlobalFilters.checkColumns, hfind]

/-- The record of the values of a row has them in all columns of the filter. -/
theorem eval_record {f : Filter} {s : Slot} (hf : ∀ c ∈ f.columns, c ∈ s.columns) (t : TableRow) :
    f.eval (s.record (some t)).value = f.eval t.value :=
  Filter.eval_congr f fun c hc =>
    congrArg (·.getD .null) (Slot.get?_record (o := some t) (hf c hc))

/-- The columns of a filter are its footprint. -/
theorem isFootprint_columns (f : Filter) : f.IsFootprint f.columns := by
  constructor
  case nodup => exact columns_eq f ▸ nodup_addAllNew List.nodup_nil _
  case mem_iff => exact fun c => mem_columns
  case order => exact columns_eq f ▸ pairwise_idxOf_addAllNew f.mentions
  case eval_congr => exact fun row row' => Filter.eval_congr f
  case names =>
    intro aliasName d
    obtain ⟨written, hsub, hnames⟩ := f.exists_names
    exact ⟨written, fun c hc => mem_columns.2 (hsub.subset hc),
      (f.names_scan_text aliasName d).trans (hnames aliasName)⟩
  case check_iff => exact fun e what => checkColumns_eq_ok_iff
  case eval_record =>
    intro e what hcheck s row t hcolumns hrow
    rw [← hcolumns] at hrow
    refine ⟨s.record (some t), Slot.read_eq_ok hrow, eval_record (fun c hc => ?_) t⟩
    exact hcolumns ▸ GlobalFilters.mem_of_checkColumns hcheck c hc

/-- A column that occurs twice is there once, in its first place. -/
example : (all [compare .eq "b" (.int 1), any [isNull "a", member "b" []]]).columns =
    ["b", "a"] := by decide

end Filter

end EntityFetch
