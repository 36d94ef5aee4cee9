import EntityFetch.Proofs.Scan
import EntityFetch.Statement

/-!
# Pieces that stand apart

A fragment becomes a text in which its pieces follow each other with nothing between them.
Two pieces could run into each other there, a word into a name or a name into a number. That
does not happen if one of any two ends or starts with a blank or a mark
(`Fragment.IsSpaced`). Then a scanner finds the tokens of the pieces again, one for each name
and each parameter (`Fragment.IsSpaced.scan_text`). The pieces of filters
(`Filter.isSpaced_fragment`) and of statements (`Statement.isSpaced_fragment`) are apart.
-/

namespace EntityFetch

namespace Piece

/-- Whether a piece cannot run into what comes after it. -/
def endsApart : Piece → Bool
  | word s => s.toList.getLast?.any Token.isApart
  | _ => false

/-- Whether a piece cannot go on with what is before it. -/
def startsApart : Piece → Bool
  | word s => s.toList.head?.any Token.isApart
  | _ => false

/-- Whether there are no quotes and placeholders but those of names and parameters. -/
def isClear : Piece → Bool
  | word s => s.toList.all fun c => c != '"' && c != '$' && c != '?'
  | _ => true

/-- A clear word has no quotes. -/
theorem kind_ne_quote_of_isClear {s : String} (h : (word s).isClear) :
    ∀ c ∈ s.toList, Token.kind c ≠ .quote := by
  intro c hc
  rw [isClear, List.all_eq_true] at h
  have hclear := h c hc
  simp only [Bool.and_eq_true, bne_iff_ne] at hclear
  exact Token.kind_ne_quote hclear.1.1

end Piece

namespace Fragment

/-- Whether the pieces are apart from each other, given whether the first one is apart from
    what is before. -/
def spacedFrom (apart : Bool) : Fragment → Bool
  | [] => true
  | p :: ps => (apart || p.startsApart) && p.isClear && spacedFrom p.endsApart ps

/-- A fragment of which no piece runs into the next one. -/
def IsSpaced (f : Fragment) : Prop :=
  f.spacedFrom true

/-- Whether a fragment cannot go on with what is before it. -/
def startsApart (f : Fragment) : Bool :=
  f.head?.all Piece.startsApart

variable {f g : Fragment} {d : Dialect} {n : Nat}

/-- The pieces after a clear one are apart from it and from each other. -/
theorem isClear_and_spacedFrom {p : Piece} {ps : Fragment} {apart : Bool}
    (h : spacedFrom apart (p :: ps)) : p.isClear ∧ ps.spacedFrom p.endsApart := by
  rw [spacedFrom, Bool.and_eq_true, Bool.and_eq_true] at h
  exact ⟨h.1.2, h.2⟩

theorem spacedFrom_of_startsApart (hg : g.IsSpaced) (hstart : g.startsApart) (apart : Bool) :
    g.spacedFrom apart := by
  cases g with
  | nil => rfl
  | cons p ps =>
    have hp : p.startsApart := by simpa [startsApart] using hstart
    simpa [IsSpaced, spacedFrom, hp] using hg

/-- Fragments are apart if the second one starts so. -/
theorem IsSpaced.append (hf : f.IsSpaced) (hg : g.IsSpaced) (hstart : g.startsApart) :
    (f ++ g).IsSpaced := by
  suffices h : ∀ apart, f.spacedFrom apart → (f ++ g).spacedFrom apart from h true hf
  clear hf
  induction f with
  | nil => exact fun apart _ => spacedFrom_of_startsApart hg hstart apart
  | cons p ps ih =>
    intro apart h
    rw [spacedFrom, Bool.and_eq_true] at h
    rw [List.cons_append, spacedFrom, Bool.and_eq_true]
    exact ⟨h.1, ih _ h.2⟩

/-- A fragment after a word that ends apart. -/
theorem IsSpaced.cons {w : String} (hw : (Piece.word w).endsApart) (hclear : (Piece.word w).isClear)
    (hf : f.IsSpaced) : IsSpaced (.word w :: f) := by
  rw [IsSpaced, spacedFrom, hw, hclear]
  exact hf

/-- The tokens of a fragment, the first placeholder having a given number. -/
def tokens (d : Dialect) : Nat → Fragment → List Token
  | _, [] => []
  | n, .word s :: ps => Token.scan s ++ tokens d n ps
  | n, .name s :: ps => Identifier.token s :: tokens d n ps
  | n, .label s :: ps => .quoted s :: tokens d n ps
  | n, .param _ :: ps => .plain (d.placeholder n) :: tokens d (n + 1) ps

/-- What comes after the start of a fragment is apart from it if the fragment starts so. -/
theorem startApart_texts (h : f.spacedFrom false) {rest : List Char}
    (hrest : Token.StartApart rest) :
    Token.StartApart ((f.texts d n).flatMap String.toList ++ rest) := by
  cases f with
  | nil => exact hrest
  | cons p ps =>
    have hp : p.startsApart := by
      rw [spacedFrom, Bool.false_or, Bool.and_eq_true, Bool.and_eq_true] at h
      exact h.1.1
    cases p with
    | word s =>
      rw [Piece.startsApart, Option.any_eq_true] at hp
      obtain ⟨c, hc, hapart⟩ := hp
      obtain ⟨cs, hs⟩ := List.head?_eq_some_iff.1 hc
      intro c' hc'
      rw [texts, List.flatMap_cons, hs] at hc'
      exact Option.some.inj hc' ▸ hapart
    | name s => exact absurd hp Bool.false_ne_true
    | label s => exact absurd hp Bool.false_ne_true
    | param v => exact absurd hp Bool.false_ne_true

/-- The placeholder of a parameter is read as one token. -/
theorem scan_placeholder (d : Dialect) (n : Nat) {rest : List Char}
    (hrest : Token.StartApart rest) :
    Token.Pending.nothing.scan ((d.placeholder n).toList ++ rest) =
      .plain (d.placeholder n) :: Token.Pending.nothing.scan rest := by
  have hmark : Token.Pending.nothing.scan ("?".toList ++ rest) =
      .plain "?" :: Token.Pending.nothing.scan rest := rfl
  cases d with
  | postgresql =>
    have hchars : (Dialect.postgresql.placeholder n).toList = '$' :: Nat.toDigits 10 n := by
      simp [Dialect.placeholder, Nat.toList_repr]
    rw [← String.ofList_toList (s := Dialect.postgresql.placeholder n), String.toList_ofList, hchars]
    refine Token.Pending.scan_word (List.cons_ne_nil _ _) (fun c hc => ?_) hrest
    rcases List.mem_cons.1 hc with rfl | hc
    · decide
    · exact Token.kind_of_isDigit (Token.isDigit_of_mem_repr (Nat.toList_repr ▸ hc))
  | mysql => exact hmark
  | sqlite => exact hmark

/-- The pieces of a fragment are read one after the other. -/
theorem scan_texts {apart : Bool} (h : f.spacedFrom apart) (n : Nat) {rest : List Char}
    (hrest : Token.StartApart rest) :
    Token.Pending.nothing.scan ((f.texts d n).flatMap String.toList ++ rest) =
      f.tokens d n ++ Token.Pending.nothing.scan rest := by
  induction f generalizing n apart with
  | nil => rfl
  | cons p ps ih =>
    obtain ⟨hclear, hps⟩ := isClear_and_spacedFrom h
    cases p with
    | word s =>
      rw [texts, List.flatMap_cons, List.append_assoc, tokens, List.append_assoc, ← ih hps n,
        Token.scan]
      refine Token.Pending.IsOutside.scan_append (p := .nothing) trivial
        (Piece.kind_ne_quote_of_isClear hclear) ?_
      -- A word that does not end apart is followed by what starts so.
      cases hs : s.toList.getLast?.any Token.isApart with
      | true =>
        rw [Option.any_eq_true] at hs
        exact .inl hs
      | false =>
        rw [Piece.endsApart, hs] at hps
        exact .inr (startApart_texts hps hrest)
    | name s =>
      rw [texts, List.flatMap_cons, List.append_assoc, tokens, List.cons_append, ← ih hps n]
      exact Identifier.scan_text s (startApart_texts hps hrest)
    | label s =>
      rw [texts, List.flatMap_cons, List.append_assoc, tokens, List.cons_append, ← ih hps n]
      exact Identifier.scan_quoted s (startApart_texts hps hrest)
    | param v =>
      rw [texts, List.flatMap_cons, List.append_assoc, tokens, List.cons_append, ← ih hps (n + 1)]
      exact scan_placeholder d n (startApart_texts hps hrest)

/-- The text of a fragment is read piece by piece. -/
theorem IsSpaced.scan_text (h : f.IsSpaced) : Token.scan (f.text d) = f.tokens d 1 := by
  have hnil : Token.StartApart [] := nofun
  have hscan := scan_texts (d := d) h 1 hnil
  rw [List.append_nil, Token.Pending.scan, Token.Pending.finish, List.append_nil] at hscan
  rw [Token.scan, text, String.toList_join, hscan]

theorem startsApart_append (hf : f.startsApart) (hg : g.startsApart) : (f ++ g).startsApart := by
  cases f with
  | nil => exact hg
  | cons p ps => exact hf

/-- Fragments in a row are apart if every one of them starts so. -/
theorem IsSpaced.flatMap {α : Type} {h : α → Fragment} (hspaced : ∀ a, (h a).IsSpaced)
    (hstart : ∀ a, (h a).startsApart) (as : List α) :
    IsSpaced (as.flatMap h) ∧ startsApart (as.flatMap h) := by
  induction as with
  | nil => exact ⟨rfl, rfl⟩
  | cons a as ih =>
    rw [List.flatMap_cons]
    exact ⟨(hspaced a).append ih.1 ih.2, startsApart_append (hstart a) ih.2⟩

theorem IsSpaced.separated {w : String} (hstart : (Piece.word w).startsApart)
    (hend : (Piece.word w).endsApart) (hclear : (Piece.word w).isClear) {fs : List Fragment}
    (hfs : ∀ f ∈ fs, f.IsSpaced) : (separated w fs).IsSpaced := by
  induction fs with
  | nil => rfl
  | cons f fs ih =>
    rw [List.forall_mem_cons] at hfs
    cases fs with
    | nil => exact hfs.1
    | cons g fs => exact hfs.1.append ((ih hfs.2).cons hend hclear) hstart

end Fragment

namespace Filter

theorem isSpaced_compareFragment (aliasName : String) (op : Comparison) (c : String) (v : Value) :
    (compareFragment aliasName op c v).IsSpaced := by
  cases op <;> cases hv : v.isNull <;> simp only [compareFragment, hv] <;> rfl

theorem isSpaced_memberFragment (aliasName c : String) {word empty : String}
    (hstart : (Piece.word word).startsApart) (hend : (Piece.word word).endsApart)
    (hclear : (Piece.word word).isClear) (hempty : (Piece.word empty).isClear) (vs : List Value) :
    (memberFragment aliasName c word empty vs).IsSpaced := by
  rw [memberFragment]
  split
  · simp [Fragment.IsSpaced, Fragment.spacedFrom, hempty]
  · have hcolumn : (Fragment.column aliasName c).IsSpaced := rfl
    refine hcolumn.append (.cons hend hclear (.append (.separated rfl rfl rfl ?_) rfl rfl)) hstart
    exact List.forall_mem_map.2 fun v _ => rfl

theorem isSpaced_connective {word empty : String} (hstart : (Piece.word word).startsApart)
    (hend : (Piece.word word).endsApart) (hclear : (Piece.word word).isClear)
    (hempty : (Piece.word empty).isClear) {fs : List Fragment} (hfs : ∀ f ∈ fs, f.IsSpaced) :
    (connective word empty fs).IsSpaced := by
  rw [connective]
  split
  · simp [Fragment.IsSpaced, Fragment.spacedFrom, hempty]
  · exact .cons rfl rfl (.append (.separated hstart hend hclear hfs) rfl rfl)

mutual

/-- No piece of a filter runs into the next one. -/
theorem isSpaced_fragment (aliasName : String) : ∀ f : Filter, (f.fragment aliasName).IsSpaced
  | always => rfl
  | compare op c v => isSpaced_compareFragment aliasName op c v
  | member c vs => isSpaced_memberFragment aliasName c rfl rfl rfl rfl vs
  | notMember c vs => isSpaced_memberFragment aliasName c rfl rfl rfl rfl vs
  | like _ _ _ => rfl
  | isNull _ => rfl
  | isNotNull _ => rfl
  | all fs => isSpaced_connective rfl rfl rfl rfl (isSpaced_fragments aliasName fs)
  | any fs => isSpaced_connective rfl rfl rfl rfl (isSpaced_fragments aliasName fs)
  | negation f => .cons rfl rfl ((isSpaced_fragment aliasName f).append rfl rfl)

theorem isSpaced_fragments (aliasName : String) :
    ∀ fs : List Filter, ∀ f ∈ fragments aliasName fs, f.IsSpaced
  | [] => nofun
  | f :: fs => List.forall_mem_cons.2
      ⟨isSpaced_fragment aliasName f, isSpaced_fragments aliasName fs⟩

end

end Filter

/-! ### Statements -/

theorem Join.isSpaced_fragment (j : Join) : j.fragment.IsSpaced := by
  have hstart : Fragment.IsSpaced
      ([.word " ", .word j.kind.keyword, .word " ", .name j.table.table, .word " AS ",
        .name j.aliasName, .word " ON "] ++ Fragment.column j.parentAlias j.parentColumn ++
        .word " = " :: Fragment.column j.aliasName j.column) := by
    cases hk : j.kind <;> rfl
  have hfilters := Fragment.IsSpaced.flatMap
    (h := fun a : ActiveFilter => .word " AND " :: a.filter.fragment j.aliasName)
    (fun a => .cons rfl rfl (a.filter.isSpaced_fragment j.aliasName)) (fun _ => rfl) j.filters
  exact hstart.append hfilters.1 hfilters.2

namespace Statement

theorem isSpaced_columnFragment (c : ColumnRef) : (columnFragment c).IsSpaced := rfl

theorem startsApart_clause {keyword word : String} (hstart : (Piece.word keyword).startsApart)
    (fs : List Fragment) : (clause keyword word fs).startsApart := by
  cases fs with
  | nil => rfl
  | cons f fs => simpa [clause, Fragment.startsApart] using hstart

theorem isSpaced_clause {keyword word : String} (hkeyword : (Piece.word keyword).endsApart)
    (hclear : (Piece.word keyword).isClear) (hstart : (Piece.word word).startsApart)
    (hend : (Piece.word word).endsApart) (hword : (Piece.word word).isClear) {fs : List Fragment}
    (hfs : ∀ f ∈ fs, f.IsSpaced) : (clause keyword word fs).IsSpaced := by
  rw [clause]
  split
  · rfl
  · exact .cons hkeyword hclear (.separated hstart hend hword hfs)

theorem isSpaced_numberClause (keyword : String) (hstart : (Piece.word keyword).startsApart)
    (hclear : (Piece.word keyword).isClear) (n : Option Nat) :
    (numberClause keyword n).IsSpaced ∧ (numberClause keyword n).startsApart := by
  cases n with
  | none => exact ⟨rfl, rfl⟩
  | some n =>
    have hdigits : ∀ c ∈ n.repr.toList, c ≠ '"' ∧ c ≠ '$' ∧ c ≠ '?' := by
      intro c hc
      have hdigit := Token.isDigit_of_mem_repr hc
      refine ⟨?_, ?_, ?_⟩ <;> rintro rfl <;> exact absurd hdigit (by decide)
    have hstarts : (Piece.word (keyword ++ n.repr)).startsApart := by
      rw [Piece.startsApart, Option.any_eq_true] at hstart ⊢
      obtain ⟨c, hc, hapart⟩ := hstart
      exact ⟨c, by simp [hc], hapart⟩
    have hclears : (Piece.word (keyword ++ n.repr)).isClear := by
      simp only [Piece.isClear, String.toList_append, List.all_append, Bool.and_eq_true] at hclear ⊢
      refine ⟨hclear, List.all_eq_true.2 fun c hc => ?_⟩
      simpa [and_assoc] using hdigits c hc
    constructor
    · simp [numberClause, Fragment.IsSpaced, Fragment.spacedFrom, hclears]
    · simpa [numberClause, Fragment.startsApart] using hstarts

/-- No piece of a statement runs into the next one. -/
theorem isSpaced_fragment (s : Statement) : s.fragment.IsSpaced := by
  have hcolumns : (Fragment.separated ", " (s.columns.map columnFragment)).IsSpaced :=
    .separated rfl rfl rfl (List.forall_mem_map.2 fun c _ => isSpaced_columnFragment c)
  have hroot : Fragment.IsSpaced
      [.word " FROM ", .name s.root.table, .word " AS ", .name s.root.aliasName] := rfl
  -- Each clause is spaced in itself and starts apart from the one before.
  have hjoins := Fragment.IsSpaced.flatMap Join.isSpaced_fragment
    (fun j => by cases hk : j.kind <;> rfl) s.joins
  have hpredicates : (clause " WHERE " " AND "
      (s.predicates.map fun p => p.filter.fragment p.aliasName)).IsSpaced :=
    isSpaced_clause rfl rfl rfl rfl rfl
      (List.forall_mem_map.2 fun p _ => p.filter.isSpaced_fragment p.aliasName)
  have horder : (clause " ORDER BY " ", "
      (s.orderBy.map (OrderBy.fragment s.root.aliasName))).IsSpaced := by
    refine isSpaced_clause rfl rfl rfl rfl rfl (List.forall_mem_map.2 fun o _ => ?_)
    cases hd : o.direction <;> simp only [OrderBy.fragment, hd] <;> rfl
  have hlimit := isSpaced_numberClause " LIMIT " rfl rfl s.limit
  have hoffset := isSpaced_numberClause " OFFSET " rfl rfl s.offset
  exact ((((((hcolumns.cons rfl rfl).append hroot rfl).append hjoins.1 hjoins.2).append
    hpredicates (startsApart_clause rfl _)).append horder (startsApart_clause rfl _)).append
    hlimit.1 hlimit.2).append hoffset.1 hoffset.2

end Statement

end EntityFetch
