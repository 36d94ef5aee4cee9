import EntityFetch.Sql.Identifier

/-!
# Scanning SQL

Whoever gets the text of a statement reads it token by token from left to right: words,
operators and marks as they stand, and names in double quotes, in which two quotes stand
for one (`Token.scan`). A scanner knows nothing of how the text was put together.

* `Token.Pending.IsOutside.scan_append`: characters without quotes are read by themselves,
  if something apart follows them;
* `Identifier.scan_text`: a name is read as one token, whatever is in it.
-/

namespace EntityFetch

/-- A token of SQL. -/
inductive Token where
  /-- A word, an operator or a mark, as it stands in the text. -/
  | plain (text : String)
  /-- A name in double quotes, without them. -/
  | quoted (name : String)
deriving DecidableEq, Repr

namespace Token

/-- What a character outside of quotes is to a scanner. -/
inductive Kind where
  /-- One of those of which words consist. -/
  | word
  /-- One of those of which operators consist. -/
  | operator
  | quote
  | blank
  /-- A token of its own. -/
  | mark
deriving DecidableEq, Repr

/-- What a character outside of quotes is to a scanner. -/
def kind (c : Char) : Kind :=
  if c.isAlphanum || c == '_' || c == '$' then .word
  else if c == '<' || c == '=' || c == '>' then .operator
  else if c == '"' then .quote
  else if c.isWhitespace then .blank
  else .mark

/-- What a scanner has read without knowing yet where it ends. -/
inductive Pending where
  | nothing
  /-- The characters of a word or an operator. -/
  | run (kind : Kind) (cs : List Char)
  /-- The characters of a name, with a quote before them. -/
  | opened (cs : List Char)
  /-- The characters of a name, with a quote before them and one after. -/
  | closed (cs : List Char)

namespace Pending

/-- The tokens that are read when the text ends. A quote that is not closed is a mark. -/
def finish : Pending → List Token
  | nothing => []
  | run _ cs => [.plain (String.ofList cs)]
  | opened cs => [.plain (String.ofList ('"' :: cs))]
  | closed cs => [.quoted (String.ofList cs)]

/-- What starts with a character: a token, or something that may go on. -/
def start (c : Char) : List Token × Pending :=
  match kind c with
  | .quote => ([], opened [])
  | .blank => ([], nothing)
  | .mark => ([.plain (String.ofList [c])], nothing)
  | k => ([], run k [c])

/-- The tokens that are read with one more character, and what is pending then. -/
def step (p : Pending) (c : Char) : List Token × Pending :=
  match p with
  | nothing => start c
  | run k cs =>
    if kind c = k then ([], run k (cs ++ [c])) else (p.finish ++ (start c).1, (start c).2)
  | opened cs => if c = '"' then ([], closed cs) else ([], opened (cs ++ [c]))
  | closed cs =>
    if c = '"' then ([], opened (cs ++ [c])) else (p.finish ++ (start c).1, (start c).2)

/-- The tokens of what is pending and the characters after it. -/
def scan (p : Pending) : List Char → List Token
  | [] => p.finish
  | c :: cs => (p.step c).1 ++ (p.step c).2.scan cs

end Pending

/-- The tokens of a text. -/
def scan (s : String) : List Token :=
  Pending.nothing.scan s.toList

/-- Two quotes inside of a name in quotes stand for one. -/
example : scan "a.\"b \"\" c\" <> $1" =
    [plain "a", plain ".", quoted "b \" c", plain "<>", plain "$1"] := by decide

/-- Whether a character ends what is before it, and is no part of it. -/
def isApart (c : Char) : Bool :=
  kind c = .blank || kind c = .mark

/-- Characters that cannot go on with what is before them. -/
def StartApart (cs : List Char) : Prop :=
  ∀ c ∈ cs.head?, isApart c

theorem kind_of_isWordChar {c : Char} (h : Identifier.isWordChar c) : kind c = .word := by
  rw [Identifier.isWordChar, Bool.or_eq_true] at h
  rcases h with h | h <;> simp [kind, h]

/-- The decimals of a number. -/
theorem isDigit_of_mem_repr {n : Nat} {c : Char} (hc : c ∈ n.repr.toList) : c.isDigit :=
  Nat.isDigit_of_mem_toDigits (by decide) (by decide) (Nat.toList_repr ▸ hc)

/-- Numbers differ in their decimals. -/
theorem eq_of_toList_repr {m n : Nat} (h : m.repr.toList = n.repr.toList) : m = n := by
  rw [Nat.toList_repr, Nat.toList_repr] at h
  rw [← Nat.ofDigitChars_ten_toDigits (n := m), h, Nat.ofDigitChars_ten_toDigits]

theorem toList_repr_ne_nil (n : Nat) : n.repr.toList ≠ [] := by
  rw [Nat.toList_repr]
  exact List.ne_nil_of_length_pos Nat.length_toDigits_pos

/-- A number is no word. -/
theorem repr_ne {w : String} (hw : ¬w.toList.all Char.isDigit) (n : Nat) : n.repr ≠ w := by
  rintro rfl
  exact hw (List.all_eq_true.2 fun c hc => isDigit_of_mem_repr hc)

theorem kind_of_isDigit {c : Char} (h : c.isDigit) : kind c = .word := by
  simp [kind, Char.isAlphanum, h]

theorem kind_ne_quote {c : Char} (hc : c ≠ '"') : kind c ≠ .quote := by
  grind [kind]

/-! ### What is pending -/

namespace Pending

/-- What is pending outside of quotes. -/
def IsOutside : Pending → Prop
  | nothing => True
  | run k _ => k = .word ∨ k = .operator
  | _ => False

theorem isOutside_start {c : Char} (hc : kind c ≠ .quote) : (start c).2.IsOutside := by
  rw [start]
  cases hk : kind c <;> simp_all [IsOutside]

/-- Without quotes a scanner stays outside of them. -/
theorem IsOutside.step {p : Pending} (hp : p.IsOutside) {c : Char} (hc : kind c ≠ .quote) :
    (p.step c).2.IsOutside := by
  cases p with
  | nothing => exact isOutside_start hc
  | run k cs =>
    rw [Pending.step]
    split
    · exact hp
    · exact isOutside_start hc
  | opened cs => exact hp.elim
  | closed cs => exact hp.elim

/-- Nothing is pending after a character that is apart. -/
theorem step_of_isApart {p : Pending} {c : Char} (hp : p.IsOutside) (hc : isApart c) :
    (p.step c).2 = nothing := by
  have hstart : (start c).2 = nothing := by
    rw [start]
    rcases hk : kind c <;> simp_all [isApart]
  cases p with
  | nothing => exact hstart
  | run k cs =>
    have hk : kind c ≠ k := by
      rintro rfl
      rcases hp with hp | hp <;> simp [isApart, hp] at hc
    rw [step, if_neg hk]
    exact hstart
  | opened cs => exact hp.elim
  | closed cs => exact hp.elim

/-- A character that is apart ends what is pending, a name in quotes too. -/
theorem step_eq_of_isApart {p : Pending} {c : Char} (hp : p.IsOutside ∨ ∃ n, p = closed n)
    (hc : isApart c) : p.step c = (p.finish ++ (start c).1, (start c).2) := by
  have hquote : c ≠ '"' := by
    rintro rfl
    exact absurd hc (by decide)
  rcases p with _ | ⟨k, cs⟩ | cs | cs
  case nothing => rfl
  case run =>
    have hk : kind c ≠ k := by
      rintro rfl
      rcases hp with hp | ⟨n, hp⟩
      · rcases hp with hp | hp <;> simp [isApart, hp] at hc
      · cases hp
    rw [step, if_neg hk]
  case opened =>
    rcases hp with hp | ⟨n, hp⟩
    · exact hp.elim
    · cases hp
  case closed => rw [step, if_neg hquote]

/-- What is pending ends before characters that are apart. -/
theorem scan_of_startApart {p : Pending} {cs : List Char} (hp : p.IsOutside ∨ ∃ n, p = closed n)
    (hcs : StartApart cs) : p.scan cs = p.finish ++ nothing.scan cs := by
  cases cs with
  | nil => exact (List.append_nil _).symm
  | cons c cs =>
    rw [scan, step_eq_of_isApart hp (hcs c rfl), List.append_assoc]
    rfl

/-- Characters without quotes are read alone, if they are apart from what comes after. -/
theorem IsOutside.scan_append {p : Pending} (hp : p.IsOutside) {cs rest : List Char}
    (hcs : ∀ c ∈ cs, kind c ≠ .quote)
    (hapart : (∃ c ∈ cs.getLast?, isApart c) ∨ StartApart rest) :
    p.scan (cs ++ rest) = p.scan cs ++ nothing.scan rest := by
  induction cs generalizing p with
  | nil => exact scan_of_startApart (.inl hp) (hapart.resolve_left (by simp))
  | cons c cs ih =>
    rw [List.forall_mem_cons] at hcs
    rw [List.cons_append, scan, scan, List.append_assoc]
    congr 1
    cases cs with
    | nil =>
      rcases hapart with ⟨d, hd, hapart⟩ | hrest
      · have hcd : c = d := Option.some.inj hd
        rw [step_of_isApart hp (hcd ▸ hapart)]
        rfl
      · exact ih (hp.step hcs.1) hcs.2 (.inr hrest)
    | cons d cs => exact ih (hp.step hcs.1) hcs.2 (by rwa [List.getLast?_cons_cons] at hapart)

/-- The characters of a word go on with it. -/
theorem scan_run {cs word rest : List Char} (hcs : ∀ c ∈ cs, kind c = .word)
    (hrest : StartApart rest) : (run .word word).scan (cs ++ rest) =
      .plain (String.ofList (word ++ cs)) :: nothing.scan rest := by
  induction cs generalizing word with
  | nil =>
    rw [List.append_nil]
    exact scan_of_startApart (.inl (.inl rfl)) hrest
  | cons c cs ih =>
    rw [List.forall_mem_cons] at hcs
    rw [List.cons_append, scan, step, if_pos hcs.1, ih hcs.2, List.append_assoc]
    rfl

/-- A word is read as one token. -/
theorem scan_word {cs rest : List Char} (hne : cs ≠ []) (hcs : ∀ c ∈ cs, kind c = .word)
    (hrest : StartApart rest) :
    nothing.scan (cs ++ rest) = .plain (String.ofList cs) :: nothing.scan rest := by
  obtain ⟨c, cs, rfl⟩ := List.exists_cons_of_ne_nil hne
  rw [List.forall_mem_cons] at hcs
  have hstart : start c = ([], run .word [c]) := by rw [start, hcs.1]
  rw [List.cons_append, scan, step, hstart]
  exact scan_run hcs.2 hrest

/-- Inside of quotes a name is read with its quotes doubled. -/
theorem scan_opened (name cs rest : List Char) :
    (opened name).scan ((cs.flatMap fun c => if c = '"' then ['"', '"'] else [c]) ++ rest) =
      (opened (name ++ cs)).scan rest := by
  induction cs generalizing name with
  | nil => rw [List.append_nil]; rfl
  | cons c cs ih =>
    rw [List.flatMap_cons]
    split
    · next hc =>
      subst hc
      exact (ih _).trans (by rw [List.append_assoc]; rfl)
    · next hc =>
      rw [List.append_assoc, List.singleton_append, scan, step, if_neg hc, ih, List.append_assoc]
      rfl

/-! ### Characters -/

/-- The characters of what is pending, with the quote before them. -/
def chars : Pending → List Char
  | nothing => []
  | run _ cs => cs
  | opened cs => '"' :: cs
  | closed cs => '"' :: cs

theorem chars_start {c x : Char} :
    (∀ s, .plain s ∈ (start c).1 → x ∈ s.toList → x = c) ∧ (x ∈ (start c).2.chars → x = c) := by
  rw [start]
  cases hk : kind c with
  | quote =>
    have hc : c = '"' := Decidable.of_not_not fun hc => kind_ne_quote hc hk
    simp [chars, hc]
  | word => simp [chars]
  | operator => simp [chars]
  | blank => simp [chars]
  | mark => simp [chars]

theorem mem_chars_of_finish {p : Pending} {s : String} (h : .plain s ∈ p.finish) {x : Char}
    (hx : x ∈ s.toList) : x ∈ p.chars := by
  cases p <;> simp_all [finish, chars]

/-- No step makes up characters. -/
theorem chars_step {p : Pending} {c x : Char} :
    (∀ s, .plain s ∈ (p.step c).1 → x ∈ s.toList → x ∈ p.chars ∨ x = c) ∧
      (x ∈ (p.step c).2.chars → x ∈ p.chars ∨ x = c) := by
  -- Either what is pending goes on, or it is finished and something starts.
  have hstart : (∀ s, .plain s ∈ p.finish ++ (start c).1 → x ∈ s.toList → x ∈ p.chars ∨ x = c) ∧
      (x ∈ (start c).2.chars → x ∈ p.chars ∨ x = c) := by
    refine ⟨fun s hs hx => ?_, fun hx => .inr (chars_start.2 hx)⟩
    rcases List.mem_append.1 hs with hs | hs
    · exact .inl (mem_chars_of_finish hs hx)
    · exact .inr (chars_start.1 s hs hx)
  cases p with
  | nothing => exact hstart
  | run k cs =>
    rw [step]
    split
    · simp [chars]
    · exact hstart
  | opened cs =>
    rw [step]
    split <;> simp +contextual [chars, or_imp]
  | closed cs =>
    rw [step]
    split
    · simp [chars, or_assoc]
    · exact hstart

/-- The words and marks that are read consist of characters of the text. -/
theorem mem_of_mem_scan {p : Pending} {cs : List Char} {s : String} (h : .plain s ∈ p.scan cs)
    {x : Char} (hx : x ∈ s.toList) : x ∈ p.chars ∨ x ∈ cs := by
  induction cs generalizing p with
  | nil => exact .inl (mem_chars_of_finish h hx)
  | cons c cs ih =>
    rw [scan, List.mem_append] at h
    rw [List.mem_cons, ← or_assoc]
    rcases h with h | h
    · exact .inl (chars_step.1 s h hx)
    · exact (ih h).imp_left fun hx => chars_step.2 hx

end Pending

/-- The words and marks of a text consist of its characters. -/
theorem mem_of_mem_scan {w s : String} (h : .plain s ∈ scan w) {c : Char} (hc : c ∈ s.toList) :
    c ∈ w.toList :=
  (Pending.mem_of_mem_scan h hc).resolve_left List.not_mem_nil

end Token

/-! ### Names -/

namespace Identifier

/-- The token of a name. -/
def token (name : String) : Token :=
  if needsQuoting name then .quoted name else .plain name

/-- A name in quotes is read as one token, whatever is in it. -/
theorem scan_quoted (name : String) {rest : List Char} (hrest : Token.StartApart rest) :
    Token.Pending.nothing.scan ((quoted name).toList ++ rest) =
      .quoted name :: Token.Pending.nothing.scan rest := by
  have hchars : (quoted name).toList ++ rest =
      '"' :: ((name.toList.flatMap fun c => if c = '"' then ['"', '"'] else [c]) ++
        '"' :: rest) := by
    simp [quoted, Text.replaceChar]
  rw [hchars]
  have hopened := Token.Pending.scan_opened [] name.toList ('"' :: rest)
  have hclosed := Token.Pending.scan_of_startApart (p := .closed name.toList)
    (.inr ⟨_, rfl⟩) hrest
  refine Eq.trans (hopened.trans hclosed) ?_
  rw [Token.Pending.finish, String.ofList_toList]
  rfl

/-- A name is read as one token. -/
theorem scan_text (name : String) {rest : List Char} (hrest : Token.StartApart rest) :
    Token.Pending.nothing.scan ((text name).toList ++ rest) =
      token name :: Token.Pending.nothing.scan rest := by
  rw [text, token]
  split
  · exact scan_quoted name hrest
  · next hquote =>
    simp only [needsQuoting, Bool.or_eq_true, not_or, Bool.not_eq_true', Bool.not_eq_true,
      Bool.not_eq_false, List.isEmpty_eq_false_iff, List.all_eq_true] at hquote
    obtain ⟨⟨⟨-, hne⟩, -⟩, hword⟩ := hquote
    rw [Token.Pending.scan_word hne (fun c hc => Token.kind_of_isWordChar (hword c hc)) hrest,
      String.ofList_toList]

end Identifier

end EntityFetch
