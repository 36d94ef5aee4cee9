import EntityFetch.Json.Printer
import EntityFetch.Json.Reader
import EntityFetch.Proofs.Scan
import Mathlib.Tactic.IntervalCases

/-!
# JSON told apart by its text

The compact text of a value says where the value ends: a string ends at the first quote that is
not escaped, an integer before the first character that is neither digit nor sign, and arrays
and objects at their brackets. So no two values without floats have the same text.

* `stringChar_escapeChar`: every character of a string is read back, however it is escaped.
* `chars_append_inj`: a text with something after it determines the value and what comes after.
* `text_inj`: values without floats differ in their texts.
-/

namespace EntityFetch.Json

open Reader

/-! ### Strings -/

/-- The reader of the characters of a string. -/
def stringChar : Reader Char :=
  char (fun c => c != '"' && c != '\\') <|> (exactly "\\" *> escaped)

theorem orElse_of_eq_some {α : Type} {r r' : Reader α} {cs : List Char} {x : α × List Char}
    (h : r cs = some x) : (r <|> r') cs = some x := by
  show (r cs <|> r' cs) = some x
  rw [h]
  rfl

/-- A control character is read back from its code. -/
theorem stringChar_code {c : Char} (hc : c.toNat < 0x20) (rest : List Char) :
    stringChar ('\\' :: 'u' :: '0' :: '0' :: hexDigit (c.toNat / 16) :: hexDigit (c.toNat % 16) ::
      rest) = some (c, rest) := by
  have hall : ∀ n < 0x20, stringChar ('\\' :: 'u' :: '0' :: '0' :: hexDigit (n / 16) ::
      hexDigit (n % 16) :: rest) = some (Char.ofNat n, rest) := by
    intro n hn
    interval_cases n <;> rfl
  rw [hall _ hc, Char.ofNat_toNat]

/-- Every character of a string is read back, whatever comes after it. -/
theorem stringChar_escapeChar (c : Char) (rest : List Char) :
    stringChar (escapeChar c ++ rest) = some (c, rest) := by
  unfold escapeChar
  split
  · rfl
  · rfl
  · rfl
  · rfl
  · rfl
  · rfl
  · rfl
  · next hquote hescape _ _ _ _ _ =>
    split
    · next hc => exact stringChar_code hc rest
    · have hplain : (c != '"' && c != '\\') = true := by
        rw [Bool.and_eq_true, bne_iff_ne, bne_iff_ne]
        exact ⟨hquote, hescape⟩
      exact orElse_of_eq_some (if_pos hplain)

/-- No character of a string is written as a quote. -/
theorem escapeChar_append_ne (c : Char) (cs rest : List Char) :
    escapeChar c ++ cs ≠ '"' :: rest := by
  intro h
  have hread := stringChar_escapeChar c cs
  have hnone : stringChar ('"' :: rest) = none := rfl
  rw [h, hnone] at hread
  cases hread

/-- The characters of a string in quotes. -/
def stringChars (s : String) : List Char :=
  '"' :: (s.toList.flatMap escapeChar ++ ['"'])

/-- Up to the quote that ends them, escaped characters determine the characters. -/
theorem escaped_append_inj {rest rest' : List Char} : ∀ {cs ds : List Char},
    cs.flatMap escapeChar ++ '"' :: rest = ds.flatMap escapeChar ++ '"' :: rest' →
      cs = ds ∧ rest = rest'
  | [], [], h => ⟨rfl, (List.cons.inj h).2⟩
  | [], d :: ds, h => by
    rw [List.flatMap_cons, List.append_assoc] at h
    exact absurd h.symm (escapeChar_append_ne d _ _)
  | c :: cs, [], h => by
    rw [List.flatMap_cons, List.append_assoc] at h
    exact absurd h (escapeChar_append_ne c _ _)
  | c :: cs, d :: ds, h => by
    rw [List.flatMap_cons, List.flatMap_cons, List.append_assoc, List.append_assoc] at h
    have hread := congrArg stringChar h
    rw [stringChar_escapeChar, stringChar_escapeChar] at hread
    obtain ⟨rfl, hcs⟩ := Prod.mk.inj (Option.some.inj hread)
    obtain ⟨rfl, hrest⟩ := escaped_append_inj hcs
    exact ⟨rfl, hrest⟩

/-- A string in quotes determines the string and where it ends. -/
theorem stringChars_append_inj {s t : String} {rest rest' : List Char}
    (h : stringChars s ++ rest = stringChars t ++ rest') : s = t ∧ rest = rest' := by
  rw [stringChars, stringChars, List.cons_append, List.cons_append, List.append_assoc,
    List.append_assoc] at h
  obtain ⟨hst, hrest⟩ := escaped_append_inj (List.cons.inj h).2
  exact ⟨String.toList_inj.1 hst, hrest⟩

/-! ### Integers -/

/-- A character of the text of an integer. -/
def isIntegerChar (c : Char) : Bool :=
  c.isDigit || c == '-'

/-- Characters that do not go on with an integer. -/
def Stops (rest : List Char) : Prop :=
  ∀ c ∈ rest.head?, isIntegerChar c = false

theorem stops_cons {c : Char} (hc : isIntegerChar c = false) (rest : List Char) :
    Stops (c :: rest) := by
  rintro _ ⟨⟩
  exact hc

theorem toList_toString_negSucc (m : Nat) :
    (toString (Int.negSucc m)).toList = '-' :: (m + 1).repr.toList := by
  rw [show toString (Int.negSucc m) = "-" ++ (m + 1).repr from rfl, String.toList_append]
  rfl

theorem isIntegerChar_of_mem {n : Int} {c : Char} (hc : c ∈ (toString n).toList) :
    isIntegerChar c := by
  have hdigit : ∀ {m : Nat}, c ∈ m.repr.toList → isIntegerChar c := fun hc => by
    rw [isIntegerChar, Token.isDigit_of_mem_repr hc, Bool.true_or]
  cases n with
  | ofNat m => exact hdigit hc
  | negSucc m =>
    rw [toList_toString_negSucc] at hc
    rcases List.mem_cons.1 hc with rfl | hc
    · rfl
    · exact hdigit hc

theorem toString_ne_nil (n : Int) : (toString n).toList ≠ [] := by
  cases n with
  | ofNat m => exact fun h => Nat.repr_ne_empty (String.toList_eq_nil_iff.1 h)
  | negSucc m =>
    rw [toList_toString_negSucc]
    exact List.cons_ne_nil _ _

/-- Integers differ in their texts. -/
theorem eq_of_toList_toString {m n : Int} (h : (toString m).toList = (toString n).toList) :
    m = n := by
  -- The decimals of a natural number have no sign.
  have hsign : ∀ {k l : Nat}, k.repr.toList ≠ '-' :: l.repr.toList := fun h =>
    absurd (Token.isDigit_of_mem_repr (h ▸ List.mem_cons_self)) (by decide)
  cases m with
  | ofNat k =>
    cases n with
    | ofNat l => exact congrArg Int.ofNat (Token.eq_of_toList_repr h)
    | negSucc l => exact absurd (h.trans (toList_toString_negSucc l)) hsign
  | negSucc k =>
    rw [toList_toString_negSucc] at h
    cases n with
    | ofNat l => exact absurd h.symm hsign
    | negSucc l =>
      rw [toList_toString_negSucc] at h
      have hrepr := Token.eq_of_toList_repr (List.cons.inj h).2
      exact congrArg Int.negSucc (Nat.succ.inj hrepr)

theorem takeWhile_isIntegerChar (n : Int) {rest : List Char} (hrest : Stops rest) :
    ((toString n).toList ++ rest).takeWhile isIntegerChar = (toString n).toList := by
  rw [List.takeWhile_append_of_pos fun _ => isIntegerChar_of_mem]
  cases rest with
  | nil => exact List.append_nil _
  | cons c rest => rw [List.takeWhile_cons_of_neg (by rw [hrest c rfl]; decide), List.append_nil]

/-- The text of an integer determines the integer and where it ends. -/
theorem toString_append_inj {m n : Int} {rest rest' : List Char} (hrest : Stops rest)
    (hrest' : Stops rest') (h : (toString m).toList ++ rest = (toString n).toList ++ rest') :
    m = n ∧ rest = rest' := by
  have htake := congrArg (List.takeWhile isIntegerChar) h
  rw [takeWhile_isIntegerChar m hrest, takeWhile_isIntegerChar n hrest'] at htake
  exact ⟨eq_of_toList_toString htake, List.append_cancel_left (htake ▸ h)⟩

/-! ### Values -/

mutual

/-- Whether a value has no floats in it. -/
def isFloatFree : Json → Bool
  | float _ => false
  | arr items => areFloatFree items
  | obj entries => entriesFloatFree entries
  | _ => true

/-- Whether no item has floats in it. -/
def areFloatFree : List Json → Bool
  | [] => true
  | j :: js => isFloatFree j && areFloatFree js

/-- Whether no entry has floats in it. -/
def entriesFloatFree : List (String × Json) → Bool
  | [] => true
  | (_, j) :: es => isFloatFree j && entriesFloatFree es

end

/-- The kinds of values without floats. -/
inductive Kind where
  | null
  | bool
  | int
  | str
  | arr
  | obj
deriving DecidableEq

/-- The kind of a value, floats counting as integers. -/
def kind : Json → Kind
  | null => .null
  | bool _ => .bool
  | int _ => .int
  | float _ => .int
  | str _ => .str
  | arr _ => .arr
  | obj _ => .obj

/-- The kind of value of which the text starts with a character. -/
def kindOf? (c : Char) : Option Kind :=
  if isIntegerChar c then some .int
  else match c with
    | 'n' => some .null
    | 't' | 'f' => some .bool
    | '"' => some .str
    | '[' => some .arr
    | '\x7b' => some .obj
    | _ => none

/-! ### The characters of a text -/

mutual

/-- The characters of the text of a value. -/
def chars : Json → List Char
  | null => ['n', 'u', 'l', 'l']
  | bool false => ['f', 'a', 'l', 's', 'e']
  | bool true => ['t', 'r', 'u', 'e']
  | int n => (toString n).toList
  | float x => (floatText x).toList
  | str s => stringChars s
  | arr [] => ['[', ']']
  | arr (j :: js) => '[' :: (chars j ++ itemChars js)
  | obj [] => ['\x7b', '\x7d']
  | obj ((k, v) :: es) => '\x7b' :: (stringChars k ++ ':' :: (chars v ++ entryChars es))

/-- The characters of the items after the first and of the end of their array. -/
def itemChars : List Json → List Char
  | [] => [']']
  | j :: js => ',' :: (chars j ++ itemChars js)

/-- The characters of the entries after the first and of the end of their object. -/
def entryChars : List (String × Json) → List Char
  | [] => ['\x7d']
  | (k, v) :: es => ',' :: (stringChars k ++ ':' :: (chars v ++ entryChars es))

end

theorem toList_stringText (s : String) : (stringText s).toList = stringChars s :=
  String.toList_ofList

mutual

theorem flatMap_pieces : ∀ j : Json, j.pieces.flatMap String.toList = j.chars
  | null => rfl
  | bool false => rfl
  | bool true => rfl
  | int n => List.append_nil _
  | float x => List.append_nil _
  | str s => (List.append_nil _).trans (toList_stringText s)
  | arr [] => rfl
  | arr (j :: js) => by
    rw [pieces, chars, List.flatMap_append, List.flatMap_cons, flatMap_pieces j,
      flatMap_itemPieces js]
    rfl
  | obj [] => rfl
  | obj ((k, v) :: es) => by
    rw [pieces, chars, List.flatMap_append, List.flatMap_cons, List.flatMap_cons,
      List.flatMap_cons, toList_stringText, flatMap_pieces v, flatMap_entryPieces es,
      List.append_assoc, List.append_assoc]
    rfl

theorem flatMap_itemPieces : ∀ js : List Json, (itemPieces js).flatMap String.toList = itemChars js
  | [] => rfl
  | j :: js => by
    rw [itemPieces, itemChars, List.flatMap_append, List.flatMap_cons, flatMap_pieces j,
      flatMap_itemPieces js]
    rfl

theorem flatMap_entryPieces : ∀ es : List (String × Json),
    (entryPieces es).flatMap String.toList = entryChars es
  | [] => rfl
  | (k, v) :: es => by
    rw [entryPieces, entryChars, List.flatMap_append, List.flatMap_cons, List.flatMap_cons,
      List.flatMap_cons, toList_stringText, flatMap_pieces v, flatMap_entryPieces es,
      List.append_assoc, List.append_assoc]
    rfl

end

theorem toList_text (j : Json) : j.text.toList = j.chars := by
  rw [text, String.toList_join, flatMap_pieces]

/-! ### Where a text ends -/

/-- The first character tells which kind of value a text is of. -/
theorem exists_chars_eq_cons {j : Json} (h : j.isFloatFree) :
    ∃ c cs, j.chars = c :: cs ∧ kindOf? c = some j.kind := by
  cases j with
  | null => exact ⟨'n', _, rfl, rfl⟩
  | bool b =>
    cases b with
    | false => exact ⟨'f', _, rfl, rfl⟩
    | true => exact ⟨'t', _, rfl, rfl⟩
  | int n =>
    -- Every character of a number is a digit or its sign.
    obtain ⟨c, cs, hcs⟩ := List.exists_cons_of_ne_nil (toString_ne_nil n)
    have hc : isIntegerChar c := isIntegerChar_of_mem (hcs ▸ List.mem_cons_self)
    exact ⟨c, cs, hcs, if_pos hc⟩
  | float x => exact absurd h Bool.false_ne_true
  | str s => exact ⟨'"', _, rfl, rfl⟩
  | arr items =>
    cases items with
    | nil => exact ⟨'[', _, rfl, rfl⟩
    | cons j js => exact ⟨'[', _, rfl, rfl⟩
  | obj entries =>
    cases entries with
    | nil => exact ⟨'\x7b', _, rfl, rfl⟩
    | cons e es => exact ⟨'\x7b', _, rfl, rfl⟩

variable {rest rest' : List Char}

/-- Texts that start in the same way are of values of one kind. -/
theorem kind_eq {a b : Json} (ha : a.isFloatFree) (hb : b.isFloatFree)
    (h : a.chars ++ rest = b.chars ++ rest') : a.kind = b.kind := by
  obtain ⟨c, cs, hcs, hc⟩ := exists_chars_eq_cons ha
  obtain ⟨d, ds, hds, hd⟩ := exists_chars_eq_cons hb
  rw [hcs, hds] at h
  rw [(List.cons.inj h).1, hd] at hc
  exact (Option.some.inj hc).symm

/-- No text starts with the end of an array. -/
theorem chars_append_ne {j : Json} (h : j.isFloatFree) : j.chars ++ rest ≠ ']' :: rest' := by
  obtain ⟨c, cs, hcs, hc⟩ := exists_chars_eq_cons h
  rw [hcs]
  rintro ⟨⟩
  cases hc

theorem stops_itemChars (js : List Json) (rest : List Char) : Stops (itemChars js ++ rest) := by
  cases js with
  | nil => exact stops_cons rfl _
  | cons j js => exact stops_cons rfl _

theorem stops_entryChars (es : List (String × Json)) (rest : List Char) :
    Stops (entryChars es ++ rest) := by
  cases es with
  | nil => exact stops_cons rfl _
  | cons e es => exact stops_cons rfl _

theorem areFloatFree_cons {j : Json} {js : List Json} (h : areFloatFree (j :: js)) :
    j.isFloatFree ∧ areFloatFree js := by
  rwa [areFloatFree, Bool.and_eq_true] at h

theorem entriesFloatFree_cons {k : String} {v : Json} {es : List (String × Json)}
    (h : entriesFloatFree ((k, v) :: es)) : v.isFloatFree ∧ entriesFloatFree es := by
  rwa [entriesFloatFree, Bool.and_eq_true] at h

mutual

/-- The text of a value determines the value and where it ends. -/
theorem chars_append_inj {rest rest' : List Char} (hrest : Stops rest) (hrest' : Stops rest') :
    ∀ a b : Json, a.isFloatFree → b.isFloatFree → a.chars ++ rest = b.chars ++ rest' →
      a = b ∧ rest = rest'
  | null, b, ha, hb, h => by
    have hkind := kind_eq ha hb h
    cases b <;> cases hkind
    exact ⟨rfl, List.append_cancel_left h⟩
  | bool x, b, ha, hb, h => by
    have hkind := kind_eq ha hb h
    cases b <;> cases hkind
    next y =>
    cases x <;> cases y
    · exact ⟨rfl, List.append_cancel_left h⟩
    · exact absurd (List.cons.inj h).1 (by decide)
    · exact absurd (List.cons.inj h).1 (by decide)
    · exact ⟨rfl, List.append_cancel_left h⟩
  | int m, b, ha, hb, h => by
    have hkind := kind_eq ha hb h
    cases b <;> cases hkind
    · obtain ⟨rfl, heq⟩ := toString_append_inj hrest hrest' h
      exact ⟨rfl, heq⟩
    · exact absurd hb Bool.false_ne_true
  | float x, _, ha, _, _ => absurd ha Bool.false_ne_true
  | str s, b, ha, hb, h => by
    have hkind := kind_eq ha hb h
    cases b <;> cases hkind
    obtain ⟨rfl, heq⟩ := stringChars_append_inj h
    exact ⟨rfl, heq⟩
  | arr [], b, ha, hb, h => by
    have hkind := kind_eq ha hb h
    cases b <;> cases hkind
    next ks =>
    cases ks with
    | nil => exact ⟨rfl, List.append_cancel_left h⟩
    | cons k ks =>
      have htail : k.chars ++ itemChars ks ++ rest' = ']' :: rest := (List.cons.inj h).2.symm
      rw [List.append_assoc] at htail
      exact absurd htail (chars_append_ne (areFloatFree_cons hb).1)
  | arr (j :: js), b, ha, hb, h => by
    have hkind := kind_eq ha hb h
    cases b <;> cases hkind
    next ks =>
    cases ks with
    | nil =>
      have htail : j.chars ++ itemChars js ++ rest = ']' :: rest' := (List.cons.inj h).2
      rw [List.append_assoc] at htail
      exact absurd htail (chars_append_ne (areFloatFree_cons ha).1)
    | cons k ks =>
      -- But for the bracket the items are written as they are after another one.
      obtain ⟨heq, hend⟩ := itemChars_append_inj (j :: js) (k :: ks) ha hb
        (congrArg (List.cons ',') (List.cons.inj h).2)
      exact ⟨congrArg arr heq, hend⟩
  | obj [], b, ha, hb, h => by
    have hkind := kind_eq ha hb h
    cases b <;> cases hkind
    next es =>
    cases es with
    | nil => exact ⟨rfl, List.append_cancel_left h⟩
    | cons e es => exact absurd (List.cons.inj (List.cons.inj h).2).1 (by decide)
  | obj (d :: ds), b, ha, hb, h => by
    have hkind := kind_eq ha hb h
    cases b <;> cases hkind
    next es =>
    cases es with
    | nil => exact absurd (List.cons.inj (List.cons.inj h).2).1 (by decide)
    | cons e es =>
      obtain ⟨heq, hend⟩ := entryChars_append_inj (d :: ds) (e :: es) ha hb
        (congrArg (List.cons ',') (List.cons.inj h).2)
      exact ⟨congrArg obj heq, hend⟩

/-- The texts of the items after the first determine them and where the array ends. -/
theorem itemChars_append_inj {rest rest' : List Char} : ∀ js ks : List Json, areFloatFree js →
    areFloatFree ks → itemChars js ++ rest = itemChars ks ++ rest' → js = ks ∧ rest = rest'
  | [], [], _, _, h => ⟨rfl, (List.cons.inj h).2⟩
  | [], _ :: _, _, _, h => absurd (List.cons.inj h).1 (by decide)
  | _ :: _, [], _, _, h => absurd (List.cons.inj h).1 (by decide)
  | j :: js, k :: ks, ha, hb, h => by
    rw [itemChars, itemChars, List.cons_append, List.cons_append, List.append_assoc,
      List.append_assoc] at h
    obtain ⟨hj, hjs⟩ := areFloatFree_cons ha
    obtain ⟨hk, hks⟩ := areFloatFree_cons hb
    obtain ⟨rfl, hitems⟩ := chars_append_inj (stops_itemChars js rest) (stops_itemChars ks rest')
      j k hj hk (List.cons.inj h).2
    obtain ⟨rfl, hend⟩ := itemChars_append_inj js ks hjs hks hitems
    exact ⟨rfl, hend⟩

/-- The texts of the entries after the first determine them and where the object ends. -/
theorem entryChars_append_inj {rest rest' : List Char} : ∀ ds es : List (String × Json),
    entriesFloatFree ds → entriesFloatFree es →
      entryChars ds ++ rest = entryChars es ++ rest' → ds = es ∧ rest = rest'
  | [], [], _, _, h => ⟨rfl, (List.cons.inj h).2⟩
  | [], _ :: _, _, _, h => absurd (List.cons.inj h).1 (by decide)
  | _ :: _, [], _, _, h => absurd (List.cons.inj h).1 (by decide)
  | (k, v) :: ds, (l, w) :: es, ha, hb, h => by
    rw [entryChars, entryChars, List.cons_append, List.cons_append, List.append_assoc,
      List.append_assoc, List.cons_append, List.cons_append, List.append_assoc,
      List.append_assoc] at h
    obtain ⟨hv, hds⟩ := entriesFloatFree_cons ha
    obtain ⟨hw, hes⟩ := entriesFloatFree_cons hb
    obtain ⟨rfl, hvalue⟩ := stringChars_append_inj (List.cons.inj h).2
    obtain ⟨rfl, hentries⟩ := chars_append_inj (stops_entryChars ds rest)
      (stops_entryChars es rest') v w hv hw (List.cons.inj hvalue).2
    obtain ⟨rfl, hend⟩ := entryChars_append_inj ds es hds hes hentries
    exact ⟨rfl, hend⟩

end

/-- Values without floats differ in their texts. -/
theorem text_inj {a b : Json} (ha : a.isFloatFree) (hb : b.isFloatFree) :
    a.text = b.text ↔ a = b := by
  refine ⟨fun h => ?_, congrArg text⟩
  have hnil : Stops [] := nofun
  have hchars : a.chars ++ [] = b.chars ++ [] := by
    rw [List.append_nil, List.append_nil, ← toList_text, ← toList_text, h]
  exact (chars_append_inj hnil hnil a b ha hb hchars).1

end EntityFetch.Json
