import EntityFetch.Filter.Eval
import EntityFetch.Filter.Fragment
import Mathlib.Data.List.Infix

/-!
# Patterns of LIKE

A filter asks whether a text is found in a column, taken literally. SQL is asked with a
pattern, in which `%` stands for any characters, `_` for any one, and a backslash for the
character after it. How SQL reads a pattern and which texts it accepts is written down here
apart from how the pattern is made (`Wildcard.read`, `Wildcard.accepts`).

* `Wildcard.accepts_append`: a pattern in two parts accepts the texts in two such parts.
* `Position.exists_of_read_around`: the pattern at a position accepts the texts that have what
  is inside it there.
* `Filter.agrees_like_iff`: the pattern that is bound accepts the texts of which the filter is
  true just if there is no `%`, no `_` and no backslash in it, for nothing escapes them.
-/

namespace EntityFetch

/-- What a character of a pattern stands for. -/
inductive Wildcard where
  /-- Any characters, or none. -/
  | any
  /-- Any one character. -/
  | one
  | char (c : Char)

namespace Wildcard

/-- What a character stands for that nothing escapes. -/
def ofChar : Char → Wildcard
  | '%' => any
  | '_' => one
  | c => char c

/-- A pattern as SQL reads it. One that ends in a backslash with nothing after it is none. -/
def read : List Char → Option (List Wildcard)
  | [] => some []
  | ['\\'] => none
  | '\\' :: c :: cs => (read cs).map (char c :: ·)
  | c :: cs => (read cs).map (ofChar c :: ·)

/-- Whether a text is all of what a pattern stands for. -/
def accepts : List Wildcard → List Char → Bool
  | [], s => s.isEmpty
  | any :: ws, s => s.tails.any (accepts ws)
  | one :: _, [] => false
  | one :: ws, _ :: s => accepts ws s
  | char _ :: _, [] => false
  | char c :: ws, d :: s => c == d && accepts ws s

/-- Whether SQL finds that a text is like a pattern. -/
def isLike (s pattern : String) : Bool :=
  (read pattern.toList).any (accepts · s.toList)

/-- Whether a character stands for itself in a pattern. -/
def isLiteral (c : Char) : Bool :=
  c != '%' && c != '_' && c != '\\'

variable {c : Char} {cs ds s : List Char} {ws us : List Wildcard}

/-! ### Reading patterns -/

/-- A character that is no backslash is read on its own. -/
theorem read_cons (hc : c ≠ '\\') (cs : List Char) :
    read (c :: cs) = (read cs).map (ofChar c :: ·) := by
  rw [read] <;> intros <;> contradiction

/-- Patterns are read from the left: a character alone, or one after a backslash. -/
theorem read_induct {P : List Char → Prop} (nil : P []) (open_escape : P ['\\'])
    (escape : ∀ c cs, P cs → P ('\\' :: c :: cs))
    (plain : ∀ c cs, c ≠ '\\' → P cs → P (c :: cs)) (cs : List Char) : P cs := by
  induction cs using read.induct with
  | case1 => exact nil
  | case2 => exact open_escape
  | case3 c cs ih => exact escape c cs ih
  | case4 c cs hopen hescape ih =>
    refine plain c cs (fun hc => ?_) ih
    cases cs with
    | nil => exact hopen hc rfl
    | cons d ds => exact hescape d ds hc rfl

/-- What comes after a whole pattern is read as it would be alone. -/
theorem read_append (h : read cs = some ws) (ds : List Char) :
    read (cs ++ ds) = (read ds).map (ws ++ ·) := by
  induction cs using read_induct generalizing ws with
  | nil =>
    cases h
    simp
  | open_escape => cases h
  | escape c cs ih =>
    rw [read, Option.map_eq_some_iff] at h
    obtain ⟨us, hus, rfl⟩ := h
    rw [List.cons_append, List.cons_append, read, ih hus, Option.map_map]
    rfl
  | plain c cs hc ih =>
    rw [read_cons hc, Option.map_eq_some_iff] at h
    obtain ⟨us, hus, rfl⟩ := h
    rw [List.cons_append, read_cons hc, ih hus, Option.map_map]
    rfl

/-- What cannot be read ends in a backslash with nothing after it. -/
theorem exists_of_read_eq_none (h : read cs = none) :
    ∃ ds ws, cs = ds ++ ['\\'] ∧ read ds = some ws := by
  induction cs using read_induct with
  | nil => cases h
  | open_escape => exact ⟨[], [], rfl, rfl⟩
  | escape c cs ih =>
    rw [read, Option.map_eq_none_iff] at h
    obtain ⟨ds, ws, rfl, hws⟩ := ih h
    exact ⟨'\\' :: c :: ds, char c :: ws, rfl, by rw [read, hws]; rfl⟩
  | plain c cs hc ih =>
    rw [read_cons hc, Option.map_eq_none_iff] at h
    obtain ⟨ds, ws, rfl, hws⟩ := ih h
    exact ⟨c :: ds, ofChar c :: ws, rfl, by rw [read_cons hc, hws]; rfl⟩

/-! ### Accepting texts -/

/-- What one part of a pattern may stand for. -/
def Takes : Wildcard → List Char → Prop
  | any, _ => True
  | one, s => s.length = 1
  | char c, s => s = [c]

theorem accepts_nil : accepts [] s ↔ s = [] :=
  List.isEmpty_iff

/-- The first part of a pattern takes the start of a text, the others the rest. -/
theorem accepts_cons {w : Wildcard} :
    accepts (w :: ws) s ↔ ∃ a b, s = a ++ b ∧ w.Takes a ∧ accepts ws b := by
  cases w with
  | any =>
    rw [accepts, List.any_eq_true]
    constructor
    · rintro ⟨b, hb, h⟩
      obtain ⟨a, rfl⟩ := (List.mem_tails ..).1 hb
      exact ⟨a, b, rfl, trivial, h⟩
    · rintro ⟨a, b, rfl, -, h⟩
      exact ⟨b, (List.mem_tails ..).2 (List.suffix_append a b), h⟩
  | one =>
    cases s with
    | nil => simp [accepts, Takes]
    | cons d s =>
      rw [accepts]
      constructor
      · exact fun h => ⟨[d], s, rfl, rfl, h⟩
      · rintro ⟨a, b, heq, ha, h⟩
        obtain ⟨e, rfl⟩ := List.length_eq_one_iff.1 ha
        exact (List.cons.inj heq).2 ▸ h
  | char c =>
    cases s with
    | nil => simp [accepts, Takes]
    | cons d s =>
      rw [accepts, Bool.and_eq_true, beq_iff_eq]
      constructor
      · rintro ⟨rfl, h⟩
        exact ⟨[c], s, rfl, rfl, h⟩
      · rintro ⟨a, b, heq, rfl, h⟩
        obtain ⟨rfl, rfl⟩ := List.cons.inj heq
        exact ⟨rfl, h⟩

/-- A pattern in two parts accepts the texts in two such parts. -/
theorem accepts_append :
    accepts (ws ++ us) s ↔ ∃ a b, s = a ++ b ∧ accepts ws a ∧ accepts us b := by
  induction ws generalizing s with
  | nil => simp [accepts_nil]
  | cons w ws ih =>
    simp only [List.cons_append, accepts_cons, ih]
    constructor
    · rintro ⟨a, _, rfl, ha, b, d, rfl, hb, hd⟩
      exact ⟨a ++ b, d, (List.append_assoc ..).symm, ⟨a, b, rfl, ha, hb⟩, hd⟩
    · rintro ⟨_, d, rfl, ⟨a, b, rfl, ha, hb⟩, hd⟩
      exact ⟨a, b ++ d, List.append_assoc .., ha, b, d, rfl, hb, hd⟩

theorem accepts_any : accepts [any] s := by
  rw [accepts_cons]
  exact ⟨s, [], (List.append_nil s).symm, trivial, rfl⟩

theorem takes_ofChar (c : Char) : (ofChar c).Takes [c] := by
  unfold ofChar
  split
  · trivial
  · rfl
  · rfl

/-- A pattern without a backslash accepts itself. -/
theorem accepts_self (h : read cs = some ws) (hcs : '\\' ∉ cs) : accepts ws cs := by
  induction cs using read_induct generalizing ws with
  | nil =>
    cases h
    rfl
  | open_escape => cases h
  | escape c cs => exact absurd List.mem_cons_self hcs
  | plain c cs hc ih =>
    rw [read_cons hc, Option.map_eq_some_iff] at h
    obtain ⟨us, hus, rfl⟩ := h
    exact accepts_cons.2 ⟨[c], cs, rfl, takes_ofChar c, ih hus (List.not_mem_of_not_mem_cons hcs)⟩

/-- A pattern in which every character stands for itself accepts itself and nothing else. -/
theorem exists_of_isLiteral (h : cs.all isLiteral) :
    ∃ ws, read cs = some ws ∧ ∀ s, accepts ws s ↔ s = cs := by
  induction cs with
  | nil => exact ⟨[], rfl, fun _ => accepts_nil⟩
  | cons c cs ih =>
    rw [List.all_cons, Bool.and_eq_true] at h
    obtain ⟨ws, hws, haccepts⟩ := ih h.2
    have hc := h.1
    simp only [isLiteral, Bool.and_eq_true, bne_iff_ne] at hc
    have hchar : ofChar c = char c := by
      unfold ofChar
      split
      · exact absurd rfl hc.1.1
      · exact absurd rfl hc.1.2
      · rfl
    refine ⟨char c :: ws, by rw [read_cons hc.2, hws, hchar]; rfl, fun s => ?_⟩
    simp [accepts_cons, Takes, haccepts]

/-- A shortest text that a pattern accepts. -/
def shortest : List Wildcard → List Char
  | [] => []
  | any :: ws => shortest ws
  | one :: ws => 'a' :: shortest ws
  | char c :: ws => c :: shortest ws

theorem accepts_shortest (ws : List Wildcard) : accepts ws (shortest ws) := by
  induction ws with
  | nil => rfl
  | cons w ws ih =>
    cases w with
    | any => exact accepts_cons.2 ⟨[], _, rfl, trivial, ih⟩
    | one => exact accepts_cons.2 ⟨['a'], _, rfl, rfl, ih⟩
    | char c => exact accepts_cons.2 ⟨[c], _, rfl, rfl, ih⟩

/-- The shortest text is no longer than the pattern, and it is the pattern only if every
    character stands for itself. -/
theorem shortest_of_read (h : read cs = some ws) :
    (shortest ws).length ≤ cs.length ∧ (shortest ws = cs → cs.all isLiteral) := by
  induction cs using read_induct generalizing ws with
  | nil =>
    cases h
    exact ⟨Nat.le_refl _, fun _ => rfl⟩
  | open_escape => cases h
  | escape c cs ih =>
    rw [read, Option.map_eq_some_iff] at h
    obtain ⟨us, hus, rfl⟩ := h
    have hlen : (shortest (char c :: us)).length < ('\\' :: c :: cs).length := by
      have := (ih hus).1
      simp only [shortest, List.length_cons]
      omega
    exact ⟨Nat.le_of_lt hlen, fun heq => absurd (congrArg List.length heq) (Nat.ne_of_lt hlen)⟩
  | plain c cs hc ih =>
    rw [read_cons hc, Option.map_eq_some_iff] at h
    obtain ⟨us, hus, rfl⟩ := h
    obtain ⟨hlen, hself⟩ := ih hus
    unfold ofChar
    split
    · have hlt : (shortest (any :: us)).length < ('%' :: cs).length :=
        Nat.lt_succ_of_le hlen
      exact ⟨Nat.le_of_lt hlt, fun heq => absurd (congrArg List.length heq) (Nat.ne_of_lt hlt)⟩
    · exact ⟨Nat.succ_le_succ hlen, fun heq => absurd (List.cons.inj heq).1 (by decide)⟩
    · next hany hone =>
      refine ⟨Nat.succ_le_succ hlen, fun heq => ?_⟩
      rw [List.all_cons, Bool.and_eq_true]
      refine ⟨?_, hself (List.cons.inj heq).2⟩
      simp only [isLiteral, Bool.and_eq_true, bne_iff_ne]
      exact ⟨⟨hany, hone⟩, hc⟩

end Wildcard

/-! ### Positions -/

namespace Position

variable {position : Position} {pattern part text : List Char}

/-- Whether some characters are found in a row at a position of a text. -/
def Has : Position → List Char → List Char → Prop
  | anywhere, part, text => part <:+: text
  | start, part, text => part <+: text
  | finish, part, text => part <:+ text

theorem has_self (position : Position) (text : List Char) : position.Has text text := by
  cases position with
  | anywhere => exact List.infix_rfl
  | start => exact List.prefix_rfl
  | finish => exact List.suffix_rfl

theorem Has.length_le (h : position.Has part text) : part.length ≤ text.length := by
  cases position with
  | anywhere => exact List.IsInfix.length_le h
  | start => exact List.IsPrefix.length_le h
  | finish => exact List.IsSuffix.length_le h

theorem Has.eq_of_length_le (h : position.Has part text) (hlen : text.length ≤ part.length) :
    part = text := by
  have heq := Nat.le_antisymm h.length_le hlen
  cases position with
  | anywhere => exact List.IsInfix.eq_of_length h heq
  | start => exact List.IsPrefix.eq_of_length h heq
  | finish => exact List.IsSuffix.eq_of_length h heq

theorem occursIn_iff : Filter.occursIn pattern text ↔ pattern <:+: text := by
  induction text with
  | nil => rw [Filter.occursIn, List.isEmpty_iff, List.infix_nil]
  | cons c cs ih =>
    rw [Filter.occursIn, Bool.or_eq_true, ih, List.isPrefixOf_iff_prefix, List.infix_cons_iff]

/-- A filter finds a text where it is found literally. -/
theorem foundAt_iff : Filter.foundAt position pattern text ↔ position.Has pattern text := by
  cases position with
  | anywhere => exact occursIn_iff
  | start => exact List.isPrefixOf_iff_prefix
  | finish => exact List.isSuffixOf_iff_suffix

/-- The characters of the pattern of SQL for a text at a position. -/
def around (position : Position) (p : List Char) : List Char :=
  match position with
  | anywhere => '%' :: p ++ ['%']
  | start => p ++ ['%']
  | finish => '%' :: p

theorem pattern_str (position : Position) (p : String) :
    position.pattern (.str p) = .str (String.ofList (position.around p.toList)) := by
  cases position <;> simp [pattern, around, ← String.toList_inj]

open Wildcard

variable {p s : List Char} {ws : List Wildcard}

/-- The pattern at a position accepts the texts that have what is inside it there. -/
theorem exists_of_read_around (position : Position) (h : read p = some ws) :
    ∃ us, read (position.around p) = some us ∧
      ∀ s, accepts us s ↔ ∃ part, position.Has part s ∧ accepts ws part := by
  have hafter : read (p ++ ['%']) = some (ws ++ [any]) := read_append h ['%']
  have hbefore : ∀ {cs us}, read cs = some us → read ('%' :: cs) = some (any :: us) := by
    intro cs us hus
    rw [read_cons (by decide), hus]
    rfl
  cases position with
  | anywhere =>
    -- What the pattern accepts stands between two rests, which may be empty.
    refine ⟨any :: (ws ++ [any]), hbefore hafter, fun s => ?_⟩
    simp only [accepts_cons, accepts_append, Takes, accepts_any, Has]
    constructor
    · rintro ⟨a, _, rfl, -, part, b, rfl, hpart, -⟩
      exact ⟨part, ⟨a, b, List.append_assoc ..⟩, hpart⟩
    · rintro ⟨part, ⟨a, b, rfl⟩, hpart⟩
      exact ⟨a, part ++ b, List.append_assoc .., trivial, part, b, rfl, hpart, trivial⟩
  | start =>
    refine ⟨ws ++ [any], hafter, fun s => ?_⟩
    simp only [accepts_append, accepts_any, Has]
    constructor
    · rintro ⟨part, b, rfl, hpart, -⟩
      exact ⟨part, List.prefix_append part b, hpart⟩
    · rintro ⟨part, ⟨b, rfl⟩, hpart⟩
      exact ⟨part, b, rfl, hpart, trivial⟩
  | finish =>
    refine ⟨any :: ws, hbefore h, fun s => ?_⟩
    simp only [accepts_cons, Takes, Has]
    constructor
    · rintro ⟨a, part, rfl, -, hpart⟩
      exact ⟨part, List.suffix_append a part, hpart⟩
    · rintro ⟨part, ⟨a, rfl⟩, hpart⟩
      exact ⟨a, part, rfl, trivial, hpart⟩

/-- A text that ends in an open escape is found in itself. Its pattern is none or one in which
    the last per cent sign is escaped, which accepts a text without the backslash. -/
theorem exists_of_open_escape (h : read p = none) :
    ∃ s, ¬((read (position.around p)).any (accepts · s) ↔ position.Has p s) := by
  obtain ⟨q, ws, rfl, hws⟩ := exists_of_read_eq_none h
  have hread : read (q ++ ['\\'] ++ ['%']) = some (ws ++ [char '%']) := by
    rw [List.append_assoc, read_append hws]
    rfl
  have haccepts : accepts (ws ++ [char '%']) (shortest ws ++ ['%']) :=
    accepts_append.2 ⟨_, _, rfl, accepts_shortest ws, rfl⟩
  -- The text is no longer than the part, and it ends in another character.
  have hnot : ¬position.Has (q ++ ['\\']) (shortest ws ++ ['%']) := by
    intro hfound
    have hlen := (shortest_of_read hws).1
    have heq := hfound.eq_of_length_le (by simpa using hlen)
    exact absurd (List.append_inj_right' heq rfl) (by decide)
  cases position with
  | anywhere =>
    refine ⟨shortest ws ++ ['%'], fun hiff => hnot (hiff.1 ?_)⟩
    rw [around, List.cons_append, read_cons (by decide), hread]
    exact accepts_cons.2 ⟨[], _, rfl, trivial, haccepts⟩
  | start =>
    refine ⟨shortest ws ++ ['%'], fun hiff => hnot (hiff.1 ?_)⟩
    rw [around, hread]
    exact haccepts
  | finish =>
    -- Nothing is added after the escape, so that the pattern is none and accepts nothing.
    refine ⟨q ++ ['\\'], fun hiff => ?_⟩
    have hfound := hiff.2 (has_self ..)
    rw [around, read_cons (by decide), h] at hfound
    exact Bool.false_ne_true hfound

/-- Only where every character stands for itself can a pattern accept what a text is found in
    and nothing else. -/
theorem isLiteral_of_agrees (position : Position)
    (h : ∀ s, (read (position.around p)).any (accepts · s) ↔ position.Has p s) :
    p.all isLiteral := by
  cases hws : read p with
  | none =>
    obtain ⟨s, hs⟩ := exists_of_open_escape hws
    exact absurd (h s) hs
  | some ws =>
    obtain ⟨us, hus, haccepts⟩ := exists_of_read_around position hws
    have hfound : position.Has p (shortest ws) := by
      rw [← h, hus]
      exact (haccepts _).2 ⟨_, position.has_self _, accepts_shortest ws⟩
    obtain ⟨hlen, hself⟩ := shortest_of_read hws
    exact hself (hfound.eq_of_length_le hlen).symm

theorem agrees_of_isLiteral (position : Position) (h : p.all isLiteral) (s : List Char) :
    (read (position.around p)).any (accepts · s) ↔ position.Has p s := by
  obtain ⟨ws, hws, hself⟩ := exists_of_isLiteral h
  obtain ⟨us, hus, haccepts⟩ := exists_of_read_around position hws
  rw [hus, Option.any_some, haccepts]
  constructor
  · rintro ⟨part, hfound, hpart⟩
    exact (hself part).1 hpart ▸ hfound
  · exact fun hfound => ⟨p, hfound, (hself p).2 rfl⟩

/-- Without a backslash nothing is missed. -/
theorem accepts_of_has (h : '\\' ∉ p) (hfound : position.Has p s) :
    (read (position.around p)).any (accepts · s) := by
  obtain ⟨ws, hws⟩ : ∃ ws, read p = some ws := by
    cases hread : read p with
    | some ws => exact ⟨ws, rfl⟩
    | none =>
      obtain ⟨q, ws, rfl, -⟩ := exists_of_read_eq_none hread
      exact absurd (List.mem_append_right q (List.mem_singleton_self _)) h
  obtain ⟨us, hus, haccepts⟩ := exists_of_read_around position hws
  rw [hus, Option.any_some, haccepts]
  exact ⟨p, hfound, accepts_self hws h⟩

end Position

namespace Filter

open Wildcard

theorem eval_like_str (position : Position) {column s : String} (p : String)
    {row : String → Value} (hrow : row column = .str s) :
    (like position column (.str p)).eval row = some true ↔ position.Has p.toList s.toList := by
  rw [eval, hrow, ← Position.foundAt_iff]
  exact Option.some_inj

/-- The pattern that is bound for a text accepts the texts of which the filter is true just if
    every character of it stands for itself. Without a backslash none of them is missed, so
    that a wildcard can only let in others. -/
theorem agrees_like_iff (position : Position) (aliasName column p : String) :
    ∃ pattern, ((like position column (.str p)).fragment aliasName).params = [.str pattern] ∧
      ((∀ s row, row column = .str s →
          (isLike s pattern ↔ (like position column (.str p)).eval row = some true)) ↔
        p.toList.all isLiteral) ∧
      ('\\' ∉ p.toList → ∀ s row, row column = .str s →
        (like position column (.str p)).eval row = some true → isLike s pattern) := by
  refine ⟨String.ofList (position.around p.toList), ?_, ⟨fun h => ?_, fun h s row hrow => ?_⟩,
    fun h s row hrow hfound => ?_⟩
  · exact congrArg (fun v => [v]) (position.pattern_str p)
  · refine Position.isLiteral_of_agrees position fun s => ?_
    let row : String → Value := fun _ => .str (String.ofList s)
    have hs := h (String.ofList s) row rfl
    have hrow : row column = .str (String.ofList s) := rfl
    rwa [eval_like_str position p hrow, isLike, String.toList_ofList, String.toList_ofList] at hs
  · rw [eval_like_str position p hrow, isLike, String.toList_ofList]
    exact position.agrees_of_isLiteral h s.toList
  · rw [eval_like_str position p hrow] at hfound
    rw [isLike, String.toList_ofList]
    exact Position.accepts_of_has h hfound

/-- The pattern for a per cent sign accepts a text without one, and the pattern for a backslash
    none that ends in one. -/
theorem unescaped_like :
    ((like .anywhere "c" (.str "%")).fragment "t").params = [.str "%%%"] ∧
      isLike "abc" "%%%" = true ∧
      (like .anywhere "c" (.str "%")).eval (fun _ => .str "abc") = some false ∧
      ((like .start "c" (.str "\\")).fragment "t").params = [.str "\\%"] ∧
      isLike "\\" "\\%" = false ∧
      (like .start "c" (.str "\\")).eval (fun _ => .str "\\") = some true :=
  ⟨rfl, by decide, by decide, rfl, by decide, by decide⟩

end Filter

end EntityFetch
