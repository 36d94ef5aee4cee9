import EntityFetch.Text.Joining
import EntityFetch.Text.Unassigned

/-!
# Texts in quotes

A text is shown in double quotes so that all of its characters can be seen:
quotes, backslashes and the common control characters have escapes of their own,
and what leaves no mark of its own is shown by its code.
-/

namespace EntityFetch.Text

/-- The characters that leave no mark at all: control and format characters, blanks
    but for the space of ASCII, the letters that fill an empty place, and the codes
    for private use. -/
def unseen : Ranges :=
  [(0x0, 0x1F), (0x7F, 0xA0), (0xAD, 0xAD), (0x600, 0x605), (0x61C, 0x61C), (0x6DD, 0x6DD),
    (0x70F, 0x70F), (0x890, 0x891), (0x8E2, 0x8E2), (0x115F, 0x1160), (0x1680, 0x1680),
    (0x180E, 0x180E), (0x2000, 0x200F), (0x2028, 0x202F), (0x205F, 0x2064), (0x2066, 0x206F),
    (0x3000, 0x3000), (0x3164, 0x3164), (0xE000, 0xF8FF), (0xFEFF, 0xFEFF), (0xFFA0, 0xFFA0),
    (0xFFF9, 0xFFFB), (0x110BD, 0x110BD), (0x110CD, 0x110CD), (0x13430, 0x1343F),
    (0x1BCA0, 0x1BCA3), (0x1D173, 0x1D17A), (0xE0001, 0xE0001), (0xE0020, 0xE007F),
    (0xF0000, 0xFFFFD), (0x100000, 0x10FFFD)]

/-- Whether a character leaves no mark of its own and is shown by its code. -/
def isUnmarked (c : Char) : Bool :=
  unseen.contains c || joining.contains c || unassigned.contains c

/-- A character as it is shown in quotes. -/
def shown (c : Char) : String :=
  match c with
  | '"' => "\\\""
  | '\\' => "\\\\"
  | '\t' => "\\t"
  | '\n' => "\\n"
  | '\r' => "\\r"
  | '\x00' => "\\0"
  | c =>
    if isUnmarked c then "\\u\x7b" ++ String.ofList (Nat.toDigits 16 c.toNat) ++ "\x7d"
    else String.ofList [c]

/-- A text in quotes. -/
def quoted (s : String) : String :=
  "\"" ++ String.join (s.toList.map shown) ++ "\""

end EntityFetch.Text
