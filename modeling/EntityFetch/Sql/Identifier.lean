import EntityFetch.Text.Split

/-!
# Identifiers in SQL

A name is written as it stands if it is a word that SQL reads as a name, and in
double quotes otherwise. Inside the quotes a quote is written twice.
-/

namespace EntityFetch.Identifier

/-- The words that SQL keeps to itself, in small letters. -/
def reserved : List String :=
  ["user", "order", "group", "select", "from", "where", "table", "index", "key", "primary",
    "foreign", "check", "default", "null", "not", "and", "or", "in", "is", "like", "between",
    "case", "when", "then", "else", "end", "as", "on", "join", "left", "right", "inner",
    "outer", "cross", "natural", "using", "limit", "offset", "union", "all", "distinct",
    "having", "into", "values", "set", "returning"]

/-- The letters, digits and underscore of ASCII, of which a name may consist
    without quotes. -/
def isWordChar (c : Char) : Bool :=
  c.isAlphanum || c == '_'

/-- A name in small letters. Only those of ASCII matter, for no other letter
    occurs in a reserved word. -/
def lower (name : String) : String :=
  String.ofList (name.toList.map Char.toLower)

/-- Whether a name has to be quoted: it is reserved or empty, starts with a
    digit or has a character that is no word character. -/
def needsQuoting (name : String) : Bool :=
  reserved.contains (lower name) || name.toList.isEmpty ||
    (name.toList.head?.any Char.isDigit) || !name.toList.all isWordChar

/-- A name in double quotes. -/
def quoted (name : String) : String :=
  "\"" ++ Text.replaceChar '"' "\"\"" name ++ "\""

/-- A name, quoted if it has to be. -/
def text (name : String) : String :=
  if needsQuoting name then quoted name else name

end EntityFetch.Identifier
