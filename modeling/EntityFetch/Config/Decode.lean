import EntityFetch.Config
import EntityFetch.Config.Placeholder
import EntityFetch.Decimal.Text
import EntityFetch.Text.Quoted
import EntityFetch.Toml.Document

/-!
# Reading a configuration

A configuration is a TOML document with a table for each of its sections. What is
not given has its default, and what is not known is refused. Placeholders are
expanded before the text is read; after that the values are checked
(`Config.validate`). Of several defects the first in the document is told.
-/

namespace EntityFetch

/-- What is wrong with the text of a configuration. -/
inductive Defect where
  | notToml
  /-- A key that is none of the known fields. -/
  | unknownField (name : String) (known : List String)
  /-- A choice that is none of the known ones. -/
  | unknownVariant (name : String) (known : List String)
  | invalidType (found expected : String)
  | invalidValue (found expected : String)
  /-- A choice that is not given by its name. -/
  | notAChoice
deriving DecidableEq, Repr

namespace Defect

/-- What is expected, as a list of names. -/
def oneOf (names : List String) : String :=
  match names.map fun n => "`" ++ n ++ "`" with
  | [] => "nothing"
  | [a] => a
  | [a, b] => a ++ " or " ++ b
  | many => "one of " ++ ", ".intercalate many

/-- The wording of a defect. -/
def text : Defect → String
  | notToml => "the text is not TOML"
  | unknownField name known => "unknown field `" ++ name ++ "`, expected " ++ oneOf known
  | unknownVariant name known => "unknown variant `" ++ name ++ "`, expected " ++ oneOf known
  | invalidType found expected => "invalid type: " ++ found ++ ", expected " ++ expected
  | invalidValue found expected => "invalid value: " ++ found ++ ", expected " ++ expected
  | notAChoice => "a choice is given by its name"

/-- The error to which a defect leads. -/
def toError (d : Defect) : QueryError :=
  (Fault.invalidConfiguration d.text : QueryError).withSource d.text

end Defect

namespace Toml

/-- A float in words has all of its digits around a point, and of two shortest
    decimals that are equally near it is the upper one. -/
def floatFormat : Decimal.FloatFormat where
  isPositional _ := true
  tie := .upper

/-- A float in words. -/
def floatWords (x : Float) : String :=
  if x.isNaN then "NaN"
  else if x.isInf then if x < 0 then "-inf" else "inf"
  else floatFormat.text x

/-- A value in words. -/
def words : Toml → String
  | str s => "string " ++ Text.quoted s
  | int n => "integer `" ++ toString n ++ "`"
  | float x => "floating point `" ++ floatWords x ++ "`"
  | bool b => "boolean `" ++ (if b then "true" else "false") ++ "`"
  | datetime _ => "map"
  | array _ => "sequence"
  | table _ _ => "map"

/-- A number below a limit. -/
def toNat (type : String) (limit : Nat) : Toml → Except Defect Nat
  | int n =>
    if 0 ≤ n && n < limit then .ok n.toNat else .error (.invalidValue (words (int n)) type)
  | v => .error (.invalidType v.words type)

/-- A size has 64 bits. -/
def toSize : Toml → Except Defect Nat :=
  toNat "usize" UInt64.size

/-- A count has 32 bits. -/
def toCount : Toml → Except Defect Nat :=
  toNat "u32" UInt32.size

def toBool : Toml → Except Defect Bool
  | bool b => .ok b
  | v => .error (.invalidType v.words "a boolean")

/-- Whether a value is an array or a table with nothing in it. -/
def isVoid : Toml → Bool
  | array items => items.isEmpty
  | table _ entries => entries.isEmpty
  | _ => false

/-- One of a number of choices with names. It is given by its name, or as the only
    key of a table that has nothing for a value. -/
def toChoice {α : Type} (choices : List (String × α)) : Toml → Except Defect α
  | str s => named s
  | table _ [(s, v)] => do
    let a ← named s
    if v.isVoid then .ok a else .error .notAChoice
  | _ => .error .notAChoice
where
  /-- The choice with a name. -/
  named (s : String) : Except Defect α :=
    match choices.lookup s with
    | some a => .ok a
    | none => .error (.unknownVariant s (choices.map Prod.fst))

/-- The key under which a date counts as a table with one entry. -/
def datetimeKey : String := "$__toml_private_datetime"

/-- The entries of a table of switches. -/
def toSwitches : Toml → Except Defect (List (String × Bool))
  | table _ entries => entries.mapM fun e => do return (e.1, ← e.2.toBool)
  | datetime text => do return [(datetimeKey, ← (str text).toBool)]
  | v => .error (.invalidType v.words "a map")

end Toml

namespace Config

/-- A field of a section: how its value changes the section. -/
structure Field (σ : Type) where
  name : String
  set : Toml → σ → Except Defect σ

/-- The field whose value is read by `read` and put in its place by `put`. -/
def Field.of {σ α : Type} (name : String) (read : Toml → Except Defect α) (put : α → σ → σ) :
    Field σ :=
  { name, set := fun v s => do return put (← read v) s }

/-- A section with some of its fields given: those of a table in its order, or the
    items of an array as the values of the first fields. -/
def ofSection {σ : Type} (type : String) (fields : List (Field σ)) (start : σ) :
    Toml → Except Defect σ
  | .table _ entries => entries.foldlM (fun s e =>
      match fields.find? (·.name == e.1) with
      | some f => f.set e.2 s
      | none => unknown e.1) start
  | .array items => (fields.zip items).foldlM (fun s e => e.1.set e.2 s) start
  | .datetime _ => unknown Toml.datetimeKey
  | v => .error (.invalidType v.words ("struct " ++ type))
where
  /-- A key that is none of the fields. -/
  unknown {α : Type} (key : String) : Except Defect α :=
    .error (.unknownField key (fields.map Field.name))

/-- The strategies that may be given. -/
def strategies : List (String × Strategy) :=
  [Strategy.joined, Strategy.selectIn].map fun s => (s.name, s)

/-- The databases that may be given. One of them has a second name. -/
def databases : List (String × Dialect) :=
  ("postgres", Dialect.postgresql) ::
    [Dialect.postgresql, Dialect.mysql, Dialect.sqlite].map fun d => (d.name, d)

/-- The fields of the section `loading`. -/
def loadingFields : List (Field LoadingConfig) :=
  [.of "eager_strategy" (Toml.toChoice strategies) fun a s => { s with eagerStrategy := a },
    .of "populate_strategy" (Toml.toChoice strategies) fun a s => { s with populateStrategy := a },
    .of "max_depth" Toml.toSize fun a s => { s with maxDepth := a },
    .of "batch_size" Toml.toSize fun a s => { s with batchSize := a },
    .of "max_concurrency" Toml.toSize fun a s => { s with maxConcurrency := a }]

/-- The fields of the section `sql`. -/
def sqlFields : List (Field SqlConfig) :=
  [.of "database" (Toml.toChoice databases) fun a s => { s with database := a },
    .of "max_identifier_length" Toml.toSize fun a s => { s with maxIdentifierLength := a },
    .of "max_alias_suffix" Toml.toCount fun a s => { s with maxAliasSuffix := a }]

/-- The fields of the section `debug`. -/
def debugFields : List (Field DebugConfig) :=
  [.of "log_plans" Toml.toBool fun a s => { s with logPlans := a },
    .of "log_statements" Toml.toBool fun a s => { s with logStatements := a }]

/-- The sections. -/
def sections : List (Field Config) :=
  [.of "loading" (ofSection "LoadingConfig" loadingFields {}) fun a c => { c with loading := a },
    .of "sql" (ofSection "SqlConfig" sqlFields {}) fun a c => { c with sql := a },
    .of "filters" Toml.toSwitches fun a c => { c with filters := a },
    .of "debug" (ofSection "DebugConfig" debugFields {}) fun a c => { c with debug := a }]

/-- The configuration that the entries of a document give. -/
def ofEntries (entries : Toml.Entries) : Except Defect Config :=
  ofSection "Config" sections {} (.table .header entries)

/-- Reads a configuration from a text in an environment and checks it. -/
def read (env : Environment) (text : String) : Except QueryError Config := do
  let decoded : Except Defect Config :=
    match Toml.read? (Placeholder.expand env text) with
    | none => .error .notToml
    | some entries => ofEntries entries
  let config ← decoded.mapError Defect.toError
  config.validate
  return config

/-- Reads a configuration from a file. The files are given by their texts or by why
    they cannot be read. -/
def load (files : String → Except String String) (env : Environment) (path : String) :
    Except QueryError Config :=
  match files path with
  | .ok text => read env text
  | .error reason => .error ((Fault.configurationIo path : QueryError).withSource reason)

end Config

end EntityFetch
