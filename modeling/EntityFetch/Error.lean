import EntityFetch.Text.Split

/-!
# Errors

Whatever goes wrong in planning or running a fetch has one cause, a `Fault`. The
fault settles the code and the message of the error. Where the error arises and
on its way out the circumstances are added to it: what was being done, for which
entity and relation, with which SQL, and what one may do about it. The full text
of an error (`QueryError.report`) tells all of that.
-/

namespace EntityFetch

/-- The kinds of errors. -/
inductive ErrorCode where
  | unknownEntity
  | unknownRelation
  | unknownColumn
  | invalidFilter
  | duplicateDefinition
  | invalidPopulate
  | planCompilation
  | aliasCollision
  | nestingTooDeep
  | executionFailed
  | cancelled
  | missingColumn
  | invalidConfiguration
  | configurationIo
  | internal
deriving DecidableEq, Repr

namespace ErrorCode

/-- The number of a kind. Its first digit tells the stage: metadata (1), planning
    (2), execution (5), data (6), configuration (7), anything else (9). -/
def number : ErrorCode → Nat
  | unknownEntity => 1001
  | unknownRelation => 1002
  | unknownColumn => 1003
  | invalidFilter => 1004
  | duplicateDefinition => 1005
  | invalidPopulate => 1006
  | planCompilation => 2001
  | aliasCollision => 2002
  | nestingTooDeep => 2003
  | executionFailed => 5001
  | cancelled => 5003
  | missingColumn => 6001
  | invalidConfiguration => 7001
  | configurationIo => 7002
  | internal => 9001

/-- All kinds, in the order of their numbers. -/
def all : List ErrorCode :=
  [unknownEntity, unknownRelation, unknownColumn, invalidFilter, duplicateDefinition,
    invalidPopulate, planCompilation, aliasCollision, nestingTooDeep, executionFailed,
    cancelled, missingColumn, invalidConfiguration, configurationIo, internal]

/-- The kind with a number. -/
def ofNumber? (n : Nat) : Option ErrorCode :=
  all.find? (·.number == n)

/-- The code that errors of a kind show. -/
def text (c : ErrorCode) : String :=
  "P" ++ c.number.repr

/-- A few words on a kind. -/
def description : ErrorCode → String
  | unknownEntity => "Unknown entity"
  | unknownRelation => "Unknown relation"
  | unknownColumn => "Unknown column"
  | invalidFilter => "Invalid filter"
  | duplicateDefinition => "Duplicate definition"
  | invalidPopulate => "Invalid populate path"
  | planCompilation => "Plan compilation failed"
  | aliasCollision => "Alias collision"
  | nestingTooDeep => "Relation nesting too deep"
  | executionFailed => "Statement execution failed"
  | cancelled => "Fetch cancelled"
  | missingColumn => "Missing column in result row"
  | invalidConfiguration => "Invalid configuration"
  | configurationIo => "Configuration file unreadable"
  | internal => "Internal error"

/-- Where to read about a kind. -/
def docsUrl (c : ErrorCode) : String :=
  "https://prax.rs/docs/errors/" ++ c.text

end ErrorCode

/-- The cause of an error. -/
inductive Fault where
  | unknownEntity (entity : String)
  /-- The entity has relations of the names `known` only. -/
  | unknownRelation (entity relation : String) (known : List String)
  | unknownColumn (entity column : String)
  | invalidFilter (entity reason : String)
  /-- Two definitions of a kind share a name. -/
  | duplicate (kind name : String)
  | invalidPopulate (path : String)
  | planCompilation (reason : String)
  /-- No alias is left for a base, after so many suffixes. -/
  | aliasCollision (base : String) (suffixes : Nat)
  | nestingTooDeep (path : String) (maxDepth : Nat)
  | execution (reason : String)
  | cancelled
  | missingColumn (aliasName column : String)
  | invalidConfiguration (reason : String)
  | configurationIo (path : String)
  | internal (reason : String)
  /-- Any other cause of a kind, in words of its own. -/
  | other (code : ErrorCode) (message : String)
deriving DecidableEq, Repr

namespace Fault

/-- The kind of error to which a cause leads. -/
def code : Fault → ErrorCode
  | unknownEntity _ => .unknownEntity
  | unknownRelation _ _ _ => .unknownRelation
  | unknownColumn _ _ => .unknownColumn
  | invalidFilter _ _ => .invalidFilter
  | duplicate _ _ => .duplicateDefinition
  | invalidPopulate _ => .invalidPopulate
  | planCompilation _ => .planCompilation
  | aliasCollision _ _ => .aliasCollision
  | nestingTooDeep _ _ => .nestingTooDeep
  | execution _ => .executionFailed
  | cancelled => .cancelled
  | missingColumn _ _ => .missingColumn
  | invalidConfiguration _ => .invalidConfiguration
  | configurationIo _ => .configurationIo
  | internal _ => .internal
  | other code _ => code

/-- The message of an error. -/
def message : Fault → String
  | unknownEntity e => "Entity '" ++ e ++ "' is not registered"
  | unknownRelation e r _ => "Entity '" ++ e ++ "' has no relation named '" ++ r ++ "'"
  | unknownColumn e c => "Entity '" ++ e ++ "' has no column '" ++ c ++ "'"
  | invalidFilter e reason => "Invalid filter on '" ++ e ++ "': " ++ reason
  | duplicate kind name => kind ++ " '" ++ name ++ "' is registered more than once"
  | invalidPopulate p => "Populate path '" ++ p ++ "' is malformed"
  | planCompilation reason => "Plan compilation failed: " ++ reason
  | aliasCollision base n =>
    "Alias '" ++ base ++ "' collides and could not be resolved after " ++ n.repr ++ " suffixes"
  | nestingTooDeep p d =>
    "Relation path '" ++ p ++ "' exceeds the maximum nesting depth of " ++ d.repr
  | execution reason => "Statement execution failed: " ++ reason
  | cancelled => "Fetch was cancelled before it completed"
  | missingColumn a c => "Result row has no value for '" ++ a ++ "." ++ c ++ "'"
  | invalidConfiguration reason => "Invalid configuration: " ++ reason
  | configurationIo p => "Failed to read configuration file '" ++ p ++ "'"
  | internal reason => "Internal error: " ++ reason
  | other _ message => message

end Fault

/-- A way out of an error. -/
structure Suggestion where
  text : String
  /-- An example in code. -/
  code : Option String := none
deriving DecidableEq, Repr

/-- The circumstances of an error. -/
structure ErrorContext where
  /-- What was being done. -/
  operation : Option String := none
  entity : Option String := none
  /-- The relation, by name or by path. -/
  relation : Option String := none
  sql : Option String := none
  suggestions : List Suggestion := []
  help : Option String := none
deriving DecidableEq, Repr

/-- The circumstances that a cause brings with it. -/
def Fault.context : Fault → ErrorContext
  | unknownEntity e =>
    { entity := some e
      suggestions :=
        [{ text := "Register '" ++ e ++ "' with MetadataRegistry::builder() before fetching" }] }
  | unknownRelation e r known =>
    { entity := some e
      relation := some r
      suggestions :=
        if known.isEmpty then []
        else [{ text := "Declared relations: " ++ ", ".intercalate known }] }
  | unknownColumn e _ =>
    { entity := some e
      suggestions :=
        [{ text := "Column names are matched exactly against the registered column list" }] }
  | invalidFilter e _ => { entity := some e }
  | invalidPopulate p =>
    { relation := some p
      suggestions :=
        [{ text := "Use dotted relation names", code := some "populate(\"account.owner\")" }] }
  | aliasCollision _ _ =>
    { suggestions := [{ text := "Raise sql.max_alias_suffix or sql.max_identifier_length" }] }
  | nestingTooDeep p _ =>
    { relation := some p
      suggestions := [{ text := "Raise loading.max_depth or populate a shorter path" }] }
  | execution _ => { suggestions := [{ text := "Check the database logs for more details" }] }
  | cancelled => { help := some "Partially fetched relations are discarded" }
  | missingColumn _ _ =>
    { help := some
        "Executors must return every selected column, using NULL for unmatched joins" }
  | internal _ =>
    { help := some <| "This is likely a bug in Prax - please report it at " ++
        "https://github.com/pegasusheavy/prax/issues" }
  | _ => {}

/-- An error: its cause and its circumstances. -/
structure QueryError where
  fault : Fault
  context : ErrorContext := fault.context
  /-- The text of the error behind this one. -/
  source : Option String := none
deriving DecidableEq, Repr

namespace QueryError

/-- The kind of an error. -/
def code (e : QueryError) : ErrorCode :=
  e.fault.code

/-- The message of an error. -/
def message (e : QueryError) : String :=
  e.fault.message

/-! ### Circumstances -/

/-- The error while something was being done. -/
def withOperation (e : QueryError) (operation : String) : QueryError :=
  { e with context := { e.context with operation := some operation } }

/-- The error on an entity. -/
def withEntity (e : QueryError) (entity : String) : QueryError :=
  { e with context := { e.context with entity := some entity } }

/-- The error on a relation. -/
def withRelation (e : QueryError) (relation : String) : QueryError :=
  { e with context := { e.context with relation := some relation } }

/-- The error in a statement. -/
def withSql (e : QueryError) (sql : String) : QueryError :=
  { e with context := { e.context with sql := some sql } }

/-- The error with one more suggestion. -/
def withSuggestion (e : QueryError) (s : Suggestion) : QueryError :=
  { e with context := { e.context with suggestions := e.context.suggestions ++ [s] } }

/-- The error with a help text. -/
def withHelp (e : QueryError) (help : String) : QueryError :=
  { e with context := { e.context with help := some help } }

/-- The error behind which there is another. -/
def withSource (e : QueryError) (source : String) : QueryError :=
  { e with source := some source }

/-! ### Kinds -/

/-- Whether a relation was not known. -/
def isUnknownRelation (e : QueryError) : Bool :=
  e.code = .unknownRelation

/-- Whether a plan could not be made or compiled. -/
def isPlanCompilation (e : QueryError) : Bool :=
  e.code = .planCompilation || e.code = .aliasCollision || e.code = .nestingTooDeep

/-- Whether the execution of a statement failed. -/
def isExecution (e : QueryError) : Bool :=
  e.code = .executionFailed

/-- Whether the fetch was cancelled. -/
def isCancelled (e : QueryError) : Bool :=
  e.code = .cancelled

/-- Whether the error arises before any statement can run. -/
def isPreExecution (e : QueryError) : Bool :=
  e.code.number < 5000

/-! ### Texts -/

/-- The code and the message. -/
def text (e : QueryError) : String :=
  "[" ++ e.code.text ++ "] " ++ e.message

/-- The greatest number of characters of a statement that is shown. -/
def sqlLimit : Nat := 200

/-- A statement, cut short if it is too long. -/
def shownSql (sql : String) : String :=
  if sqlLimit < sql.length then Text.truncate sqlLimit sql ++ "..." else sql

/-- A line on a circumstance, if it is known. -/
def contextLine (title : String) : Option String → String
  | some s => "  → " ++ title ++ ": " ++ s ++ "\n"
  | none => ""

/-- The suggestions, numbered from `n`, each with its code in a block. -/
def suggestionLines (n : Nat) : List Suggestion → String
  | [] => ""
  | s :: ss =>
    let block :=
      match s.code with
      | some code =>
        "     ```\n     " ++ Text.replaceChar '\n' "\n     " code ++ "\n     ```\n"
      | none => ""
    "  " ++ n.repr ++ ". " ++ s.text ++ "\n" ++ block ++ suggestionLines (n + 1) ss

/-- The full text: the message, the circumstances, what to do and where to read
    more. -/
def report (e : QueryError) : String :=
  let c := e.context
  let suggestions :=
    if c.suggestions.isEmpty then "" else "\nSuggestions:\n" ++ suggestionLines 1 c.suggestions
  let help :=
    match c.help with
    | some h => "\nHelp: " ++ h ++ "\n"
    | none => ""
  "Error [" ++ e.code.text ++ "]: " ++ e.message ++ "\n" ++
    contextLine "While" c.operation ++ contextLine "Entity" c.entity ++
    contextLine "Relation" c.relation ++ contextLine "SQL" (c.sql.map shownSql) ++
    suggestions ++ help ++ "\nMore info: " ++ e.code.docsUrl ++ "\n"

end QueryError

/-- An error with nothing but its cause and what that brings with it. -/
instance : Coe Fault QueryError := ⟨fun fault => { fault }⟩

end EntityFetch
