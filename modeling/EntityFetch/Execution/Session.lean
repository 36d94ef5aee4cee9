import EntityFetch.Execution
import EntityFetch.Store

/-!
# Sessions on a store

A session answers statements from a store and keeps a log of them. To try out how
a fetch deals with a database that is not as it should be, a fetch can be
rehearsed: single statements then get other answers than those of the store, and
the fetch is cancelled at a given point.
-/

namespace EntityFetch

/-- What happens during one fetch besides what the store does. Statements are
    numbered by the order in which they are executed. -/
structure Rehearsal where
  /-- Answers that take the place of the store's, by number from 0. -/
  answers : List (Nat × Reply) := []
  /-- The number of statements after which the fetch is cancelled. -/
  cancelAfter : Option Nat := none
  /-- Whether the last of these statements is not answered. -/
  silent : Bool := false

/-- A store in use. -/
structure Session where
  store : Store := {}
  /-- The statements that were executed, the last one first. -/
  log : List Statement := []
  rehearsal : Rehearsal := {}
  /-- The number of statements of the fetch that were executed. -/
  count : Nat := 0

namespace Session

/-- The statements that were executed, in order. -/
def executed (s : Session) : List Statement :=
  s.log.reverse

/-- The session with an empty log. -/
def clearLog (s : Session) : Session :=
  { s with log := [] }

/-- The session at the start of a fetch. -/
def start (s : Session) (r : Rehearsal) : Session :=
  { s with rehearsal := r, count := 0 }

/-- The answer of the store. -/
def storeReply (s : Session) (statement : Statement) : Reply :=
  match s.store.answer statement with
  | .ok rows => .rows rows
  | .error e => .failure e

/-- The answer to a statement. -/
def reply (s : Session) (statement : Statement) : Reply :=
  if s.rehearsal.silent && s.rehearsal.cancelAfter == some (s.count + 1) then .silence
  else (s.rehearsal.answers.lookup s.count).getD (s.storeReply statement)

/-- Whether the program ends over a statement: the store reads all of its tables and cannot sort
    the rows, whatever is answered in its place. -/
def breaksOff (s : Session) (statement : Statement) : Bool :=
  !s.store.failing.any statement.tables.contains && s.store.breaksOff statement

/-- Answers statements from the store of a session. -/
def executor : Executor Session :=
  { execute := fun statement s =>
      (s.reply statement, { s with log := statement :: s.log, count := s.count + 1 })
    isCancelled := fun s => s.rehearsal.cancelAfter.any (· ≤ s.count) }

end Session

end EntityFetch
