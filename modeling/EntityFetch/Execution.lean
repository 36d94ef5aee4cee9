import EntityFetch.Row
import EntityFetch.Statement

/-!
# Executing statements

An executor answers statements with rows or an error, or not at all. Whatever it
keeps or notes while it does so is its state. A fetch may be cancelled while it is
under way: from then on no statement is started, and one that is not answered
yet will not be waited for.
-/

namespace EntityFetch

/-- What comes back for a statement. -/
inductive Reply where
  | rows (rows : List Row)
  | failure (error : QueryError)
  /-- Nothing, until the fetch is cancelled. -/
  | silence

/-- Something that answers statements, with a state of its own. -/
structure Executor (σ : Type) where
  execute : Statement → σ → Reply × σ
  /-- Whether the fetch has been cancelled. -/
  isCancelled : σ → Bool

namespace Executor

variable {σ : Type}

/-- The rows for one statement, unless the fetch is cancelled. -/
def run (x : Executor σ) (s : Statement) (state : σ) : Except QueryError (List Row) × σ :=
  if x.isCancelled state then (.error Fault.cancelled, state)
  else
    match x.execute s state with
    | (.rows rows, state) => (.ok rows, state)
    | (.failure e, state) => (.error e, state)
    | (.silence, state) => (.error Fault.cancelled, state)

/-- The rows for some statements, each with a tag. The first error ends it. -/
def runAll {τ : Type} (x : Executor σ) :
    List (τ × Statement) → σ → Except QueryError (List (τ × List Row)) × σ
  | [], state => (.ok [], state)
  | (tag, s) :: rest, state =>
    match x.run s state with
    | (.error e, state) => (.error e, state)
    | (.ok rows, state) =>
      match x.runAll rest state with
      | (.error e, state) => (.error e, state)
      | (.ok results, state) => (.ok ((tag, rows) :: results), state)

end Executor

end EntityFetch
