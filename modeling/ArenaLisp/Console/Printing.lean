import ArenaLisp.Session
import ArenaLisp.Terminal.Plain

namespace ArenaLisp

/-!
# Printing values and errors

The console writes the text of each value on a line of the standard output.
Errors go to the error output: recovered ones as records of the log, the one
that ends a text or the whole run as a line of its own.
-/

namespace Console

/-- A piece of what the console writes. -/
inductive Emission where
  /-- What stands before a line of a dialogue. -/
  | prompt (text : String)
  /-- The text of a value. -/
  | value (text : String)
  /-- A record of the log. -/
  | record (text : String)
  /-- The description of an error that ends a text or the run. -/
  | failure (text : String)
  deriving Repr, DecidableEq

namespace Emission

/-- What an emission adds to the standard output. -/
def output : Emission → String
  | .prompt text => text
  | .value text => text ++ "\n"
  | .record _ | .failure _ => ""

/-- What an emission adds to the error output; records lose their terminal control. -/
def errors : Emission → String
  | .prompt _ | .value _ => ""
  | .record text => Terminal.plain (text ++ "\n")
  | .failure text => text ++ "\n"

end Emission

/-- The record of an event; collections are recorded only on request. -/
def record? (showCollections : Bool) : Event → Option Emission
  | .recovered error => some (.record ("ERROR " ++ error.message))
  | .collected summary =>
      if showCollections then
        some (.record ("DEBUG " ++ summary.message))
      else
        none
  | .placed _ | .bound _ _ | .evaluating _ => none

/-- The records of what happened on a machine, and the machine with its journal taken. -/
def takeLog (showCollections : Bool) (machine : Machine) : List Emission × Machine :=
  (machine.takeJournal.1.filterMap (record? showCollections), machine.takeJournal.2)

/-- The description of an error that ends the run. -/
def fatal (error : Error) : Emission :=
  .failure ("error: " ++ error.message)

/-- The description of an evaluation that met its nesting limit. -/
def tooDeep : Emission :=
  .failure "error: nesting limit exceeded"

/-- The exit status of a run that ends early. -/
def failureStatus : Nat := 1

/-- How a text was left: with a machine for further texts, or with an exit status. -/
inductive Outcome where
  | ready (machine : Machine)
  | ended (status : Nat)
  deriving Repr, DecidableEq

/--
Evaluates what is left to a reader and prints the values.  A text that cannot be
read to its end is given up there; any fatal error ends the run.
-/
def printRest
    (showCollections : Bool)
    (evaluator : Evaluator)
    (reader : Reader)
    (machine : Machine) :
    List Emission × Outcome :=
  match _ : reader.read machine with
  | ((.error error, _), afterReading) =>
      let logged := takeLog showCollections afterReading
      if error.isFatal then
        (logged.1 ++ [fatal error], .ended failureStatus)
      else
        (logged.1 ++ [.failure error.message], .ready logged.2)
  | ((.ok none, _), afterReading) => ([], .ready afterReading)
  | ((.ok (some expression), remaining), afterReading) =>
      match Machine.evaluateTopLevel evaluator expression afterReading with
      | none => ([tooDeep], .ended failureStatus)
      | some (.error error, after) =>
          ((takeLog showCollections after).1 ++ [fatal error], .ended failureStatus)
      | some (.ok value, after) =>
          let logged := takeLog showCollections after
          let later :=
            printRest showCollections evaluator remaining logged.2.takeDiagnostics.2
          (logged.1 ++ .value (after.heap.render value) :: later.1, later.2)
termination_by reader.text.length
decreasing_by exact Reader.length_lt_of_read ‹_›

/-- Evaluates every expression of a text and prints the values. -/
def printText
    (showCollections : Bool)
    (evaluator : Evaluator)
    (text : String)
    (machine : Machine) :
    List Emission × Outcome :=
  printRest showCollections evaluator (Reader.ofString text) machine

end Console

end ArenaLisp
