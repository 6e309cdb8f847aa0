import ArenaLisp.Proofs.Recovery.Conduct

namespace ArenaLisp

/-!
# The interpreter with an account of its errors

The interpreter once more, step for step, with two lists beside the machine: the
recoverable errors as they are raised, and the same as they are handed over to be
recovered.  An error is raised where a symbol has no binding, a chain of operands is
malformed, an object cannot be called, or an operation answers with an error.
-/

/-- A recoverable error that was handed over, and the machine as it was then. -/
structure Incident where
  error : Error
  machine : Machine

/-- A machine with the errors on its account, the oldest first. -/
structure Ledger where
  machine : Machine
  raised : List Error
  handed : List Incident

/-- A run that keeps an account of its errors. -/
abbrev Recorded : Type → Type :=
  ExceptT Error (StateT Ledger Option)

namespace Recorded

variable {First Result : Type}

/-- The run that has met its nesting limit. -/
def exhausted : Recorded Result :=
  fun _ => none

/-- A step of the machine, of which the account takes no notice. -/
def ofAction (action : Action Result) : Recorded Result :=
  fun ledger =>
    some ((action ledger.machine).1, { ledger with machine := (action ledger.machine).2 })

instance : MonadLift Action Recorded where
  monadLift := ofAction

/-- The run that answers with what another run returns or fails with. -/
def attempt (run : Recorded Result) : Recorded (Except Error Result) :=
  fun ledger => (run ledger).map fun (result, after) => (.ok result, after)

/-- Enters an error as raised if it is recoverable. -/
def raise (error : Error) : Recorded Unit :=
  fun ledger =>
    some (.ok (),
      if error.isFatal then ledger else { ledger with raised := ledger.raised ++ [error] })

/-- Hands an error over to be recovered, and enters that if it is recoverable. -/
def hand (error : Error) : Recorded Handle :=
  fun ledger =>
    ofAction (Machine.recover error)
      (if error.isFatal then ledger
        else { ledger with handed := ledger.handed ++ [⟨error, ledger.machine⟩] })

/-- Raises an error and hands it over at once. -/
def fail (error : Error) : Recorded Handle := do
  raise error
  hand error

theorem bind_apply
    (run : Recorded First)
    (continuation : First → Recorded Result)
    (ledger : Ledger) :
    (run >>= continuation) ledger =
      match run ledger with
      | none => none
      | some (.ok result, after) => continuation result after
      | some (.error error, after) => some (.error error, after) := by
  change ExceptT.bind run continuation ledger = _
  simp only [ExceptT.bind, ExceptT.mk, bind, StateT.bind, ExceptT.bindCont]
  rcases run ledger with _ | ⟨result, after⟩
  · rfl
  · cases result <;> rfl

theorem tryCatch_apply
    (run : Recorded Result)
    (handler : Error → Recorded Result)
    (ledger : Ledger) :
    (tryCatch run handler) ledger =
      match run ledger with
      | none => none
      | some (.ok result, after) => some (.ok result, after)
      | some (.error error, after) => handler error after := by
  change ExceptT.tryCatch run handler ledger = _
  simp only [ExceptT.tryCatch, ExceptT.mk, bind, StateT.bind]
  rcases run ledger with _ | ⟨result, after⟩
  · rfl
  · cases result <;> rfl

end Recorded

/-- An interpreter that keeps an account. -/
structure RecordedEvaluator where
  evaluate : Handle → Recorded Handle
  apply : Handle → Nat → Recorded Handle

/-- The run of an operation, which raises the error that it answers with. -/
def Conduct.record (evaluator : RecordedEvaluator) : Conduct → Recorded Handle
  | .answer (.ok value) => pure value
  | .answer (.error error) => do
      Recorded.raise error
      throw error
  | .act change next => fun ledger =>
      (next ledger.machine).record evaluator { ledger with machine := change ledger.machine }
  | .evaluate expression next =>
      (evaluator.evaluate expression).attempt >>= fun result => (next result).record evaluator
  | .apply callee given next =>
      (evaluator.apply callee given).attempt >>= fun result => (next result).record evaluator
  | .diverge => Recorded.exhausted

namespace RecordedEvaluator

/-- The interpreter whose nesting limit is met already. -/
def exhausted : RecordedEvaluator where
  evaluate _ := Recorded.exhausted
  apply _ _ := Recorded.exhausted

def evaluateSymbol (name : String) : Recorded Handle := do
  let machine ← (get : Action Machine)
  match machine.environment.get? name with
  | some value => return value
  | none => Recorded.fail (.unboundVariable name)

def pushOperands
    (inner : RecordedEvaluator)
    (evaluatesOperands : Bool) :
    (limit : Nat) → (chain : Handle) → (count : Nat) → Recorded OperandWalk
  | 0, _, _ => Recorded.exhausted
  | limit + 1, chain, count => do
      let cell ← Machine.look chain
      match cell.children? with
      | some (car, cdr) =>
          let operand ← if evaluatesOperands then inner.evaluate car else pure car
          Machine.push operand
          inner.pushOperands evaluatesOperands limit cdr (count + 1)
      | none =>
          return if cell.isListEnd then .complete count else .malformed count

def call
    (customs : String → Nat → Conduct)
    (inner : RecordedEvaluator)
    (callee : Handle)
    (given : Nat) :
    Recorded Handle := do
  let object ← Machine.look callee
  match object.callable? with
  | some callable =>
      try
        (callable.operation.conduct customs given).record inner
      catch error =>
        Recorded.hand error
  | none =>
      let _ ← Machine.discard given
      Recorded.fail (object.unsupported "apply")

def evaluatePair
    (customs : String → Nat → Conduct)
    (inner : RecordedEvaluator)
    (limit : Nat)
    (pair car cdr : Handle) :
    Recorded Handle := do
  let head ← inner.evaluate car
  match (← Machine.look head).callable? with
  | none => return pair
  | some callable =>
      Machine.push head
      match ← inner.pushOperands callable.evaluatesOperands limit cdr 0 with
      | .malformed count =>
          let _ ← Machine.discard (count + 1)
          Recorded.fail .malformedList
      | .complete count =>
          let value ← call customs inner head count
          let _ ← Machine.pop
          return value

def evaluateObject
    (customs : String → Nat → Conduct)
    (inner : RecordedEvaluator)
    (limit : Nat)
    (expression : Handle) :
    Recorded Handle := do
  Machine.note (.evaluating expression)
  match ← Machine.look expression with
  | .symbol name => evaluateSymbol name
  | .pair car cdr => evaluatePair customs inner limit expression car cdr
  | _ => return expression

end RecordedEvaluator

/-- The interpreter with a nesting limit, and an account of its errors. -/
def recordedEvaluator (customs : String → Nat → Conduct) : (limit : Nat) → RecordedEvaluator
  | 0 => RecordedEvaluator.exhausted
  | limit + 1 =>
      { evaluate := fun expression =>
          RecordedEvaluator.evaluateObject customs (recordedEvaluator customs limit) limit
            expression
        apply := fun callee given =>
          RecordedEvaluator.call customs (recordedEvaluator customs limit) callee given }

/-- What can be asked of an interpreter. -/
inductive Request where
  | evaluate (expression : Handle)
  | apply (callee : Handle) (given : Nat)
  | evaluateTopLevel (expression : Handle)

namespace Request

/-- What an interpreter does on request. -/
def run (evaluator : Evaluator) : Request → Run Handle
  | .evaluate expression => evaluator.evaluate expression
  | .apply callee given => evaluator.apply callee given
  | .evaluateTopLevel expression => Machine.evaluateTopLevel evaluator expression

/-- What an interpreter does on request, with an account of its errors. -/
def record (evaluator : RecordedEvaluator) : Request → Recorded Handle
  | .evaluate expression => evaluator.evaluate expression
  | .apply callee given => evaluator.apply callee given
  | .evaluateTopLevel expression => do
      Machine.push expression
      let expected ← Machine.stackSize
      let value ← evaluator.evaluate expression
      let entries ← Machine.stackSize
      if entries ≠ expected then
        throw (.internal (.unbalancedStack entries expected))
      let _ ← Machine.pop
      return value

end Request

end ArenaLisp
