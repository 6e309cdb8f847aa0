import ArenaLisp.Proofs.EvaluatorSteps
import ArenaLisp.Proofs.Plans.Operations

namespace ArenaLisp

/-!
# Plans of the interpreter

The interpreter of the builtin operations as a plan, level by level.  There is no plan of a
custom operation; a plan that meets one ends as a run does with no such operations.
-/

namespace Plan

open Machine

/-- The plan of an operation. -/
def operation (inner : Evaluation) (given : Nat) : Operation → Plan Handle
  | .builtin builtin => procedure inner given builtin
  | .custom key => throw (.internal (.other ("unknown operation " ++ key)))

def call (inner : Evaluation) (callee : Handle) (given : Nat) : Plan Handle := do
  let object ← look callee
  match object.callable? with
  | some callable => tryCatch (operation inner given callable.operation) recover
  | none =>
      let _ ← discard given
      recover (object.unsupported "apply")

def operand (inner : Evaluation) (evaluatesOperands : Bool) (expression : Handle) : Plan Handle :=
  if evaluatesOperands then inner expression else return expression

def pushOperands
    (inner : Evaluation)
    (evaluatesOperands : Bool) :
    (limit : Nat) → (chain : Handle) → (count : Nat) → Plan OperandWalk
  | 0, _, _ => exhausted
  | limit + 1, chain, count => do
      let cell ← look chain
      match cell.children? with
      | some (car, cdr) =>
          let operand ← operand inner evaluatesOperands car
          push operand
          pushOperands inner evaluatesOperands limit cdr (count + 1)
      | none => return Evaluator.walkEnd cell count

def concludeWalk (inner : Evaluation) (callee : Handle) : OperandWalk → Plan Handle
  | .malformed count => do
      let _ ← discard (count + 1)
      recover .malformedList
  | .complete count => do
      let value ← call inner callee count
      let _ ← pop
      return value

def concludeHead
    (inner : Evaluation)
    (limit : Nat)
    (pair chain head : Handle) :
    Plan Handle := do
  match (← look head).callable? with
  | none => return pair
  | some callable =>
      push head
      concludeWalk inner head (← pushOperands inner callable.evaluatesOperands limit chain 0)

def evaluateSymbol (name : String) : Plan Handle := do
  match (← current).environment.get? name with
  | some value => return value
  | none => recover (.unboundVariable name)

def evaluateObject (inner : Evaluation) (limit : Nat) (expression : Handle) : Plan Handle := do
  note (.evaluating expression)
  match ← look expression with
  | .symbol name => evaluateSymbol name
  | .pair car cdr => concludeHead inner limit expression cdr (← inner car)
  | _ => return expression

/-- The plan of the interpreter with a nesting limit. -/
def evaluate : (limit : Nat) → Evaluation
  | 0, _ => exhausted
  | limit + 1, expression => evaluateObject (evaluate limit) limit expression

@[simp] theorem run_evaluateSymbol (name : String) :
    (evaluateSymbol name).run = liftM (Evaluator.evaluateSymbol name) := by
  simp only [evaluateSymbol, run_bind, run_current, Evaluator.evaluateSymbol, Run.liftM_bind]
  refine bind_congr fun machine => ?_
  cases machine.environment.get? name with
  | none =>
      exact run_recover _
  | some value =>
      rfl

section

variable
  {inner : Evaluation}
  {evaluator : Evaluator}
  (follows : inner.Follows evaluator)

include follows

theorem run_operation
    (given : Nat)
    (operation : Operation) :
    (Plan.operation inner given operation).run =
      operation.procedure Library.empty evaluator given := by
  cases operation with
  | builtin builtin =>
      exact run_procedure follows builtin given
  | custom key =>
      rfl

theorem run_call
    (callee : Handle)
    (given : Nat) :
    (call inner callee given).run = Evaluator.call Library.empty evaluator callee given := by
  simp only [call, run_bind, run_look, Evaluator.call]
  refine bind_congr fun object => ?_
  cases object.callable? with
  | none =>
      simp only [run_bind, run_discard, run_recover]
  | some callable =>
      simp only [run_tryCatch, run_operation follows, run_recover]

theorem run_operand
    (evaluatesOperands : Bool)
    (expression : Handle) :
    (operand inner evaluatesOperands expression).run =
      evaluator.operand evaluatesOperands expression := by
  cases evaluatesOperands with
  | false =>
      rfl
  | true =>
      exact follows expression

theorem run_pushOperands
    (evaluatesOperands : Bool)
    (limit : Nat)
    (chain : Handle)
    (count : Nat) :
    (pushOperands inner evaluatesOperands limit chain count).run =
      evaluator.pushOperands evaluatesOperands limit chain count := by
  induction limit generalizing chain count with
  | zero =>
      rfl
  | succ limit inductionHypothesis =>
      simp only [pushOperands, run_bind, run_look, Evaluator.pushOperands]
      refine bind_congr fun cell => ?_
      cases cell.children? with
      | none =>
          rfl
      | some children =>
          simp only [run_bind, run_operand follows, run_push, inductionHypothesis]
          cases evaluatesOperands <;> rfl

theorem run_concludeWalk
    (callee : Handle)
    (walk : OperandWalk) :
    (concludeWalk inner callee walk).run =
      Evaluator.concludeWalk Library.empty evaluator callee walk := by
  cases walk <;>
    simp only [concludeWalk, run_bind, run_discard, run_recover, run_call follows, run_pop,
      run_pure, Evaluator.concludeWalk]

theorem run_concludeHead
    (limit : Nat)
    (pair chain head : Handle) :
    (concludeHead inner limit pair chain head).run =
      Evaluator.concludeHead Library.empty evaluator limit pair chain head := by
  simp only [concludeHead, run_bind, run_look, Evaluator.concludeHead]
  refine bind_congr fun object => ?_
  cases object.callable? with
  | none =>
      rfl
  | some callable =>
      simp only [run_bind, run_push, run_pushOperands follows, run_concludeWalk follows]

theorem run_evaluateObject
    (limit : Nat)
    (expression : Handle) :
    (evaluateObject inner limit expression).run =
      Evaluator.evaluateObject Library.empty evaluator limit expression := by
  simp only [evaluateObject, run_bind, run_note, run_look, Evaluator.evaluateObject]
  refine bind_congr fun _ => bind_congr fun object => ?_
  cases object with
  | symbol name =>
      exact run_evaluateSymbol name
  | pair car cdr =>
      simp only [run_bind, follows _, run_concludeHead follows, Evaluator.evaluatePair_eq]
  | nil | void | integer | boolean | function | specialForm =>
      rfl

end

/-- The interpreter does what its plan says. -/
theorem evaluate_follows (limit : Nat) :
    Evaluation.Follows (evaluate limit) (evaluator Library.empty limit) := by
  induction limit with
  | zero =>
      exact fun _ => rfl
  | succ limit inductionHypothesis =>
      exact run_evaluateObject inductionHypothesis limit

end Plan

end ArenaLisp
