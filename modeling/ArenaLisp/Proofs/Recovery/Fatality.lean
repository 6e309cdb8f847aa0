import ArenaLisp.Proofs.Discipline
import ArenaLisp.Proofs.EvaluatorSteps

namespace ArenaLisp

/-!
# Evaluations fail with fatal errors only

Where an evaluation meets a recoverable error it recovers it, and what a procedure fails
with is recovered by the call.  All else that can go wrong breaks the bookkeeping, or
memory has run out; so whatever the procedures do, no recoverable error leaves an
evaluation.
-/

/-- Whether a step fails with nothing but fatal errors, whatever the state. -/
def Transition.FailsFatally {State Result : Type} (step : Transition State Result) : Prop :=
  ∀ state error after, step state = (.error error, after) → error.isFatal = true

/-- Whether a run fails with nothing but fatal errors, whatever the machine. -/
def Run.FailsFatally {Result : Type} (run : Run Result) : Prop :=
  ∀ machine error after, run machine = some (.error error, after) → error.isFatal = true

namespace Transition.FailsFatally

variable {State First Result : Type}

theorem pure (result : Result) :
    FailsFatally (Pure.pure result : Transition State Result) := by
  rintro state error after ⟨⟩

theorem bind
    {step : Transition State First}
    {continuation : First → Transition State Result}
    (first : step.FailsFatally)
    (returned : ∀ value, (continuation value).FailsFatally) :
    (step >>= continuation).FailsFatally := by
  intro state error final failed
  rw [bind_apply] at failed
  cases step_eq : step state with
  | mk result after =>
      rw [step_eq] at failed
      cases result with
      | ok value =>
          exact returned value after error final failed
      | error error =>
          cases failed
          exact first state _ _ step_eq

theorem throw
    {error : Error}
    (fatal : error.isFatal = true) :
    FailsFatally (MonadExcept.throw error : Transition State Result) := by
  rintro state _ after ⟨⟩
  exact fatal

theorem get : FailsFatally (MonadState.get : Transition State State) := by
  rintro state error after ⟨⟩

theorem modify (change : State → State) :
    FailsFatally (modifyThe State change : Transition State PUnit) := by
  rintro state error after ⟨⟩

end Transition.FailsFatally

namespace Machine

open Transition.FailsFatally

theorem look_failsFatally (handle : Handle) : (look handle).FailsFatally := by
  intro machine error after failed
  rw [look, Transition.observe, object] at failed
  split at failed <;> cases failed
  rfl

theorem push_failsFatally (handle : Handle) : (push handle).FailsFatally :=
  .modify _

theorem pop_failsFatally : pop.FailsFatally := by
  intro machine error after failed
  rw [pop, onStack_apply, OperandStack.pop] at failed
  split at failed <;> cases failed
  rfl

theorem discard_failsFatally (count : Nat) : (discard count).FailsFatally := by
  intro machine error after failed
  rw [discard, onStack_apply, OperandStack.discard] at failed
  split at failed <;> cases failed
  rfl

theorem onHeap_failsFatally
    {Result : Type}
    {step : Transition Heap Result}
    (fails : step.FailsFatally) :
    (onHeap step).FailsFatally := by
  intro machine error after failed
  rw [onHeap_apply, Prod.mk.injEq] at failed
  exact fails machine.heap error _ (Prod.ext failed.1 rfl)

theorem free_failsFatally (handle : Handle) : (free handle).FailsFatally := by
  have releases : (Heap.release handle).FailsFatally := by
    intro heap error after failed
    rw [Heap.release] at failed
    split at failed <;> cases failed
    rfl
  refine get.bind fun machine => ?_
  split
  · exact (modify _).bind fun _ => (onHeap_failsFatally releases).bind fun _ => pure _
  · exact throw rfl

theorem freeAll_failsFatally (handles : List Handle) : (freeAll handles).FailsFatally := by
  induction handles with
  | nil =>
      exact pure _
  | cons handle handles inductionHypothesis =>
      have step : freeAll (handle :: handles) = free handle >>= fun _ => freeAll handles :=
        rfl
      rw [step]
      exact (free_failsFatally handle).bind fun _ => inductionHypothesis

theorem collect_failsFatally : collect.FailsFatally :=
  get.bind fun _ =>
    ((modify _).bind fun _ => get.bind fun _ => pure _).bind fun garbage =>
      (freeAll_failsFatally garbage).bind fun _ => (modify _).bind fun _ => pure _

theorem place_failsFatally (object : Object) : (place object).FailsFatally := by
  have places : (Heap.place object).FailsFatally := by
    intro heap error after failed
    rw [Heap.place] at failed
    split at failed <;> cases failed
    rfl
  exact (onHeap_failsFatally places).bind fun _ => (modify _).bind fun _ => pure _

theorem allocate_failsFatally (object : Object) : (allocate object).FailsFatally := by
  have reserves : reserve.FailsFatally := by
    refine get.bind fun _ => ?_
    split
    · exact collect_failsFatally.bind fun _ => pure _
    · exact pure _
  exact reserves.bind fun _ => place_failsFatally object

/-- A recoverable error is not what its own recovery fails with. -/
theorem recover_failsFatally (error : Error) : (recover error).FailsFatally := by
  intro machine failure after failed
  cases severity : error.isFatal with
  | true =>
      rw [recover_fatal severity] at failed
      cases failed
      exact severity
  | false =>
      rw [recover_recoverable severity] at failed
      exact allocate_failsFatally .void _ _ _ failed

end Machine

namespace Run.FailsFatally

open Machine

variable {First Result : Type}

theorem lift
    {action : Action Result}
    (fails : action.FailsFatally) :
    FailsFatally (liftM action : Run Result) := by
  intro machine error after failed
  rw [liftM_apply, Option.some.injEq] at failed
  exact fails machine error after failed

theorem pure (result : Result) : FailsFatally (Pure.pure result : Run Result) :=
  lift (.pure result)

theorem exhausted : FailsFatally (Run.exhausted : Run Result) := by
  rintro machine error after ⟨⟩

theorem bind
    {run : Run First}
    {continuation : First → Run Result}
    (first : run.FailsFatally)
    (returned : ∀ value, (continuation value).FailsFatally) :
    (run >>= continuation).FailsFatally := by
  intro machine error final failed
  rw [bind_apply] at failed
  split at failed
  · cases failed
  · exact returned _ _ _ _ failed
  · rename_i stepped
    cases failed
    exact first _ _ _ stepped

/-- Whatever a run fails with, the recovery of it fails with fatal errors only. -/
theorem recovering (run : Run Handle) :
    FailsFatally (tryCatch run fun error => liftM (recover error)) := by
  intro machine error final failed
  rw [tryCatch_apply] at failed
  split at failed
  · cases failed
  · cases failed
  · exact lift (recover_failsFatally _) _ _ _ failed

end Run.FailsFatally

/-- Whether an interpreter fails with nothing but fatal errors. -/
structure Evaluator.FailsFatally (evaluator : Evaluator) : Prop where
  evaluate : ∀ expression, (evaluator.evaluate expression).FailsFatally
  apply : ∀ callee given, (evaluator.apply callee given).FailsFatally

namespace Evaluator

open Machine Run.FailsFatally

variable {inner : Evaluator}

theorem evaluateSymbol_failsFatally (name : String) : (evaluateSymbol name).FailsFatally := by
  refine Transition.FailsFatally.get.bind fun machine => ?_
  split
  · exact .pure _
  · exact recover_failsFatally _

/-- The procedure itself may fail with any error. -/
theorem call_failsFatally
    (library : Library)
    (inner : Evaluator)
    (callee : Handle)
    (given : Nat) :
    (call library inner callee given).FailsFatally := by
  refine (lift (look_failsFatally callee)).bind fun object => ?_
  split
  · exact recovering _
  · exact (lift (discard_failsFatally given)).bind fun _ => lift (recover_failsFatally _)

section Interpreter

variable (evaluates : ∀ expression, (inner.evaluate expression).FailsFatally)

include evaluates

theorem pushOperands_failsFatally
    (evaluatesOperands : Bool)
    (limit : Nat)
    (chain : Handle)
    (count : Nat) :
    (inner.pushOperands evaluatesOperands limit chain count).FailsFatally := by
  induction limit generalizing chain count with
  | zero =>
      exact .exhausted
  | succ limit inductionHypothesis =>
      have goesOn
          (rest operand : Handle) :
          (inner.pushAndGoOn evaluatesOperands limit rest count operand).FailsFatally :=
        (lift (push_failsFatally operand)).bind fun _ => inductionHypothesis rest (count + 1)
      refine (lift (look_failsFatally chain)).bind fun cell => ?_
      split
      · cases evaluatesOperands with
        | true =>
            exact (evaluates _).bind (goesOn _)
        | false =>
            exact goesOn _ _
      · exact pure _

theorem evaluatePair_failsFatally
    (library : Library)
    (limit : Nat)
    (pair car cdr : Handle) :
    (evaluatePair library inner limit pair car cdr).FailsFatally := by
  refine (evaluates car).bind fun head => (lift (look_failsFatally head)).bind fun object => ?_
  split
  · exact pure pair
  · refine (lift (push_failsFatally head)).bind fun _ =>
      (pushOperands_failsFatally evaluates _ limit cdr 0).bind fun walk => ?_
    split
    · exact (lift (discard_failsFatally _)).bind fun _ => lift (recover_failsFatally _)
    · exact (call_failsFatally library inner head _).bind fun value =>
        (lift pop_failsFatally).bind fun _ => pure value

theorem evaluateObject_failsFatally
    (library : Library)
    (limit : Nat)
    (expression : Handle) :
    (evaluateObject library inner limit expression).FailsFatally := by
  have notes : (note (.evaluating expression)).FailsFatally :=
    .modify _
  refine (lift notes).bind fun _ =>
    (lift (look_failsFatally expression)).bind fun object => ?_
  split
  · exact lift (evaluateSymbol_failsFatally _)
  · exact evaluatePair_failsFatally evaluates library limit expression _ _
  · exact pure expression

end Interpreter

end Evaluator

theorem evaluator_failsFatally
    (library : Library)
    (limit : Nat) :
    (evaluator library limit).FailsFatally := by
  induction limit with
  | zero =>
      exact ⟨fun _ => .exhausted, fun _ _ => .exhausted⟩
  | succ limit inductionHypothesis =>
      exact ⟨Evaluator.evaluateObject_failsFatally inductionHypothesis.evaluate library limit,
        Evaluator.call_failsFatally library (evaluator library limit)⟩

namespace Machine

open Run.FailsFatally

theorem evaluateTopLevel_failsFatally
    {evaluator : Evaluator}
    (fails : evaluator.FailsFatally)
    (expression : Handle) :
    (evaluateTopLevel evaluator expression).FailsFatally := by
  have sizes : stackSize.FailsFatally :=
    Transition.FailsFatally.get.bind fun _ => .pure _
  have takes
      (value : Handle) :
      Run.FailsFatally (do
        let _ ← pop
        return value) :=
    (lift pop_failsFatally).bind fun _ => pure value
  refine (lift (push_failsFatally expression)).bind fun _ => (lift sizes).bind fun expected =>
    (fails.evaluate expression).bind fun value => (lift sizes).bind fun entries => ?_
  split
  · exact Run.FailsFatally.bind (lift (.throw rfl)) fun _ => takes value
  · exact takes value

end Machine

end ArenaLisp
