import ArenaLisp.Builtin.Form
import ArenaLisp.Proofs.Steps

namespace ArenaLisp

/-!
# The special forms, case by case

What a special form does once its operands are found on the stack: which
expressions it evaluates, and what it does with their values.
-/

namespace Builtin

open Machine

variable {machine : Machine}

/-- Binds a name, takes the two operands of the definition, and answers with a void. -/
def concludeDefinition (name : String) (value : Handle) : Action Handle := do
  bindName name value
  let _ ← discard 2
  allocate .void

/-- Evaluates the branch that the value of a condition selects, and takes the operands. -/
def concludeConditional
    (evaluator : Evaluator)
    (consequent otherwise outcome : Handle) :
    Run Handle := do
  let selected := if (← Machine.look outcome).isTruthy then consequent else otherwise
  let value ← evaluator.evaluate selected
  let _ ← Machine.discard 3
  return value

theorem symbolName_unsupported
    {object : Object}
    {error : Error}
    (refused : object.symbolName = .error error) :
    ∃ request kind, error = .unsupported request kind := by
  cases object <;> simp only [Object.symbolName, Except.error.injEq, reduceCtorEq] at refused <;>
    exact ⟨_, _, refused.symm⟩

theorem symbolName_recoverable
    {object : Object}
    {error : Error}
    (refused : object.symbolName = .error error) :
    error.isFatal = false := by
  obtain ⟨request, kind, rfl⟩ := symbolName_unsupported refused
  rfl

section

variable
  {below : List Handle}
  {taken : List Handle}

/-- A wrong number of operands is refused once they have been taken. -/
theorem requireArity_refused
    (builtin : Builtin)
    {expected : Nat}
    (entries : machine.stack.entries = taken ++ below)
    (mismatch : taken.length ≠ expected) :
    requireArity builtin expected taken.length machine =
      (.error (.arityMismatch builtin.name (toString expected) taken.length),
        machine.withEntries below) := by
  obtain ⟨last, discarded⟩ := discard_append entries
  simp only [requireArity, ne_eq, mismatch, not_false_eq_true, ↓reduceIte,
    Transition.bind_apply, discarded, Transition.throw_apply]

theorem requireArity_accepted
    (builtin : Builtin)
    (expected : Nat)
    (machine : Machine) :
    requireArity builtin expected expected machine = (.ok (), machine) := by
  simp only [requireArity, ne_eq, not_true_eq_false, ↓reduceIte, Transition.pure_apply]

theorem conditionalForm_refused
    (evaluator : Evaluator)
    (entries : machine.stack.entries = taken ++ below)
    (mismatch : taken.length ≠ 3) :
    conditionalForm evaluator taken.length machine =
      some (.error (.arityMismatch conditional.name "3" taken.length),
        machine.withEntries below) := by
  simp only [conditionalForm, Run.bind_apply, Run.liftM_apply,
    requireArity_refused conditional entries mismatch]
  rfl

theorem definitionForm_refused
    (evaluator : Evaluator)
    (entries : machine.stack.entries = taken ++ below)
    (mismatch : taken.length ≠ 2) :
    definitionForm evaluator taken.length machine =
      some (.error (.arityMismatch definition.name "2" taken.length),
        machine.withEntries below) := by
  simp only [definitionForm, Run.bind_apply, Run.liftM_apply,
    requireArity_refused definition entries mismatch]
  rfl

end

/-- The conclusion of a definition, step by step as a run. -/
theorem concludeDefinition_run
    (name : String)
    (value : Handle)
    (machine : Machine) :
    (do
        bindName name value
        let _ ← discard 2
        allocate .void : Run Handle) machine =
      some (concludeDefinition name value machine) := by
  simp only [concludeDefinition, Run.bind_apply, Run.liftM_apply, Transition.bind_apply]
  rcases bindName name value machine with ⟨_ | _, bound⟩
  · rfl
  · simp only
    rcases discard 2 bound with ⟨_ | _, discarded⟩ <;> rfl

/-- A definition binds its name before its operands leave the stack. -/
theorem concludeDefinition_eq
    {taken below : List Handle}
    (entries : machine.stack.entries = taken ++ below)
    (two : taken.length = 2)
    (name : String)
    (value : Handle) :
    concludeDefinition name value machine =
      allocate .void ((machine.binding name value).withEntries below) := by
  have boundEntries : (machine.binding name value).stack.entries = taken ++ below :=
    entries
  obtain ⟨last, discarded⟩ := discard_append boundEntries
  rw [two] at discarded
  simp only [concludeDefinition, Transition.bind_apply, bindName_eq, discarded]

/-- A conditional evaluates its condition, the lowest of its operands, first. -/
theorem conditionalForm_eq
    (evaluator : Evaluator)
    {otherwise consequent condition : Handle}
    {below : List Handle}
    (entries : machine.stack.entries = otherwise :: consequent :: condition :: below) :
    conditionalForm evaluator 3 machine =
      (evaluator.evaluate condition >>=
        concludeConditional evaluator consequent otherwise) machine := by
  have peekOtherwise : peek 0 machine = (.ok otherwise, machine) :=
    peek_found (by simp [entries])
  have peekConsequent : peek 1 machine = (.ok consequent, machine) :=
    peek_found (by simp [entries])
  have peekCondition : peek 2 machine = (.ok condition, machine) :=
    peek_found (by simp [entries])
  simp only [conditionalForm, concludeConditional, Run.bind_apply, Run.liftM_apply,
    requireArity_accepted, peekOtherwise, peekConsequent, peekCondition]

section

variable
  (evaluator : Evaluator)
  {expression nameExpression : Handle}
  {below : List Handle}
  {nameObject : Object}
  (entries : machine.stack.entries = expression :: nameExpression :: below)
  (nameFound : machine.heap.get? nameExpression = some nameObject)

include entries nameFound

/-- A definition whose first operand is no symbol is refused once both have been taken. -/
theorem definitionForm_unnamed
    {error : Error}
    (unnamed : nameObject.symbolName = .error error) :
    definitionForm evaluator 2 machine = some (.error error, machine.withEntries below) := by
  have peekExpression : peek 0 machine = (.ok expression, machine) :=
    peek_found (by simp [entries])
  have peekName : peek 1 machine = (.ok nameExpression, machine) :=
    peek_found (by simp [entries])
  obtain ⟨last, discarded⟩ :=
    @discard_append machine [expression, nameExpression] below entries
  rw [List.length_cons, List.length_singleton] at discarded
  simp only [definitionForm, Run.bind_apply, Run.liftM_apply, requireArity_accepted,
    peekExpression, peekName, look_found nameFound, unnamed, discarded, Run.throw_apply]

theorem definitionForm_lazy
    {name : String}
    (named : nameObject.symbolName = .ok name)
    (lazy : machine.eagerDefinitions = false) :
    definitionForm evaluator 2 machine =
      some (concludeDefinition name expression machine) := by
  have peekExpression : peek 0 machine = (.ok expression, machine) :=
    peek_found (by simp [entries])
  have peekName : peek 1 machine = (.ok nameExpression, machine) :=
    peek_found (by simp [entries])
  have getMachine : (get : Run Machine) machine = some (.ok machine, machine) :=
    rfl
  simp only [definitionForm, Run.bind_apply, Run.liftM_apply, requireArity_accepted,
    peekExpression, peekName, look_found nameFound, named, getMachine, lazy,
    Bool.false_eq_true, ↓reduceIte, Run.pure_apply]
  have concluded := concludeDefinition_run name expression machine
  simpa only [Run.bind_apply, Run.liftM_apply] using concluded

theorem definitionForm_eager
    {name : String}
    (named : nameObject.symbolName = .ok name)
    (eager : machine.eagerDefinitions = true) :
    definitionForm evaluator 2 machine =
      (evaluator.evaluate expression >>= fun value =>
        liftM (concludeDefinition name value)) machine := by
  have peekExpression : peek 0 machine = (.ok expression, machine) :=
    peek_found (by simp [entries])
  have peekName : peek 1 machine = (.ok nameExpression, machine) :=
    peek_found (by simp [entries])
  have getMachine : (get : Run Machine) machine = some (.ok machine, machine) :=
    rfl
  simp only [definitionForm, Run.bind_apply, Run.liftM_apply, requireArity_accepted,
    peekExpression, peekName, look_found nameFound, named, getMachine, eager, ↓reduceIte]
  cases evaluator.evaluate expression machine with
  | none =>
      rfl
  | some answer =>
      obtain ⟨result, after⟩ := answer
      cases result with
      | ok value =>
          have concluded := concludeDefinition_run name value after
          simpa only [Run.bind_apply, Run.liftM_apply] using concluded
      | error error =>
          rfl

end

end Builtin

end ArenaLisp
