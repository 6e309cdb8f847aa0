import ArenaLisp.Proofs.EvaluatorSteps

namespace ArenaLisp

/-!
# Walks that end as they please

The walk along the operands of a call ends at the first object that is no pair.  Here the
interpreter is told what to do there: it may go on as if the chain had been well formed,
refuse, or do anything else that a run can do.
-/

/-- What is done at the end of a chain with what stands there and the number of operands. -/
abbrev WalkEnding : Type :=
  Object → Nat → Run OperandWalk

/-- Whether nil ends a list as usual, whatever else may end one. -/
def WalkEnding.AcceptsNil (ending : WalkEnding) : Prop :=
  ∀ count, ending .nil count = pure (.complete count)

namespace Evaluator

/-- Pushes the operands of a chain of pairs, and at its end does as told. -/
def pushOperandsEnding
    (ending : WalkEnding)
    (inner : Evaluator)
    (evaluatesOperands : Bool) :
    (limit : Nat) → (chain : Handle) → (count : Nat) → Run OperandWalk
  | 0, _, _ => Run.exhausted
  | limit + 1, chain, count => do
      let cell ← Machine.look chain
      match cell.children? with
      | some (car, cdr) =>
          let operand ← inner.operand evaluatesOperands car
          Machine.push operand
          inner.pushOperandsEnding ending evaluatesOperands limit cdr (count + 1)
      | none => ending cell count

/-- The value of a pair whose head has a given value. -/
def concludeHeadEnding
    (ending : WalkEnding)
    (library : Library)
    (inner : Evaluator)
    (limit : Nat)
    (pair chain head : Handle) :
    Run Handle := do
  match (← Machine.look head).callable? with
  | none => return pair
  | some callable =>
      Machine.push head
      concludeWalk library inner head
        (← inner.pushOperandsEnding ending callable.evaluatesOperands limit chain 0)

/-- The value of the expression that a handle names. -/
def evaluateObjectEnding
    (ending : WalkEnding)
    (library : Library)
    (inner : Evaluator)
    (limit : Nat)
    (expression : Handle) :
    Run Handle := do
  Machine.note (.evaluating expression)
  match ← Machine.look expression with
  | .symbol name => evaluateSymbol name
  | .pair car cdr =>
      inner.concludeHeadEnding ending library limit expression cdr (← inner.evaluate car)
  | _ => return expression

end Evaluator

/-- The interpreter with a nesting limit that at the end of a chain does as told. -/
def evaluatorEnding (ending : WalkEnding) (library : Library) : (limit : Nat) → Evaluator
  | 0 => Evaluator.exhausted
  | limit + 1 =>
      { evaluate := fun expression =>
          Evaluator.evaluateObjectEnding ending library (evaluatorEnding ending library limit)
            limit expression
        apply := fun callee given =>
          Evaluator.call library (evaluatorEnding ending library limit) callee given }

namespace Evaluator

/-- An interpreter that ends its walks as usual is the usual one. -/
theorem pushOperandsEnding_usual
    (inner : Evaluator)
    (evaluatesOperands : Bool)
    (limit : Nat)
    (chain : Handle)
    (count : Nat) :
    inner.pushOperandsEnding (fun cell count => pure (walkEnd cell count)) evaluatesOperands
        limit chain count =
      inner.pushOperands evaluatesOperands limit chain count := by
  induction limit generalizing chain count with
  | zero =>
      rfl
  | succ limit inductionHypothesis =>
      simp only [pushOperandsEnding, pushOperands, inductionHypothesis]
      cases evaluatesOperands <;> rfl

theorem concludeHeadEnding_usual
    (library : Library)
    (inner : Evaluator)
    (limit : Nat)
    (pair chain head : Handle) :
    inner.concludeHeadEnding (fun cell count => pure (walkEnd cell count)) library limit pair
        chain head =
      concludeHead library inner limit pair chain head := by
  have sameWalk :
      pushOperandsEnding (fun cell count => pure (walkEnd cell count)) inner =
        inner.pushOperands := by
    funext evaluatesOperands limit chain count
    exact pushOperandsEnding_usual inner evaluatesOperands limit chain count
  rw [concludeHeadEnding, sameWalk]
  rfl

theorem evaluateObjectEnding_usual
    (library : Library)
    (inner : Evaluator)
    (limit : Nat)
    (expression : Handle) :
    inner.evaluateObjectEnding (fun cell count => pure (walkEnd cell count)) library limit
        expression =
      evaluateObject library inner limit expression := by
  simp only [evaluateObjectEnding, concludeHeadEnding_usual]
  rfl

end Evaluator

theorem evaluatorEnding_usual
    (library : Library)
    (limit : Nat) :
    evaluatorEnding (fun cell count => pure (Evaluator.walkEnd cell count)) library limit =
      evaluator library limit := by
  induction limit with
  | zero =>
      rfl
  | succ limit inductionHypothesis =>
      simp only [evaluatorEnding, evaluator, inductionHypothesis,
        Evaluator.evaluateObjectEnding_usual]

end ArenaLisp
