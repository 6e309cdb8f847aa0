import ArenaLisp.Builtin.Form

namespace ArenaLisp

/-!
# Evaluation

A symbol evaluates to what it is bound to.  A pair whose head evaluates to a
callable is a call; any other pair, and every other object, evaluates to itself.

During a call the callee lies on the operand stack below its operands.  Each
operand is on the stack before anything else is placed, so whatever a later
collection frees, it frees none of them.

`evaluator library limit` nests at most `limit` evaluations in each other and
takes at most `limit` steps along one chain of operands.
-/

/-- How the walk along a chain of operands ended; the count is of operands pushed. -/
inductive OperandWalk where
  | complete (count : Nat)
  | malformed (count : Nat)
  deriving Repr, DecidableEq

namespace Evaluator

/-- The value of a symbol: what it is bound to, or a fresh void. -/
def evaluateSymbol (name : String) : Action Handle := do
  match (← get).environment.get? name with
  | some value => return value
  | none => Machine.recover (.unboundVariable name)

/--
Pushes the operands of a chain of pairs, each one evaluated first if asked, and
counts on from a given number.
-/
def pushOperands
    (inner : Evaluator)
    (evaluatesOperands : Bool) :
    (limit : Nat) → (chain : Handle) → (count : Nat) → Run OperandWalk
  | 0, _, _ => Run.exhausted
  | limit + 1, chain, count => do
      let cell ← Machine.look chain
      match cell.children? with
      | some (car, cdr) =>
          let operand ← if evaluatesOperands then inner.evaluate car else pure car
          Machine.push operand
          inner.pushOperands evaluatesOperands limit cdr (count + 1)
      | none =>
          return if cell.isListEnd then .complete count else .malformed count

/--
Calls a callable with operands from the operand stack; an error of its
procedure is recovered.  Anything else takes the operands off the stack.
-/
def call
    (library : Library)
    (inner : Evaluator)
    (callee : Handle)
    (given : Nat) :
    Run Handle := do
  let object ← Machine.look callee
  match object.callable? with
  | some callable =>
      try
        callable.operation.procedure library inner given
      catch error =>
        Machine.recover error
  | none =>
      let _ ← Machine.discard given
      Machine.recover (object.unsupported "apply")

/-- The value of a pair: of the call that it makes, or the pair itself. -/
def evaluatePair
    (library : Library)
    (inner : Evaluator)
    (limit : Nat)
    (pair car cdr : Handle) :
    Run Handle := do
  let head ← inner.evaluate car
  match (← Machine.look head).callable? with
  | none => return pair
  | some callable =>
      Machine.push head
      match ← inner.pushOperands callable.evaluatesOperands limit cdr 0 with
      | .malformed count =>
          let _ ← Machine.discard (count + 1)
          Machine.recover .malformedList
      | .complete count =>
          let value ← call library inner head count
          let _ ← Machine.pop
          return value

/-- The value of the expression that a handle names. -/
def evaluateObject
    (library : Library)
    (inner : Evaluator)
    (limit : Nat)
    (expression : Handle) :
    Run Handle := do
  Machine.note (.evaluating expression)
  match ← Machine.look expression with
  | .symbol name => evaluateSymbol name
  | .pair car cdr => evaluatePair library inner limit expression car cdr
  | _ => return expression

end Evaluator

/-- The interpreter with a nesting limit. -/
def evaluator (library : Library) : (limit : Nat) → Evaluator
  | 0 => Evaluator.exhausted
  | limit + 1 =>
      { evaluate := fun expression =>
          Evaluator.evaluateObject library (evaluator library limit) limit expression
        apply := fun callee given =>
          Evaluator.call library (evaluator library limit) callee given }

namespace Machine

/-- The number of entries on the operand stack. -/
def stackSize : Action Nat := do
  return (← get).stack.size

/--
Evaluates an expression that lies nowhere else: it stays on the operand stack
until its value is known.  An evaluation that does not restore the number of
entries is an error.
-/
def evaluateTopLevel (evaluator : Evaluator) (expression : Handle) : Run Handle := do
  Machine.push expression
  let expected ← stackSize
  let value ← evaluator.evaluate expression
  let entries ← stackSize
  if entries ≠ expected then
    throw (.internal (.unbalancedStack entries expected))
  let _ ← Machine.pop
  return value

end Machine

end ArenaLisp
