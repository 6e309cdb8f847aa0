import ArenaLisp.Builtin.Arithmetic
import ArenaLisp.Evaluation.Run

namespace ArenaLisp

/-!
# The conditional, the definition, and the procedures of all builtin operations

The two special forms evaluate operands themselves.  Until they have finished
with that, all their operands stay on the operand stack, where a collection
finds them.
-/

namespace Builtin

/-- Evaluates a condition and then the one of two expressions that it selects. -/
def conditionalForm (evaluator : Evaluator) (given : Nat) : Run Handle := do
  requireArity conditional 3 given
  let otherwise ← Machine.peek 0
  let consequent ← Machine.peek 1
  let condition ← Machine.peek 2
  let outcome ← evaluator.evaluate condition
  let selected := if (← Machine.look outcome).isTruthy then consequent else otherwise
  let value ← evaluator.evaluate selected
  let _ ← Machine.discard 3
  return value

/--
Binds a name to an expression as it stands or, on a machine with eager
definitions, to the value of the expression.
-/
def definitionForm (evaluator : Evaluator) (given : Nat) : Run Handle := do
  requireArity definition 2 given
  let expression ← Machine.peek 0
  let nameExpression ← Machine.peek 1
  match (← Machine.look nameExpression).symbolName with
  | .error error =>
      let _ ← Machine.discard 2
      throw error
  | .ok name =>
      let value ←
        if (← get).eagerDefinitions then
          evaluator.evaluate expression
        else
          pure expression
      Machine.bindName name value
      let _ ← Machine.discard 2
      Machine.allocate .void

/-- The procedure of a builtin operation. -/
def procedure : Builtin → Procedure
  | .add, _, given => addition given
  | .subtract, _, given => subtraction given
  | .multiply, _, given => multiplication given
  | .equal, _, given => comparison .equal (fun left right => left == right) given
  | .less, _, given => comparison .less (fun left right => left < right) given
  | .greater, _, given => comparison .greater (fun left right => left > right) given
  | .car, _, given => selection .car Object.car given
  | .cdr, _, given => selection .cdr Object.cdr given
  | .conditional, evaluator, given => conditionalForm evaluator given
  | .definition, evaluator, given => definitionForm evaluator given

end Builtin

/-- The procedure of an operation; custom ones are looked up in the library. -/
def Operation.procedure (library : Library) : Operation → Procedure
  | .builtin operation => operation.procedure
  | .custom key => library key

end ArenaLisp
