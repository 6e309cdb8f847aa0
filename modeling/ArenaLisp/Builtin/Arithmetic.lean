import ArenaLisp.Builtin.Basic
import ArenaLisp.Machine.Recovery

namespace ArenaLisp

/-!
# Arithmetic, comparison and the parts of pairs

Integers wrap around at 64 bits.  All operands are taken off the stack before
any of them is looked at, so an operand of the wrong kind leaves no operand
behind.  The entry taken first is the last operand.
-/

namespace Builtin

/-- Takes the operands off the stack and fails, unless their number is the expected one. -/
def requireArity (builtin : Builtin) (expected given : Nat) : Action Unit := do
  if given ≠ expected then
    let _ ← Machine.discard given
    throw (.arityMismatch builtin.name (toString expected) given)

/-- The integers that handles name, in their order. -/
def lookIntegers (handles : List Handle) : Action (List Int64) :=
  handles.mapM Machine.lookInteger

/-- The sum of a list of integers. -/
def sum (values : List Int64) : Int64 :=
  values.foldl (· + ·) 0

/-- The product of a list of integers. -/
def product (values : List Int64) : Int64 :=
  values.foldl (· * ·) 1

/-- The first integer without the others, or its negation if there are none. -/
def difference (first : Int64) (others : List Int64) : Int64 :=
  if others.isEmpty then
    -first
  else
    first - sum others

/-- Replaces the operands by the handle of their sum, which is zero for none. -/
def addition (given : Nat) : Action Handle := do
  let values ← lookIntegers (← Machine.popMany given)
  Machine.allocate (.integer (sum values))

/-- Replaces the operands by the handle of their product, which is one for none. -/
def multiplication (given : Nat) : Action Handle := do
  let values ← lookIntegers (← Machine.popMany given)
  Machine.allocate (.integer (product values))

/-- Replaces the operands by the handle of the first one without the others. -/
def subtraction (given : Nat) : Action Handle := do
  if given = 0 then
    throw (.arityMismatch subtract.name "at least 1" 0)
  let otherHandles ← Machine.popMany (given - 1)
  let firstHandle ← Machine.pop
  let first ← Machine.lookInteger firstHandle
  let others ← lookIntegers otherHandles
  Machine.allocate (.integer (difference first others))

/-- Replaces two operands by the handle of the answer to a test of their values. -/
def comparison
    (builtin : Builtin)
    (test : Int64 → Int64 → Bool)
    (given : Nat) :
    Action Handle := do
  requireArity builtin 2 given
  let rightHandle ← Machine.pop
  let leftHandle ← Machine.pop
  let right ← Machine.lookInteger rightHandle
  let left ← Machine.lookInteger leftHandle
  Machine.allocate (.boolean (test left right))

/-- Replaces one operand by a handle that it holds. -/
def selection
    (builtin : Builtin)
    (part : Object → Except Error Handle)
    (given : Nat) :
    Action Handle := do
  requireArity builtin 1 given
  part (← Machine.look (← Machine.pop))

end Builtin

end ArenaLisp
