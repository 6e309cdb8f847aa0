import ArenaLisp.Evaluation.Basic
import ArenaLisp.Proofs.Steps

namespace ArenaLisp

/-!
# The interpreter, case by case

What one level of the interpreter does, given what it finds in the slots that it
looks at.  Each case is a single evaluation or walk at the level below followed by a
named continuation.
-/

namespace Evaluator

open Machine

variable
  {library : Library}
  {inner : Evaluator}
  {machine : Machine}

/-- An operand as it is pushed: the value of its expression, or the expression as it is. -/
def operand (inner : Evaluator) (evaluatesOperands : Bool) (expression : Handle) : Run Handle :=
  if evaluatesOperands then inner.evaluate expression else pure expression

/-- Pushes an operand and goes on with the chain behind it. -/
def pushAndGoOn
    (inner : Evaluator)
    (evaluatesOperands : Bool)
    (limit : Nat)
    (rest : Handle)
    (count : Nat)
    (operand : Handle) :
    Run OperandWalk := do
  Machine.push operand
  inner.pushOperands evaluatesOperands limit rest (count + 1)

/-- How a walk ends that has met an object without children. -/
def walkEnd (cell : Object) (count : Nat) : OperandWalk :=
  if cell.isListEnd then .complete count else .malformed count

theorem walkEnd_counts
    (cell : Object)
    (count : Nat) :
    walkEnd cell count = .complete count ∨ walkEnd cell count = .malformed count := by
  unfold walkEnd
  split
  · exact .inl rfl
  · exact .inr rfl

/-- Calls a callee that lies below its operands, unless their chain was malformed. -/
def concludeWalk (library : Library) (inner : Evaluator) (callee : Handle) :
    OperandWalk → Run Handle
  | .malformed count => do
      let _ ← Machine.discard (count + 1)
      Machine.recover .malformedList
  | .complete count => do
      let value ← call library inner callee count
      let _ ← Machine.pop
      return value

/-- The value of a pair whose head has a given value. -/
def concludeHead
    (library : Library)
    (inner : Evaluator)
    (limit : Nat)
    (pair chain head : Handle) :
    Run Handle := do
  match (← Machine.look head).callable? with
  | none => return pair
  | some callable =>
      Machine.push head
      concludeWalk library inner head
        (← inner.pushOperands callable.evaluatesOperands limit chain 0)

theorem pushOperands_end
    (evaluatesOperands : Bool)
    (limit count : Nat)
    {chain : Handle}
    {cell : Object}
    (found : machine.heap.get? chain = some cell)
    (noPair : cell.children? = none) :
    inner.pushOperands evaluatesOperands (limit + 1) chain count machine =
      some (.ok (walkEnd cell count), machine) := by
  simp only [pushOperands, Run.bind_apply, Run.liftM_apply, look_found found, noPair,
    Run.pure_apply, walkEnd]

theorem pushOperands_pair
    (evaluatesOperands : Bool)
    (limit count : Nat)
    {chain car cdr : Handle}
    (found : machine.heap.get? chain = some (.pair car cdr)) :
    inner.pushOperands evaluatesOperands (limit + 1) chain count machine =
      (inner.operand evaluatesOperands car >>=
        inner.pushAndGoOn evaluatesOperands limit cdr count) machine := by
  cases evaluatesOperands <;>
    simp only [pushOperands, Run.bind_apply, Run.liftM_apply, look_found found, Object.children?,
      operand, pushAndGoOn, Bool.false_eq_true, ↓reduceIte]

theorem pushAndGoOn_eq
    (evaluatesOperands : Bool)
    (limit count : Nat)
    (rest operand : Handle)
    (machine : Machine) :
    inner.pushAndGoOn evaluatesOperands limit rest count operand machine =
      inner.pushOperands evaluatesOperands limit rest (count + 1)
        (machine.withEntries (operand :: machine.stack.entries)) := by
  simp only [pushAndGoOn, Run.bind_apply, Run.liftM_apply, push_eq]

theorem call_callable
    (given : Nat)
    {callee : Handle}
    {object : Object}
    {callable : Callable}
    (found : machine.heap.get? callee = some object)
    (isCallable : object.callable? = some callable) :
    call library inner callee given machine =
      (tryCatch (callable.operation.procedure library inner given) fun error =>
        liftM (recover error) : Run Handle) machine := by
  simp only [call, Run.bind_apply, Run.liftM_apply, look_found found, isCallable]

theorem call_other
    {callee : Handle}
    {object : Object}
    {taken below : List Handle}
    (found : machine.heap.get? callee = some object)
    (notCallable : object.callable? = none)
    (entries : machine.stack.entries = taken ++ below) :
    call library inner callee taken.length machine =
      some (recover (object.unsupported "apply") (machine.withEntries below)) := by
  obtain ⟨last, discarded⟩ := discard_append entries
  simp only [call, Run.bind_apply, Run.liftM_apply, look_found found, notCallable, discarded]

/-- A malformed chain takes its operands and the callee below them off the stack. -/
theorem concludeWalk_malformed
    {callee : Handle}
    {taken below : List Handle}
    (entries : machine.stack.entries = taken ++ callee :: below) :
    concludeWalk library inner callee (.malformed taken.length) machine =
      some (recover .malformedList (machine.withEntries below)) := by
  have allEntries : machine.stack.entries = (taken ++ [callee]) ++ below := by
    rw [entries, List.append_assoc, List.singleton_append]
  obtain ⟨last, discarded⟩ := discard_append allEntries
  rw [List.length_append, List.length_singleton] at discarded
  simp only [concludeWalk, Run.bind_apply, Run.liftM_apply, discarded]

theorem evaluatePair_eq
    (library : Library)
    (inner : Evaluator)
    (limit : Nat)
    (pair car cdr : Handle) :
    evaluatePair library inner limit pair car cdr =
      inner.evaluate car >>= concludeHead library inner limit pair cdr :=
  rfl

theorem concludeHead_self
    (limit : Nat)
    (pair chain : Handle)
    {head : Handle}
    {object : Object}
    (found : machine.heap.get? head = some object)
    (notCallable : object.callable? = none) :
    concludeHead library inner limit pair chain head machine = some (.ok pair, machine) := by
  simp only [concludeHead, Run.bind_apply, Run.liftM_apply, look_found found, notCallable,
    Run.pure_apply]

theorem concludeHead_call
    (limit : Nat)
    (pair chain : Handle)
    {head : Handle}
    {object : Object}
    {callable : Callable}
    (found : machine.heap.get? head = some object)
    (isCallable : object.callable? = some callable) :
    concludeHead library inner limit pair chain head machine =
      (inner.pushOperands callable.evaluatesOperands limit chain 0 >>=
          concludeWalk library inner head)
        (machine.withEntries (head :: machine.stack.entries)) := by
  simp only [concludeHead, Run.bind_apply, Run.liftM_apply, look_found found, isCallable, push_eq]

/-- The evaluation of an object that is found, after its entry into the journal. -/
theorem evaluateObject_eq
    (limit : Nat)
    {expression : Handle}
    {object : Object}
    (found : machine.heap.get? expression = some object) :
    evaluateObject library inner limit expression machine =
      match object with
      | .symbol name => some (evaluateSymbol name (machine.record (.evaluating expression)))
      | .pair car cdr =>
          evaluatePair library inner limit expression car cdr
            (machine.record (.evaluating expression))
      | _ => some (.ok expression, machine.record (.evaluating expression)) := by
  have noted :
      note (.evaluating expression) machine = (.ok (), machine.record (.evaluating expression)) :=
    rfl
  have looked := @look_found (machine.record (.evaluating expression)) expression object found
  simp only [evaluateObject, Run.bind_apply, Run.liftM_apply, noted, looked]
  cases object <;> rfl

theorem evaluateSymbol_bound
    {name : String}
    {value : Handle}
    (bound : machine.environment.get? name = some value) :
    evaluateSymbol name machine = (.ok value, machine) := by
  simp only [evaluateSymbol, Transition.bind_apply, Transition.get_apply, bound,
    Transition.pure_apply]

theorem evaluateSymbol_unbound
    {name : String}
    (unbound : machine.environment.get? name = none) :
    evaluateSymbol name machine = recover (.unboundVariable name) machine := by
  simp only [evaluateSymbol, Transition.bind_apply, Transition.get_apply, unbound]

/-- A symbol is looked up in the environment, and nothing else is seen of the machine. -/
theorem evaluateSymbol_eq (name : String) :
    evaluateSymbol name =
      (Transition.observe fun machine => .ok (machine.environment.get? name)) >>=
        fun found => found.elim (recover (.unboundVariable name)) pure := by
  funext machine
  cases found : machine.environment.get? name with
  | none =>
      rw [evaluateSymbol_unbound found, Transition.bind_apply, Transition.observe, found]
      rfl
  | some value =>
      rw [evaluateSymbol_bound found, Transition.bind_apply, Transition.observe, found]
      rfl

end Evaluator

namespace Machine

variable {machine : Machine}

/-- Checks that an evaluation has restored the number of entries, and takes the expression. -/
def concludeTopLevel (expected : Nat) (value : Handle) : Run Handle := do
  let entries ← stackSize
  if entries ≠ expected then
    throw (.internal (.unbalancedStack entries expected))
  let _ ← pop
  return value

theorem evaluateTopLevel_eq
    (evaluator : Evaluator)
    (expression : Handle)
    (machine : Machine) :
    evaluateTopLevel evaluator expression machine =
      (evaluator.evaluate expression >>= concludeTopLevel (machine.stack.size + 1))
        (machine.withEntries (expression :: machine.stack.entries)) := by
  have sized
      (counted : Machine) :
      stackSize counted = (.ok counted.stack.size, counted) :=
    rfl
  have oneMore :
      (machine.withEntries (expression :: machine.stack.entries)).stack.size =
        machine.stack.size + 1 :=
    rfl
  simp only [evaluateTopLevel, Run.bind_apply, Run.liftM_apply, push_eq, sized, oneMore]
  cases evaluator.evaluate expression
    (machine.withEntries (expression :: machine.stack.entries)) with
  | none =>
      rfl
  | some answer =>
      obtain ⟨result, after⟩ := answer
      cases result with
      | error error =>
          rfl
      | ok value =>
          simp only [concludeTopLevel, Run.bind_apply, Run.liftM_apply, sized]

theorem concludeTopLevel_balanced
    {expected : Nat}
    {expression : Handle}
    {below : List Handle}
    (value : Handle)
    (entries : machine.stack.entries = expression :: below)
    (balanced : expected = below.length + 1) :
    concludeTopLevel expected value machine = some (.ok value, machine.withEntries below) := by
  have sized : stackSize machine = (.ok expected, machine) := by
    rw [balanced, ← List.length_cons (a := expression), ← entries]
    rfl
  simp only [concludeTopLevel, Run.bind_apply, Run.liftM_apply, sized, ne_eq, not_true_eq_false,
    ↓reduceIte, pop_cons entries, Run.pure_apply]

end Machine

end ArenaLisp
