import ArenaLisp.Proofs.Plans.Basic
import ArenaLisp.Proofs.SpecialForms

namespace ArenaLisp

/-!
# Plans of the builtin operations

Each operation has a plan of the same name, which reads like it.  The run of the plan is
the operation, on every machine.  What the operations evaluate is given by plans as well.
-/

namespace Plan

open Machine

/-- The plans of the evaluation of all expressions. -/
abbrev Evaluation : Type 1 :=
  Handle → Plan Handle

/-- The plans of an evaluation lead to what an interpreter computes. -/
def Evaluation.Follows (inner : Evaluation) (evaluator : Evaluator) : Prop :=
  ∀ expression, (inner expression).run = evaluator.evaluate expression

/-- The machine as it is. -/
def current : Plan Machine :=
  observe .ok

def look (handle : Handle) : Plan Object :=
  observe fun machine => machine.object handle

def lookInteger (handle : Handle) : Plan Int64 := do
  let object ← look handle
  observe fun _ => object.integerValue

def push (handle : Handle) : Plan Unit :=
  onStack fun stack => (.ok (), stack.push handle)

def pop : Plan Handle :=
  onStack OperandStack.pop

def popMany (count : Nat) : Plan (List Handle) :=
  onStack (OperandStack.popMany count)

def discard (count : Nat) : Plan (Option Handle) :=
  onStack (OperandStack.discard count)

def peek (depth : Nat) : Plan Handle :=
  observe fun machine => machine.stack.peek depth

def stackSize : Plan Nat :=
  observe fun machine => .ok machine.stack.size

def note (event : Event) : Plan Unit :=
  perform (Machine.note event) (.note event)

def bindName (name : String) (value : Handle) : Plan Unit :=
  perform (Machine.bindName name value) (.bindName name value)

def place (object : Object) : Plan Handle :=
  perform (Machine.place object) (.place object)

/-- Marks, sweeps and finishes, each of them in one step. -/
def collect : Plan Nat := do
  let liveBefore := (← current).heap.live
  let garbage ← perform markRoots .mark
  perform (freeAll garbage) (.sweep garbage)
  perform (finishCollection liveBefore garbage.length) (.finish liveBefore garbage.length)
  return garbage.length

def reserve : Plan Unit := do
  if (← current).heap.needsCollection then
    let _ ← collect

def allocate (object : Object) : Plan Handle := do
  reserve
  place object

def consFromStack : Plan Handle := do
  reserve
  let cdr ← pop
  let car ← pop
  place (.pair car cdr)

def recover (error : Error) : Plan Handle := do
  if error.isFatal then
    throw error
  else
    perform (modify fun machine =>
      { machine with diagnostics := remember machine.diagnostics error }) (.remember error)
    note (.recovered error)
    allocate .void

@[simp] theorem run_current : current.run = liftM (get : Action Machine) :=
  rfl

@[simp] theorem run_look (handle : Handle) : (look handle).run = liftM (Machine.look handle) :=
  rfl

@[simp] theorem run_lookInteger (handle : Handle) :
    (lookInteger handle).run = liftM (Machine.lookInteger handle) := by
  rw [lookInteger, run_bind, Machine.lookInteger, Run.liftM_bind]
  rfl

@[simp] theorem run_push (handle : Handle) : (push handle).run = liftM (Machine.push handle) :=
  rfl

@[simp] theorem run_pop : pop.run = liftM Machine.pop :=
  rfl

@[simp] theorem run_popMany (count : Nat) : (popMany count).run = liftM (Machine.popMany count) :=
  rfl

@[simp] theorem run_discard (count : Nat) : (discard count).run = liftM (Machine.discard count) :=
  rfl

@[simp] theorem run_peek (depth : Nat) : (peek depth).run = liftM (Machine.peek depth) :=
  rfl

@[simp] theorem run_stackSize : stackSize.run = liftM Machine.stackSize :=
  rfl

@[simp] theorem run_note (event : Event) : (note event).run = liftM (Machine.note event) :=
  rfl

@[simp] theorem run_bindName (name : String) (value : Handle) :
    (bindName name value).run = liftM (Machine.bindName name value) :=
  rfl

@[simp] theorem run_place (object : Object) : (place object).run = liftM (Machine.place object) :=
  rfl

@[simp] theorem run_collect : collect.run = liftM Machine.collect := by
  simp only [collect, run_bind, run_current, run_perform, run_pure, Machine.collect,
    Run.liftM_bind]
  rfl

@[simp] theorem run_reserve : reserve.run = liftM Machine.reserve := by
  simp only [reserve, run_bind, run_current, Machine.reserve, Run.liftM_bind]
  refine bind_congr fun machine => ?_
  split
  · simp only [run_bind, run_collect, run_pure, Run.liftM_bind]
    rfl
  · rfl

@[simp] theorem run_allocate (object : Object) :
    (allocate object).run = liftM (Machine.allocate object) := by
  simp only [allocate, run_bind, run_reserve, run_place, Machine.allocate, Run.liftM_bind]

@[simp] theorem run_consFromStack : consFromStack.run = liftM Machine.consFromStack := by
  simp only [consFromStack, run_bind, run_reserve, run_pop, run_place, Machine.consFromStack,
    Run.liftM_bind]

@[simp] theorem run_recover (error : Error) :
    (recover error).run = liftM (Machine.recover error) := by
  unfold recover Machine.recover
  split
  · rfl
  · simp only [run_bind, run_perform, run_note, run_allocate, Run.liftM_bind]

def requireArity (builtin : Builtin) (expected given : Nat) : Plan Unit := do
  if given ≠ expected then
    let _ ← discard given
    throw (.arityMismatch builtin.name (toString expected) given)

def lookIntegers : List Handle → Plan (List Int64)
  | [] => return []
  | handle :: rest => do
      let value ← lookInteger handle
      let values ← lookIntegers rest
      return value :: values

/-- Replaces the operands by the handle of what a fold makes of their values. -/
def folding (fold : List Int64 → Int64) (given : Nat) : Plan Handle := do
  let values ← lookIntegers (← popMany given)
  allocate (.integer (fold values))

def subtraction (given : Nat) : Plan Handle := do
  if given = 0 then
    throw (.arityMismatch Builtin.subtract.name "at least 1" 0)
  let otherHandles ← popMany (given - 1)
  let firstHandle ← pop
  let first ← lookInteger firstHandle
  let others ← lookIntegers otherHandles
  allocate (.integer (Builtin.difference first others))

def comparison
    (builtin : Builtin)
    (test : Int64 → Int64 → Bool)
    (given : Nat) :
    Plan Handle := do
  requireArity builtin 2 given
  let rightHandle ← pop
  let leftHandle ← pop
  let right ← lookInteger rightHandle
  let left ← lookInteger leftHandle
  allocate (.boolean (test left right))

def selection
    (builtin : Builtin)
    (part : Object → Except Error Handle)
    (given : Nat) :
    Plan Handle := do
  requireArity builtin 1 given
  let object ← look (← pop)
  observe fun _ => part object

def concludeConditional
    (inner : Evaluation)
    (consequent otherwise outcome : Handle) :
    Plan Handle := do
  let selected := if (← look outcome).isTruthy then consequent else otherwise
  let value ← inner selected
  let _ ← discard 3
  return value

def conditionalForm (inner : Evaluation) (given : Nat) : Plan Handle := do
  requireArity .conditional 3 given
  let otherwise ← peek 0
  let consequent ← peek 1
  let condition ← peek 2
  let outcome ← inner condition
  concludeConditional inner consequent otherwise outcome

def concludeDefinition (name : String) (value : Handle) : Plan Handle := do
  bindName name value
  let _ ← discard 2
  allocate .void

def definitionForm (inner : Evaluation) (given : Nat) : Plan Handle := do
  requireArity .definition 2 given
  let expression ← peek 0
  let nameExpression ← peek 1
  match (← look nameExpression).symbolName with
  | .error error =>
      let _ ← discard 2
      throw error
  | .ok name =>
      if (← current).eagerDefinitions then
        let value ← inner expression
        concludeDefinition name value
      else
        concludeDefinition name expression

/-- The plan of a builtin operation. -/
def procedure (inner : Evaluation) (given : Nat) : Builtin → Plan Handle
  | .add => folding Builtin.sum given
  | .subtract => subtraction given
  | .multiply => folding Builtin.product given
  | .equal => comparison .equal (fun left right => left == right) given
  | .less => comparison .less (fun left right => left < right) given
  | .greater => comparison .greater (fun left right => left > right) given
  | .car => selection .car Object.car given
  | .cdr => selection .cdr Object.cdr given
  | .conditional => conditionalForm inner given
  | .definition => definitionForm inner given

@[simp] theorem run_requireArity
    (builtin : Builtin)
    (expected given : Nat) :
    (requireArity builtin expected given).run =
      liftM (Builtin.requireArity builtin expected given) := by
  unfold requireArity Builtin.requireArity
  split
  · simp only [run_bind, run_discard, run_throw, Run.liftM_bind]
    rfl
  · rfl

@[simp] theorem run_lookIntegers (handles : List Handle) :
    (lookIntegers handles).run = liftM (Builtin.lookIntegers handles) := by
  induction handles with
  | nil =>
      rfl
  | cons handle rest inductionHypothesis =>
      have steps :
          Builtin.lookIntegers (handle :: rest) = do
            let value ← Machine.lookInteger handle
            let values ← Builtin.lookIntegers rest
            return value :: values :=
        List.mapM_cons
      simp only [lookIntegers, run_bind, run_lookInteger, inductionHypothesis, run_pure, steps,
        Run.liftM_bind]
      rfl

theorem run_folding
    (fold : List Int64 → Int64)
    (given : Nat) :
    (folding fold given).run =
      liftM (do
        let values ← Builtin.lookIntegers (← Machine.popMany given)
        Machine.allocate (.integer (fold values)) : Action Handle) := by
  simp only [folding, run_bind, run_popMany, run_lookIntegers, run_allocate, Run.liftM_bind]

theorem run_subtraction (given : Nat) :
    (subtraction given).run = liftM (Builtin.subtraction given) := by
  unfold subtraction Builtin.subtraction
  split
  · rfl
  · simp only [run_bind, run_popMany, run_pop, run_lookInteger, run_lookIntegers, run_allocate,
      Run.liftM_bind]

theorem run_comparison
    (builtin : Builtin)
    (test : Int64 → Int64 → Bool)
    (given : Nat) :
    (comparison builtin test given).run = liftM (Builtin.comparison builtin test given) := by
  simp only [comparison, run_bind, run_requireArity, run_pop, run_lookInteger, run_allocate,
    Builtin.comparison, Run.liftM_bind]

theorem run_selection
    (builtin : Builtin)
    (part : Object → Except Error Handle)
    (given : Nat) :
    (selection builtin part given).run = liftM (Builtin.selection builtin part given) := by
  simp only [selection, run_bind, run_requireArity, run_pop, run_look, run_observe,
    Builtin.selection, Run.liftM_bind]
  rfl

@[simp] theorem run_concludeDefinition
    (name : String)
    (value : Handle) :
    (concludeDefinition name value).run = liftM (Builtin.concludeDefinition name value) := by
  simp only [concludeDefinition, run_bind, run_bindName, run_discard, run_allocate,
    Builtin.concludeDefinition, Run.liftM_bind]

section

variable
  {inner : Evaluation}
  {evaluator : Evaluator}
  (follows : inner.Follows evaluator)

include follows

theorem run_conditionalForm (given : Nat) :
    (conditionalForm inner given).run = Builtin.conditionalForm evaluator given := by
  simp only [conditionalForm, concludeConditional, run_bind, run_requireArity, run_peek, run_look,
    run_discard, run_pure, follows _, Builtin.conditionalForm]

theorem run_definitionForm (given : Nat) :
    (definitionForm inner given).run = Builtin.definitionForm evaluator given := by
  simp only [definitionForm, run_bind, run_requireArity, run_peek, run_look,
    Builtin.definitionForm]
  refine bind_congr fun _ => bind_congr fun expression => bind_congr fun _ =>
    bind_congr fun nameObject => ?_
  cases nameObject.symbolName with
  | error error =>
      simp only [run_bind, run_discard, run_throw]
  | ok name =>
      have concludes
          (value : Handle) :
          (concludeDefinition name value).run =
            (do
              Machine.bindName name value
              let _ ← Machine.discard 2
              Machine.allocate .void : Run Handle) := by
        rw [run_concludeDefinition]
        funext machine
        exact (Builtin.concludeDefinition_run name value machine).symm
      simp only [run_bind, run_current]
      refine bind_congr fun machine => ?_
      cases machine.eagerDefinitions with
      | false =>
          exact concludes expression
      | true =>
          simp only [↓reduceIte, run_bind, follows _, concludes]

/-- The run of a builtin operation's plan is its procedure. -/
theorem run_procedure
    (builtin : Builtin)
    (given : Nat) :
    (procedure inner given builtin).run = builtin.procedure evaluator given := by
  cases builtin with
  | add | multiply =>
      exact run_folding _ given
  | subtract =>
      exact run_subtraction given
  | equal | less | greater =>
      exact run_comparison _ _ given
  | car | cdr =>
      exact run_selection _ _ given
  | conditional =>
      exact run_conditionalForm follows given
  | definition =>
      exact run_definitionForm follows given

end

end Plan

end ArenaLisp
