import ArenaLisp.Machine.Recovery

namespace ArenaLisp

/-!
# Runs

Evaluation is not known to end: an expression may contain itself.  A run is
therefore a step of the machine that has no answer at all when expressions are
nested more deeply than a given limit allows.  An expression returns if some
limit gives it an answer.

What is called in the course of an evaluation may evaluate and call in turn.
It does so through an `Evaluator`, which is the interpreter with a smaller
limit.
-/

/-- A step of a machine that has no answer if it meets its nesting limit. -/
abbrev Run : Type → Type :=
  ExceptT Error (StateT Machine Option)

namespace Run

/-- The step that has met its nesting limit. -/
def exhausted {Result : Type} : Run Result :=
  fun _ => none

/-- A step that always ends, as a run. -/
def ofAction {Result : Type} (action : Action Result) : Run Result :=
  fun machine => some (action machine)

instance : MonadLift Action Run where
  monadLift := ofAction

variable {First Second Result : Type}

/-- The run that only answers leaves the machine as it is. -/
theorem pure_apply (result : Result) (machine : Machine) :
    (pure result : Run Result) machine = some (.ok result, machine) :=
  rfl

/-- The run that fails leaves the machine as it is. -/
theorem throw_apply (error : Error) (machine : Machine) :
    (throw error : Run Result) machine = some (.error error, machine) :=
  rfl

/-- A step that always ends has its own answer as a run. -/
theorem liftM_apply (action : Action Result) (machine : Machine) :
    (liftM action : Run Result) machine = some (action machine) :=
  rfl

/-- A second run goes on with the machine of the first, if that has returned. -/
theorem bind_apply
    (run : Run First)
    (continuation : First → Run Second)
    (machine : Machine) :
    (run >>= continuation) machine =
      match run machine with
      | none => none
      | some (.ok result, after) => continuation result after
      | some (.error error, after) => some (.error error, after) := by
  change ExceptT.bind run continuation machine = _
  simp only [ExceptT.bind, ExceptT.mk, bind, StateT.bind, ExceptT.bindCont]
  rcases run machine with _ | ⟨result, after⟩
  · rfl
  · cases result <;> rfl

/-- A handler runs with the machine of a failed run, and not otherwise. -/
theorem tryCatch_apply
    (run : Run Result)
    (handler : Error → Run Result)
    (machine : Machine) :
    (tryCatch run handler) machine =
      match run machine with
      | none => none
      | some (.ok result, after) => some (.ok result, after)
      | some (.error error, after) => handler error after := by
  change ExceptT.tryCatch run handler machine = _
  simp only [ExceptT.tryCatch, ExceptT.mk, bind, StateT.bind]
  rcases run machine with _ | ⟨result, after⟩
  · rfl
  · cases result <;> rfl

end Run

/-- What an operation may ask of the interpreter that runs it. -/
structure Evaluator where
  /-- Reduces the expression that a handle names to a value. -/
  evaluate : Handle → Run Handle
  /-- Calls a callable with as many operands as given from the operand stack. -/
  apply : Handle → Nat → Run Handle

/-- The evaluator whose nesting limit is met already. -/
def Evaluator.exhausted : Evaluator where
  evaluate _ := Run.exhausted
  apply _ _ := Run.exhausted

/--
What runs when a callable is called.  It is told the number of its operands,
which lie on top of the operand stack, and takes exactly these off the stack.
-/
abbrev Procedure : Type :=
  Evaluator → Nat → Run Handle

/-- The procedures of the custom operations, by key. -/
abbrev Library : Type :=
  String → Procedure

/-- The library without custom operations: to call one breaks the bookkeeping. -/
def Library.empty : Library :=
  fun key _ _ => throw (.internal (.other ("unknown operation " ++ key)))

end ArenaLisp
