import ArenaLisp.Error

namespace ArenaLisp

/-!
# Transitions

A transition is a step of a stateful structure that may fail.  The state after
the step is part of the answer in either case, because a failed step can leave
traces behind: a drained stack, objects placed before memory ran out.
-/

/-- A step over `State` that answers with a result or an error. -/
abbrev Transition (State : Type) : Type → Type :=
  ExceptT Error (StateM State)

namespace Transition

/-- Answers with a value computed from the state, which stays as it is. -/
def observe
    {State Result : Type}
    (view : State → Except Error Result) :
    Transition State Result :=
  fun state => (view state, state)

variable {State First Second Result : Type}

/-- The step that only answers leaves the state as it is. -/
theorem pure_apply (result : Result) (state : State) :
    (pure result : Transition State Result) state = (.ok result, state) :=
  rfl

/-- The step that fails leaves the state as it is. -/
theorem throw_apply (error : Error) (state : State) :
    (throw error : Transition State Result) state = (.error error, state) :=
  rfl

/-- Reading the state leaves it as it is. -/
theorem get_apply (state : State) :
    (get : Transition State State) state = (.ok state, state) :=
  rfl

/-- Changing the state always succeeds. -/
theorem modify_apply (change : State → State) (state : State) :
    (modify change : Transition State PUnit) state = (.ok ⟨⟩, change state) :=
  rfl

/-- A second step runs in the state after the first, unless the first has failed. -/
theorem bind_apply
    (step : Transition State First)
    (continuation : First → Transition State Second)
    (state : State) :
    (step >>= continuation) state =
      match step state with
      | (.ok result, after) => continuation result after
      | (.error error, after) => (.error error, after) := by
  change ExceptT.bind step continuation state = _
  simp only [ExceptT.bind, ExceptT.mk, bind, StateT.bind, ExceptT.bindCont]
  rcases step state with ⟨result, after⟩
  cases result <;> rfl

/-- Steps that have succeeded one after the other have both succeeded. -/
theorem exists_of_bind_ok
    {step : Transition State First}
    {continuation : First → Transition State Second}
    {state final : State}
    {result : Second}
    (succeeded : (step >>= continuation) state = (.ok result, final)) :
    ∃ value after,
      step state = (.ok value, after) ∧ continuation value after = (.ok result, final) := by
  rw [bind_apply] at succeeded
  split at succeeded
  · rename_i value after stepped
    exact ⟨value, after, stepped, succeeded⟩
  · cases succeeded

/-- A handler runs in the state after a failed step, and not otherwise. -/
theorem tryCatch_apply
    (step : Transition State Result)
    (handler : Error → Transition State Result)
    (state : State) :
    (tryCatch step handler) state =
      match step state with
      | (.ok result, after) => (.ok result, after)
      | (.error error, after) => handler error after := by
  change ExceptT.tryCatch step handler state = _
  simp only [ExceptT.tryCatch, ExceptT.mk, bind, StateT.bind]
  rcases step state with ⟨result, after⟩
  cases result <;> rfl

end Transition

end ArenaLisp
