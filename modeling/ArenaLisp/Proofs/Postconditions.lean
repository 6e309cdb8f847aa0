import ArenaLisp.Evaluation.Run

namespace ArenaLisp

/-!
# Postconditions of runs

`Ensures` speaks of the answer that a run may give, `Yields` also promises one.
A run is taken apart at its binds: each rule has the state between the two parts
as a condition of its own, so later proofs never unfold the monad.
-/

namespace Run

variable {First Second Result : Type}

/-- Whatever answer the run gives on a machine, it satisfies a condition. -/
def Ensures
    (run : Run Result)
    (machine : Machine)
    (post : Except Error Result → Machine → Prop) :
    Prop :=
  ∀ result after, run machine = some (result, after) → post result after

/-- The run gives an answer on a machine, and that satisfies a condition. -/
def Yields
    (run : Run Result)
    (machine : Machine)
    (post : Except Error Result → Machine → Prop) :
    Prop :=
  ∃ result after, run machine = some (result, after) ∧ post result after

variable {machine : Machine} {post : Except Error Result → Machine → Prop}

namespace Ensures

theorem mono
    {run : Run Result}
    {stronger : Except Error Result → Machine → Prop}
    (ensures : run.Ensures machine stronger)
    (weaken : ∀ result after, stronger result after → post result after) :
    run.Ensures machine post :=
  fun result after ran => weaken result after (ensures result after ran)

theorem and
    {run : Run Result}
    {other : Except Error Result → Machine → Prop}
    (ensures : run.Ensures machine post)
    (others : run.Ensures machine other) :
    run.Ensures machine fun result after => post result after ∧ other result after :=
  fun result after ran => ⟨ensures result after ran, others result after ran⟩

/-- A run that comes to the same as another one ensures the same. -/
theorem of_eq
    {run other : Run Result}
    {start : Machine}
    (same : run machine = other start)
    (ensures : other.Ensures start post) :
    run.Ensures machine post :=
  fun result after ran => ensures result after (same ▸ ran)

theorem of_answer
    {run : Run Result}
    {answer : Except Error Result × Machine}
    (answered : run machine = some answer)
    (holds : post answer.1 answer.2) :
    run.Ensures machine post := by
  intro result after ran
  rw [answered, Option.some.injEq] at ran
  rwa [ran] at holds

theorem anything
    {run : Run Result} :
    run.Ensures machine fun _ _ => True :=
  fun _ _ _ => trivial

theorem exhausted : (Run.exhausted : Run Result).Ensures machine post := by
  intro result after ran
  simp [Run.exhausted] at ran

theorem pure
    {result : Result}
    (holds : post (.ok result) machine) :
    (Pure.pure result : Run Result).Ensures machine post := by
  intro answer after ran
  rw [pure_apply, Option.some.injEq, Prod.mk.injEq] at ran
  exact ran.1 ▸ ran.2 ▸ holds

theorem throw
    {error : Error}
    (holds : post (.error error) machine) :
    (throw error : Run Result).Ensures machine post := by
  intro answer after ran
  rw [throw_apply, Option.some.injEq, Prod.mk.injEq] at ran
  exact ran.1 ▸ ran.2 ▸ holds

/-- A step that always ends ensures what holds of its answer. -/
theorem lift
    {action : Action Result}
    (holds : post (action machine).1 (action machine).2) :
    (liftM action : Run Result).Ensures machine post := by
  intro answer after ran
  rw [liftM_apply, Option.some.injEq] at ran
  rw [ran] at holds
  exact holds

/-- The second run starts where the first one ends; a failure of the first is the answer. -/
theorem bind
    {run : Run First}
    {continuation : First → Run Result}
    {between : Except Error First → Machine → Prop}
    (first : run.Ensures machine between)
    (returned :
      ∀ value after, between (.ok value) after → (continuation value).Ensures after post)
    (failed : ∀ error after, between (.error error) after → post (.error error) after) :
    (run >>= continuation).Ensures machine post := by
  intro result final ran
  rw [bind_apply] at ran
  cases step : run machine with
  | none =>
      simp [step] at ran
  | some answer =>
      obtain ⟨firstResult, after⟩ := answer
      have holds := first firstResult after step
      rw [step] at ran
      cases firstResult with
      | ok value =>
          exact returned value after holds result final ran
      | error error =>
          simp only [Option.some.injEq, Prod.mk.injEq] at ran
          exact ran.1 ▸ ran.2 ▸ failed error after holds

/-- The second run starts where a step ends that is known to succeed. -/
theorem bind_lift
    {action : Action First}
    {continuation : First → Run Result}
    {value : First}
    {after : Machine}
    (step : action machine = (.ok value, after))
    (returned : (continuation value).Ensures after post) :
    ((liftM action : Run First) >>= continuation).Ensures machine post := by
  intro result final ran
  rw [bind_apply, liftM_apply, step] at ran
  exact returned result final ran

/-- The handler starts where a failed run ends. -/
theorem tryCatch
    {run : Run Result}
    {handler : Error → Run Result}
    {between : Except Error Result → Machine → Prop}
    (first : run.Ensures machine between)
    (returned : ∀ value after, between (.ok value) after → post (.ok value) after)
    (failed :
      ∀ error after, between (.error error) after → (handler error).Ensures after post) :
    (tryCatch run handler).Ensures machine post := by
  intro result final ran
  rw [tryCatch_apply] at ran
  cases step : run machine with
  | none =>
      simp [step] at ran
  | some answer =>
      obtain ⟨firstResult, after⟩ := answer
      have holds := first firstResult after step
      rw [step] at ran
      cases firstResult with
      | ok value =>
          simp only [Option.some.injEq, Prod.mk.injEq] at ran
          exact ran.1 ▸ ran.2 ▸ returned value after holds
      | error error =>
          exact failed error after holds result final ran

end Ensures

namespace Yields

theorem of_eq
    {run other : Run Result}
    {start : Machine}
    (same : run machine = other start)
    (yields : other.Yields start post) :
    run.Yields machine post := by
  obtain ⟨result, after, ran, holds⟩ := yields
  exact ⟨result, after, same.trans ran, holds⟩

theorem of_answer
    {run : Run Result}
    {answer : Except Error Result × Machine}
    (answered : run machine = some answer)
    (holds : post answer.1 answer.2) :
    run.Yields machine post :=
  ⟨answer.1, answer.2, answered, holds⟩

/-- An answer satisfies what every answer satisfies. -/
theorem and_ensures
    {run : Run Result}
    {always : Except Error Result → Machine → Prop}
    (yields : run.Yields machine post)
    (ensures : run.Ensures machine always) :
    run.Yields machine fun result after => post result after ∧ always result after := by
  obtain ⟨result, after, ran, holds⟩ := yields
  exact ⟨result, after, ran, holds, ensures result after ran⟩

theorem mono
    {run : Run Result}
    {stronger : Except Error Result → Machine → Prop}
    (yields : run.Yields machine stronger)
    (weaken : ∀ result after, stronger result after → post result after) :
    run.Yields machine post := by
  obtain ⟨result, after, ran, holds⟩ := yields
  exact ⟨result, after, ran, weaken result after holds⟩

theorem pure
    {result : Result}
    (holds : post (.ok result) machine) :
    (Pure.pure result : Run Result).Yields machine post :=
  ⟨.ok result, machine, rfl, holds⟩

theorem lift
    {action : Action Result}
    (holds : post (action machine).1 (action machine).2) :
    (liftM action : Run Result).Yields machine post :=
  ⟨(action machine).1, (action machine).2, rfl, holds⟩

theorem bind
    {run : Run First}
    {continuation : First → Run Result}
    {between : Except Error First → Machine → Prop}
    (first : run.Yields machine between)
    (returned :
      ∀ value after, between (.ok value) after → (continuation value).Yields after post)
    (failed : ∀ error after, between (.error error) after → post (.error error) after) :
    (run >>= continuation).Yields machine post := by
  obtain ⟨firstResult, after, step, holds⟩ := first
  cases firstResult with
  | ok value =>
      obtain ⟨result, final, ran, ends⟩ := returned value after holds
      exact ⟨result, final, by rw [bind_apply, step]; exact ran, ends⟩
  | error error =>
      exact ⟨.error error, after, by rw [bind_apply, step], failed error after holds⟩

theorem bind_lift
    {action : Action First}
    {continuation : First → Run Result}
    {value : First}
    {after : Machine}
    (step : action machine = (.ok value, after))
    (returned : (continuation value).Yields after post) :
    ((liftM action : Run First) >>= continuation).Yields machine post := by
  obtain ⟨result, final, ran, ends⟩ := returned
  exact ⟨result, final, by rw [bind_apply, liftM_apply, step]; exact ran, ends⟩

/-- A value that is kept while one more step is taken. -/
theorem keeping
    {action : Action First}
    {value : Result}
    (holds : ∀ result, post result (action machine).2) :
    ((liftM action : Run First) >>= fun _ => Pure.pure value).Yields machine post := by
  have steps :
      (liftM action : Run First).Yields machine fun _ after => ∀ result, post result after :=
    .lift holds
  exact steps.bind (fun _ _ ended => .pure (ended _)) fun _ _ ended => ended _

theorem tryCatch
    {run : Run Result}
    {handler : Error → Run Result}
    {between : Except Error Result → Machine → Prop}
    (first : run.Yields machine between)
    (returned : ∀ value after, between (.ok value) after → post (.ok value) after)
    (failed :
      ∀ error after, between (.error error) after → (handler error).Yields after post) :
    (tryCatch run handler).Yields machine post := by
  obtain ⟨firstResult, after, step, holds⟩ := first
  cases firstResult with
  | ok value =>
      exact ⟨.ok value, after, by rw [tryCatch_apply, step], returned value after holds⟩
  | error error =>
      obtain ⟨result, final, ran, ends⟩ := failed error after holds
      exact ⟨result, final, by rw [tryCatch_apply, step]; exact ran, ends⟩

end Yields

/-- A value that is found by running can be reasoned about, with what was checked there. -/
theorem exists_value_of_any
    [DecidableEq Result]
    {run : Run Result}
    {value : Result}
    {check : Machine → Prop}
    [DecidablePred check]
    (checked :
      (run machine).any
          (fun answer => answer.1.toOption = some value ∧ check answer.2) =
        true) :
    ∃ after, run machine = some (.ok value, after) ∧ check after := by
  obtain ⟨⟨result, after⟩, answered, holds⟩ := (Option.any_eq_true _ _).mp checked
  obtain ⟨isValue, held⟩ := of_decide_eq_true holds
  cases result with
  | error error =>
      cases isValue
  | ok value =>
      cases isValue
      exact ⟨after, answered, held⟩

end Run

end ArenaLisp
