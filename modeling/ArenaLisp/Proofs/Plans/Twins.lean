import ArenaLisp.Proofs.Plans.Basic

namespace ArenaLisp

/-!
# Plans and their twins

A plan behaves if a condition holds throughout, if its run ensures a postcondition, and if
another run, its twin, does the same on the same machine.  The rules are those of
postconditions.  They know of every machine in between that the condition holds there.
-/

namespace Plan

/-- A plan throughout which a condition holds, whose twin does the same, with a postcondition. -/
structure Behaves
    {Result : Type}
    (holds : Machine → Prop)
    (plan : Plan Result)
    (twin : Run Result)
    (machine : Machine)
    (post : Except Error Result → Machine → Prop) :
    Prop where
  throughout : plan.Throughout holds machine
  same : twin machine = plan.run machine
  ensures : plan.run.Ensures machine post

namespace Behaves

variable
  {holds : Machine → Prop}
  {First Result : Type}
  {machine : Machine}
  {plan : Plan Result}
  {twin : Run Result}
  {post : Except Error Result → Machine → Prop}

/-- The run of a plan is a twin of it. -/
theorem of_run
    (isRun : plan.run = twin)
    (throughout : plan.Throughout holds machine)
    (ensures : twin.Ensures machine post) :
    Behaves holds plan twin machine post :=
  ⟨throughout, isRun ▸ rfl, isRun ▸ ensures⟩

theorem exhausted
    (now : holds machine) :
    Behaves holds (exhausted : Plan Result) Run.exhausted machine post :=
  .of_run rfl (.exhausted now) .exhausted

theorem pure
    {value : Result}
    (now : holds machine)
    (ends : post (.ok value) machine) :
    Behaves holds (Pure.pure value) (Pure.pure value) machine post :=
  .of_run rfl (.pure value now) (.pure ends)

theorem throw
    {error : Error}
    (now : holds machine)
    (ends : post (.error error) machine) :
    Behaves holds (MonadExcept.throw error : Plan Result) (MonadExcept.throw error) machine post :=
  .of_run rfl (.throw error now) (.throw ends)

/-- What a run is known to ensure takes the place of the postcondition. -/
theorem ensuring
    {run : Run Result}
    {other : Except Error Result → Machine → Prop}
    (behaves : Behaves holds plan twin machine other)
    (isRun : plan.run = run)
    (ensures : run.Ensures machine post) :
    Behaves holds plan twin machine post :=
  ⟨behaves.throughout, behaves.same, isRun ▸ ensures⟩

/-- The condition holds where the first plan ends, and the second goes on from there. -/
theorem bind
    {plan : Plan First}
    {twin : Run First}
    {continuation : First → Plan Result}
    {twinContinuation : First → Run Result}
    {between : Except Error First → Machine → Prop}
    (first : Behaves holds plan twin machine between)
    (returned :
      ∀ value after,
        holds after →
        between (.ok value) after →
        Behaves holds (continuation value) (twinContinuation value) after post)
    (failed :
      ∀ error after, holds after → between (.error error) after → post (.error error) after) :
    Behaves holds (plan >>= continuation) (twin >>= twinContinuation) machine post := by
  have answers :
      plan.run.Ensures machine fun result after => plan.run machine = some (result, after) :=
    fun _ _ ran => ran
  have later
      (value : First)
      (after : Machine)
      (ran : plan.run machine = some (.ok value, after)) :
      Behaves holds (continuation value) (twinContinuation value) after post :=
    returned value after (first.throughout.after _ _ ran) (first.ensures _ _ ran)
  constructor
  · exact first.throughout.bind fun value after ran => (later value after ran).throughout
  · rw [run_bind, Run.bind_apply, Run.bind_apply, first.same]
    rcases ran : plan.run machine with _ | ⟨error | value, after⟩
    · rfl
    · rfl
    · exact (later value after ran).same
  · rw [run_bind]
    exact answers.bind (fun value after ran => (later value after ran).ensures)
      fun error after ran =>
        failed error after (first.throughout.after _ _ ran) (first.ensures _ _ ran)

/-- An action that is known to succeed, and what follows it. -/
theorem bind_action
    {plan : Plan First}
    {action : Action First}
    {continuation : First → Plan Result}
    {twinContinuation : First → Run Result}
    {value : First}
    {after : Machine}
    (isRun : plan.run = liftM action)
    (throughout : plan.Throughout holds machine)
    (acted : action machine = (.ok value, after))
    (later :
      holds after → Behaves holds (continuation value) (twinContinuation value) after post) :
    Behaves holds (plan >>= continuation) ((liftM action : Run First) >>= twinContinuation)
      machine post := by
  have ends :
      (liftM action : Run First).Ensures machine fun result final =>
        (result, final) = (.ok value, after) :=
    .lift acted
  refine (of_run isRun throughout ends).bind ?_ ?_
  · rintro _ _ holdsAfter ⟨⟩
    exact later holdsAfter
  · rintro _ _ _ ⟨⟩

/-- Nothing follows an action that is known to fail. -/
theorem bind_refused
    {plan : Plan First}
    {action : Action First}
    {continuation : First → Plan Result}
    {twinContinuation : First → Run Result}
    {error : Error}
    {after : Machine}
    (isRun : plan.run = liftM action)
    (throughout : plan.Throughout holds machine)
    (refused : action machine = (.error error, after))
    (failed : post (.error error) after) :
    Behaves holds (plan >>= continuation) ((liftM action : Run First) >>= twinContinuation)
      machine post := by
  have ends :
      (liftM action : Run First).Ensures machine fun result final =>
        (result, final) = (.error error, after) :=
    .lift refused
  refine (of_run isRun throughout ends).bind ?_ ?_
  · rintro _ _ _ ⟨⟩
  · rintro _ _ _ ⟨⟩
    exact failed

theorem tryCatch
    {handler : Error → Plan Result}
    {twinHandler : Error → Run Result}
    {between : Except Error Result → Machine → Prop}
    (first : Behaves holds plan twin machine between)
    (returned : ∀ value after, holds after → between (.ok value) after → post (.ok value) after)
    (failed :
      ∀ error after,
        holds after →
        between (.error error) after →
        Behaves holds (handler error) (twinHandler error) after post) :
    Behaves holds (MonadExcept.tryCatch plan handler) (MonadExcept.tryCatch twin twinHandler)
      machine post := by
  have answers :
      plan.run.Ensures machine fun result after => plan.run machine = some (result, after) :=
    fun _ _ ran => ran
  have later
      (error : Error)
      (after : Machine)
      (ran : plan.run machine = some (.error error, after)) :
      Behaves holds (handler error) (twinHandler error) after post :=
    failed error after (first.throughout.after _ _ ran) (first.ensures _ _ ran)
  constructor
  · exact first.throughout.tryCatch fun error after ran => (later error after ran).throughout
  · rw [run_tryCatch, Run.tryCatch_apply, Run.tryCatch_apply, first.same]
    rcases ran : plan.run machine with _ | ⟨error | value, after⟩
    · rfl
    · exact (later error after ran).same
    · rfl
  · rw [run_tryCatch]
    exact answers.tryCatch
      (fun value after ran =>
        returned value after (first.throughout.after _ _ ran) (first.ensures _ _ ran))
      fun error after ran => (later error after ran).ensures

end Behaves

end Plan

end ArenaLisp
