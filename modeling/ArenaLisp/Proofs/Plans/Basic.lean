import ArenaLisp.Proofs.Compositional
import ArenaLisp.Proofs.Postconditions

namespace ArenaLisp

/-!
# Plans

A run is a function of machines: it says where it ends, and nothing of what lies in
between.  A plan spells a run out, one single step after the other, with what is to be
done after each result.  So a plan has moments: the machine that it starts on, and the
machine after each step.  It has them even if it meets its nesting limit, when its run has
no answer.

A collection takes three steps: it marks, it sweeps, and it finishes.  There is no moment
inside of a sweep.
-/

namespace Machine

/-- The actions that change a machine once, if at all. -/
inductive Elementary : {Value : Type} → Action Value → Prop where
  | observe
      {Value : Type}
      (view : Machine → Except Error Value) :
      Elementary (Transition.observe view)
  | onStack
      {Value : Type}
      (step : Transition OperandStack Value) :
      Elementary (onStack step)
  | place (object : Object) : Elementary (place object)
  | note (event : Event) : Elementary (note event)
  | remember
      (error : Error) :
      Elementary (modify fun machine =>
        { machine with diagnostics := remember machine.diagnostics error } : Action Unit)
  | bindName (name : String) (value : Handle) : Elementary (bindName name value)
  | mark : Elementary markRoots
  | sweep (garbage : List Handle) : Elementary (freeAll garbage)
  | finish (liveBefore freed : Nat) : Elementary (finishCollection liveBefore freed)

end Machine

open Machine

/-- A run as a tree of single steps; what is done next depends on how a step has ended. -/
inductive Plan (Result : Type) : Type 1 where
  | exhausted
  | answer (result : Except Error Result)
  | step
      {Value : Type}
      (action : Action Value)
      (elementary : Elementary action)
      (next : Except Error Value → Plan Result)

namespace Plan

variable {First Result Value : Type}

/-- The run that follows a plan. -/
def run : Plan Result → Run Result
  | .exhausted => Run.exhausted
  | .answer result => fun machine => some (result, machine)
  | .step action _ next => fun machine => (next (action machine).1).run (action machine).2

/-- The machines that a plan passes through, from the one it starts on to the last one. -/
def moments : Plan Result → Machine → List Machine
  | .exhausted, machine => [machine]
  | .answer _, machine => [machine]
  | .step action _ next, machine =>
      machine :: (next (action machine).1).moments (action machine).2

/-- A plan, and another one that goes on with its value. -/
protected def bind (plan : Plan First) (continuation : First → Plan Result) : Plan Result :=
  match plan with
  | .exhausted => .exhausted
  | .answer (.ok value) => continuation value
  | .answer (.error error) => .answer (.error error)
  | .step action elementary next =>
      .step action elementary fun result => (next result).bind continuation

/-- A plan, and another one that goes on with its error. -/
protected def tryCatch (plan : Plan Result) (handler : Error → Plan Result) : Plan Result :=
  match plan with
  | .exhausted => .exhausted
  | .answer (.ok value) => .answer (.ok value)
  | .answer (.error error) => handler error
  | .step action elementary next =>
      .step action elementary fun result => (next result).tryCatch handler

instance : Monad Plan where
  pure value := .answer (.ok value)
  bind := Plan.bind

instance : MonadExcept Error Plan where
  throw error := .answer (.error error)
  tryCatch := Plan.tryCatch

/-- The plan of a single step. -/
def perform (action : Action Value) (elementary : Elementary action) : Plan Value :=
  .step action elementary .answer

/-- The plan that looks at the machine and changes nothing. -/
def observe (view : Machine → Except Error Value) : Plan Value :=
  perform (Transition.observe view) (.observe view)

/-- The plan of a step of the operand stack. -/
def onStack (step : Transition OperandStack Value) : Plan Value :=
  perform (Machine.onStack step) (.onStack step)

@[simp] theorem run_pure (value : Result) : (pure value : Plan Result).run = pure value :=
  rfl

@[simp] theorem run_throw (error : Error) : (throw error : Plan Result).run = throw error :=
  rfl

@[simp] theorem run_perform
    (action : Action Value)
    (elementary : Elementary action) :
    (perform action elementary).run = liftM action :=
  rfl

@[simp] theorem run_observe (view : Machine → Except Error Value) :
    (observe view).run = liftM (Transition.observe view : Action Value) :=
  rfl

@[simp] theorem run_onStack (step : Transition OperandStack Value) :
    (onStack step).run = liftM (Machine.onStack step) :=
  rfl

@[simp] theorem run_bind
    (plan : Plan First)
    (continuation : First → Plan Result) :
    (plan >>= continuation).run = plan.run >>= fun value => (continuation value).run := by
  funext machine
  rw [Run.bind_apply]
  induction plan generalizing machine with
  | exhausted =>
      rfl
  | answer result =>
      cases result <;> rfl
  | step action _ _ inductionHypothesis =>
      exact inductionHypothesis (action machine).1 (action machine).2

@[simp] theorem run_tryCatch
    (plan : Plan Result)
    (handler : Error → Plan Result) :
    (tryCatch plan handler).run = tryCatch plan.run fun error => (handler error).run := by
  funext machine
  rw [Run.tryCatch_apply]
  induction plan generalizing machine with
  | exhausted =>
      rfl
  | answer result =>
      cases result <;> rfl
  | step action _ _ inductionHypothesis =>
      exact inductionHypothesis (action machine).1 (action machine).2

/-- A plan starts on the machine that it is given. -/
theorem start_mem_moments
    (plan : Plan Result)
    (machine : Machine) :
    machine ∈ plan.moments machine := by
  cases plan <;> exact List.mem_cons_self

/-- A run that has an answer ends at a moment of its plan. -/
theorem end_mem_moments
    {plan : Plan Result}
    {machine final : Machine}
    {result : Except Error Result}
    (ran : plan.run machine = some (result, final)) :
    final ∈ plan.moments machine := by
  induction plan generalizing machine with
  | exhausted =>
      cases ran
  | answer =>
      cases ran
      exact List.mem_singleton_self _
  | step _ _ _ inductionHypothesis =>
      exact List.mem_cons_of_mem machine (inductionHypothesis _ ran)

/-- A condition that holds at every moment of a plan, whether its run ends or not. -/
def Throughout (holds : Machine → Prop) (plan : Plan Result) (machine : Machine) : Prop :=
  ∀ moment ∈ plan.moments machine, holds moment

/-- A condition that holds throughout a plan on every machine on which it holds. -/
def Preserves (holds : Machine → Prop) (plan : Plan Result) : Prop :=
  ∀ machine, holds machine → plan.Throughout holds machine

variable
  {holds : Machine → Prop}
  {machine : Machine}

namespace Throughout

theorem before
    {plan : Plan Result}
    (throughout : plan.Throughout holds machine) :
    holds machine :=
  throughout machine (plan.start_mem_moments machine)

/-- What holds throughout a plan holds where its run ends. -/
theorem after
    {plan : Plan Result}
    (throughout : plan.Throughout holds machine) :
    plan.run.Ensures machine fun _ final => holds final :=
  fun _ final ran => throughout final (end_mem_moments ran)

theorem after_action
    {plan : Plan Result}
    {action : Action Result}
    (throughout : plan.Throughout holds machine)
    (isRun : plan.run = liftM action) :
    holds (action machine).2 :=
  throughout.after (action machine).1 (action machine).2 (congrFun isRun machine)

theorem exhausted
    (now : holds machine) :
    (exhausted : Plan Result).Throughout holds machine :=
  fun _ member => List.mem_singleton.mp member ▸ now

theorem answer
    (result : Except Error Result)
    (now : holds machine) :
    (answer result).Throughout holds machine :=
  fun _ member => List.mem_singleton.mp member ▸ now

theorem pure
    (value : Result)
    (now : holds machine) :
    (Pure.pure value : Plan Result).Throughout holds machine :=
  .answer (.ok value) now

theorem throw
    (error : Error)
    (now : holds machine) :
    (throw error : Plan Result).Throughout holds machine :=
  .answer (.error error) now

theorem step
    {action : Action Value}
    (elementary : Elementary action)
    {next : Except Error Value → Plan Result}
    (now : holds machine)
    (later : (next (action machine).1).Throughout holds (action machine).2) :
    (Plan.step action elementary next).Throughout holds machine :=
  List.forall_mem_cons.mpr ⟨now, later⟩

theorem perform
    {action : Action Value}
    {elementary : Elementary action}
    (now : holds machine)
    (next : holds (action machine).2) :
    (perform action elementary).Throughout holds machine :=
  .step elementary now (.answer _ next)

theorem observe
    (view : Machine → Except Error Value)
    (now : holds machine) :
    (observe view).Throughout holds machine :=
  .perform now now

/-- A plan goes on where the run of its first part ends. -/
theorem bind
    {plan : Plan First}
    {continuation : First → Plan Result}
    (first : plan.Throughout holds machine)
    (later :
      ∀ value after,
        plan.run machine = some (.ok value, after) →
        (continuation value).Throughout holds after) :
    (plan >>= continuation).Throughout holds machine := by
  induction plan generalizing machine with
  | exhausted =>
      exact .exhausted first.before
  | answer result =>
      cases result with
      | error error =>
          exact .throw error first.before
      | ok value =>
          exact later value machine rfl
  | step action elementary next inductionHypothesis =>
      obtain ⟨now, rest⟩ := List.forall_mem_cons.mp first
      exact .step elementary now (inductionHypothesis _ rest later)

/-- A plan whose first part is the plan of an action. -/
theorem bind_action
    {plan : Plan First}
    {action : Action First}
    {continuation : First → Plan Result}
    (first : plan.Throughout holds machine)
    (isRun : plan.run = liftM action)
    (later :
      ∀ value after,
        holds after →
        action machine = (.ok value, after) →
        (continuation value).Throughout holds after) :
    (plan >>= continuation).Throughout holds machine := by
  refine first.bind fun value after ran => later value after (first.after _ _ ran) ?_
  rw [isRun, Run.liftM_apply, Option.some.injEq] at ran
  exact ran

/-- A plan whose first part is known to succeed. -/
theorem bind_value
    {plan : Plan First}
    {continuation : First → Plan Result}
    {value : First}
    {between : Machine}
    (first : plan.Throughout holds machine)
    (ran : plan.run machine = some (.ok value, between))
    (later : (continuation value).Throughout holds between) :
    (plan >>= continuation).Throughout holds machine := by
  refine first.bind fun other after ranToo => ?_
  rw [ran] at ranToo
  cases ranToo
  exact later

theorem tryCatch
    {plan : Plan Result}
    {handler : Error → Plan Result}
    (first : plan.Throughout holds machine)
    (later :
      ∀ error after,
        plan.run machine = some (.error error, after) →
        (handler error).Throughout holds after) :
    (MonadExcept.tryCatch plan handler).Throughout holds machine := by
  induction plan generalizing machine with
  | exhausted =>
      exact .exhausted first.before
  | answer result =>
      cases result with
      | error error =>
          exact later error machine rfl
      | ok value =>
          exact .pure value first.before
  | step action elementary next inductionHypothesis =>
      obtain ⟨now, rest⟩ := List.forall_mem_cons.mp first
      exact .step elementary now (inductionHypothesis _ rest later)

end Throughout

namespace Preserves

theorem pure (value : Result) : (Pure.pure value : Plan Result).Preserves holds :=
  fun _ now => .pure value now

theorem throw (error : Error) : (throw error : Plan Result).Preserves holds :=
  fun _ now => .throw error now

theorem perform
    {action : Action Value}
    {elementary : Elementary action}
    (keeps : ∀ machine, holds machine → holds (action machine).2) :
    (perform action elementary).Preserves holds :=
  fun machine now => .perform now (keeps machine now)

theorem observe
    (view : Machine → Except Error Value) :
    (observe view).Preserves holds :=
  fun _ now => .observe view now

theorem bind
    {plan : Plan First}
    {continuation : First → Plan Result}
    (first : plan.Preserves holds)
    (later : ∀ value, (continuation value).Preserves holds) :
    (plan >>= continuation).Preserves holds := by
  intro machine now
  have throughout := first machine now
  exact throughout.bind fun value after ran => later value after (throughout.after _ _ ran)

end Preserves

end Plan

end ArenaLisp
