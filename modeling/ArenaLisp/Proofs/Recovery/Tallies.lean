import ArenaLisp.Proofs.Recovery.Balance

namespace ArenaLisp

/-!
# The interpreter tallies with its account

With and without an account the interpreter gives the same answers, and the account
balances.  The operations of the machine may do anything to its stack and its bindings
and fail with any error: what they leave outstanding, the call hands over.
-/

open Machine

namespace Run

/-- Whatever comes of a run, it is reached by steps of allocations. -/
def AllocatesOnly {Result : Type} (run : Run Result) : Prop :=
  ∀ machine,
    machine.Tame (fun _ => True) →
    run.Ensures machine fun _ after => AllocationSteps (fun _ => True) machine after

namespace AllocatesOnly

variable {First Result : Type}

theorem lift
    {action : Action Result}
    (allocates : OnlyAllocates (fun _ => True) action) :
    AllocatesOnly (liftM action : Run Result) :=
  fun machine tame => .lift (allocates machine tame)

theorem bindReturned
    {run : Run First}
    {continuation : First → Run Result}
    (first : run.AllocatesOnly)
    (returned : ∀ value, run.CanReturn value → (continuation value).AllocatesOnly) :
    (run >>= continuation).AllocatesOnly := by
  intro machine tame
  have can :
      run.Ensures machine fun result _ =>
        ∀ value, result = .ok value → run.CanReturn value := by
    rintro _ after ran value rfl
    exact ⟨machine, after, ran⟩
  refine .bind ((first machine tame).and can) ?_ ?_
  · rintro value between ⟨steps, canReturn⟩
    have later := returned value (canReturn value rfl) between (steps.tame tame)
    exact later.mono fun _ _ laterSteps => steps.trans laterSteps
  · rintro error after ⟨steps, _⟩
    exact steps

/-- Only allocating is a property of the steps of strict operations. -/
theorem steps : CompositionalSteps fun _ run => AllocatesOnly run where
  pure _ := fun _ _ => .pure Relation.ReflTransGen.refl
  throw _ := fun _ _ => .throw Relation.ReflTransGen.refl
  bindReturned := bindReturned
  observe _ := lift (.of_unchanged fun _ => rfl)
  onStack _ := lift (.of_entries fun _ => ⟨_, rfl⟩)
  allocate uncallable _ := lift (.allocate_uncallable uncallable)

end AllocatesOnly

end Run

namespace Observer

open Conduct

variable {Seen First : Type} {observer : Observer Seen}

theorem unnoticed_action
    {action : Action First}
    (allocates : (liftM action : Run First).AllocatesOnly) :
    observer.Unnoticed fun machine => (action machine).2 :=
  observer.unnoticed_of_onlyAllocates fun machine tame =>
    allocates machine tame _ _ (Run.liftM_apply action machine)

theorem acts_binding
    (name : String)
    (value : Handle) :
    (Builtin.bindingConduct name value).Acts observer.Unnoticed :=
  Acts.step (fun machine consistent => ⟨consistent, observer.binding machine name value⟩) fun _ =>
    Acts.step (unnoticed_action (Run.AllocatesOnly.steps.discard 2)) fun _ =>
      Acts.finish (unnoticed_action (Run.AllocatesOnly.steps.allocate rfl rfl))

theorem acts_conditional (given : Nat) :
    (Builtin.conditionalConduct given).Acts observer.Unnoticed := by
  have allocates := Run.AllocatesOnly.steps
  exact Acts.step (unnoticed_action (allocates.requireArity .conditional 3 given)) fun _ =>
    Acts.step (unnoticed_action (allocates.peek 0)) fun _ =>
      Acts.step (unnoticed_action (allocates.peek 1)) fun _ =>
        Acts.step (unnoticed_action (allocates.peek 2)) fun condition =>
          Acts.evaluated condition fun outcome =>
            Acts.step (unnoticed_action (allocates.object outcome)) fun _ =>
              Acts.evaluated _ fun _ =>
                Acts.step (unnoticed_action (allocates.discard 3)) fun _ => trivial

theorem acts_definition (given : Nat) :
    (Builtin.definitionConduct given).Acts observer.Unnoticed := by
  have allocates := Run.AllocatesOnly.steps
  refine Acts.step (unnoticed_action (allocates.requireArity .definition 2 given)) fun _ =>
    Acts.step (unnoticed_action (allocates.peek 0)) fun expression =>
      Acts.step (unnoticed_action (allocates.peek 1)) fun nameExpression =>
        Acts.step (unnoticed_action (allocates.object nameExpression)) fun _ => ?_
  split
  · exact Acts.step (unnoticed_action (allocates.discard 2)) fun _ => trivial
  · refine Acts.step (fun _ consistent => ⟨consistent, rfl⟩) fun machine => ?_
    split
    · exact Acts.evaluated expression (acts_binding _)
    · exact acts_binding _ expression

/-- No builtin operation recovers an error of its own, or breaks the counters. -/
theorem acts_builtin
    (builtin : Builtin)
    (given : Nat) :
    (builtin.conduct given).Acts observer.Unnoticed := by
  have allocates := Run.AllocatesOnly.steps
  cases builtin with
  | add =>
      exact Acts.finish (unnoticed_action (allocates.fold Builtin.sum given))
  | multiply =>
      exact Acts.finish (unnoticed_action (allocates.fold Builtin.product given))
  | subtract =>
      exact Acts.finish (unnoticed_action (allocates.subtraction given))
  | equal | less | greater =>
      exact Acts.finish (unnoticed_action (allocates.comparison _ _ given))
  | car | cdr =>
      exact Acts.finish (unnoticed_action (allocates.selection _ _ given))
  | conditional =>
      exact acts_conditional given
  | definition =>
      exact acts_definition given

/-- An interpreter and the same with an account, and what is asked of it tallies. -/
structure Tallying
    (observer : Observer Seen)
    (recorded : RecordedEvaluator)
    (evaluator : Evaluator) :
    Prop where
  fails : evaluator.FailsFatally
  evaluate :
    ∀ expression,
      observer.Tallies (recorded.evaluate expression) (evaluator.evaluate expression)
  apply :
    ∀ callee given, observer.Tallies (recorded.apply callee given) (evaluator.apply callee given)

namespace Tallies

/-- An operation that answers with an error leaves it outstanding. -/
theorem answer
    {recorded : RecordedEvaluator}
    {evaluator : Evaluator}
    (result : Except Error Handle) :
    observer.Tallies ((Conduct.answer result).record recorded)
      ((Conduct.answer result).run evaluator) := by
  intro ledger consistent
  cases result with
  | ok value =>
      exact Tallies.pure value ledger consistent
  | error error =>
      refine .throw ⟨outstanding (.error error : Except Error Handle), [], ?_, consistent, rfl,
        by simp, rfl⟩
      rw [Conduct.record, Recorded.bind_apply, raise_eq]
      rfl

theorem conduct
    {recorded : RecordedEvaluator}
    {evaluator : Evaluator}
    (tallying : observer.Tallying recorded evaluator)
    (conduct : Conduct)
    (acts : conduct.Acts observer.Unnoticed) :
    observer.Tallies (conduct.record recorded) (conduct.run evaluator) := by
  induction conduct with
  | answer result =>
      exact answer result
  | act change next inductionHypothesis =>
      intro ledger consistent result after ran
      obtain ⟨consistentBetween, same⟩ := acts.1 ledger.machine consistent
      obtain ⟨raised, handed, answered, balances⟩ :=
        inductionHypothesis ledger.machine (acts.2 ledger.machine)
          { ledger with machine := change ledger.machine } consistentBetween result after ran
      exact ⟨raised, handed, answered, balances.consistent, balances.balanced,
        balances.recovered, by rw [balances.seen, same]⟩
  | evaluate expression next inductionHypothesis =>
      exact ((tallying.evaluate expression).attempt (tallying.fails.evaluate expression)).bind
        fun result => inductionHypothesis result (acts result)
  | apply callee given next inductionHypothesis =>
      exact ((tallying.apply callee given).attempt (tallying.fails.apply callee given)).bind
        fun result => inductionHypothesis result (acts result)
  | diverge =>
      exact exhausted

end Tallies

section Interpreter

variable
  {customs : String → Nat → Conduct}
  {recorded : RecordedEvaluator}
  {inner : Evaluator}

theorem action_tallies
    {action : Action First}
    (allocates : (liftM action : Run First).AllocatesOnly)
    (fails : action.FailsFatally) :
    observer.Tallies (liftM action) (liftM action) :=
  .lift (unnoticed_action allocates) fails

theorem look_tallies (handle : Handle) :
    observer.Tallies (liftM (look handle)) (liftM (look handle)) :=
  action_tallies (Run.AllocatesOnly.steps.object handle) (look_failsFatally handle)

theorem push_tallies (handle : Handle) :
    observer.Tallies (liftM (push handle)) (liftM (push handle)) :=
  action_tallies (Run.AllocatesOnly.steps.push handle) (push_failsFatally handle)

theorem pop_tallies : observer.Tallies (liftM pop) (liftM pop) :=
  action_tallies Run.AllocatesOnly.steps.pop pop_failsFatally

theorem discard_tallies (count : Nat) :
    observer.Tallies (liftM (discard count)) (liftM (discard count)) :=
  action_tallies (Run.AllocatesOnly.steps.discard count) (discard_failsFatally count)

theorem evaluateSymbol_tallies (name : String) :
    observer.Tallies (RecordedEvaluator.evaluateSymbol name)
      (liftM (Evaluator.evaluateSymbol name)) := by
  have looksUp : observer.Tallies (liftM (get : Action Machine)) (liftM (get : Action Machine)) :=
    .lift (fun _ consistent => ⟨consistent, rfl⟩) .get
  rw [Evaluator.evaluateSymbol, Run.liftM_bind]
  refine looksUp.bind fun machine => ?_
  cases machine.environment.get? name with
  | some value =>
      exact .pure value
  | none =>
      exact .fail rfl

theorem pushOperands_tallies
    (tallying : observer.Tallying recorded inner)
    (evaluatesOperands : Bool)
    (limit : Nat)
    (chain : Handle)
    (count : Nat) :
    observer.Tallies (recorded.pushOperands evaluatesOperands limit chain count)
      (inner.pushOperands evaluatesOperands limit chain count) := by
  induction limit generalizing chain count with
  | zero =>
      exact .exhausted
  | succ limit inductionHypothesis =>
      refine (look_tallies chain).bind fun cell => ?_
      cases cell.children? with
      | none =>
          exact .pure _
      | some children =>
          cases evaluatesOperands with
          | true =>
              exact (tallying.evaluate children.1).bind fun operand =>
                (push_tallies operand).bind fun _ => inductionHypothesis children.2 (count + 1)
          | false =>
              exact (push_tallies children.1).bind fun _ =>
                inductionHypothesis children.2 (count + 1)

theorem call_tallies
    (tallying : observer.Tallying recorded inner)
    (acts : ∀ key given, (customs key given).Acts observer.Unnoticed)
    (callee : Handle)
    (given : Nat) :
    observer.Tallies (RecordedEvaluator.call customs recorded callee given)
      (Evaluator.call (Conduct.library customs) inner callee given) := by
  refine (look_tallies callee).bind fun object => ?_
  cases object.callable? with
  | none =>
      exact (discard_tallies given).bind fun _ => .fail rfl
  | some callable =>
      have conducts :
          observer.Tallies ((callable.operation.conduct customs given).record recorded)
            (callable.operation.procedure (Conduct.library customs) inner given) := by
        rw [← Operation.run_conduct]
        refine .conduct tallying _ ?_
        cases callable.operation with
        | builtin operation =>
            exact acts_builtin operation given
        | custom key =>
            exact acts key given
      exact conducts.recovering

theorem evaluatePair_tallies
    (tallying : observer.Tallying recorded inner)
    (acts : ∀ key given, (customs key given).Acts observer.Unnoticed)
    (limit : Nat)
    (pair car cdr : Handle) :
    observer.Tallies (RecordedEvaluator.evaluatePair customs recorded limit pair car cdr)
      (Evaluator.evaluatePair (Conduct.library customs) inner limit pair car cdr) := by
  refine (tallying.evaluate car).bind fun head => (look_tallies head).bind fun object => ?_
  cases object.callable? with
  | none =>
      exact .pure pair
  | some callable =>
      refine (push_tallies head).bind fun _ =>
        (pushOperands_tallies tallying callable.evaluatesOperands limit cdr 0).bind fun walk => ?_
      cases walk with
      | malformed count =>
          exact (discard_tallies (count + 1)).bind fun _ => .fail rfl
      | complete count =>
          exact (call_tallies tallying acts head count).bind fun value =>
            pop_tallies.bind fun _ => .pure value

theorem evaluateObject_tallies
    (tallying : observer.Tallying recorded inner)
    (acts : ∀ key given, (customs key given).Acts observer.Unnoticed)
    (limit : Nat)
    (expression : Handle) :
    observer.Tallies (RecordedEvaluator.evaluateObject customs recorded limit expression)
      (Evaluator.evaluateObject (Conduct.library customs) inner limit expression) := by
  have notes :
      observer.Tallies (liftM (note (.evaluating expression)))
        (liftM (note (.evaluating expression))) :=
    .lift (fun machine consistent => ⟨consistent, observer.evaluating machine expression⟩)
      (.modify _)
  refine notes.bind fun _ => (look_tallies expression).bind fun object => ?_
  cases object with
  | symbol name =>
      exact evaluateSymbol_tallies name
  | pair car cdr =>
      exact evaluatePair_tallies tallying acts limit expression car cdr
  | _ =>
      exact .pure expression

/-- The interpreter and the same with an account tally, whatever the nesting limit. -/
theorem evaluator_tallying
    (acts : ∀ key given, (customs key given).Acts observer.Unnoticed)
    (limit : Nat) :
    observer.Tallying (recordedEvaluator customs limit)
      (evaluator (Conduct.library customs) limit) := by
  induction limit with
  | zero =>
      exact ⟨evaluator_failsFatally _ 0, fun _ => .exhausted, fun _ _ => .exhausted⟩
  | succ limit inductionHypothesis =>
      exact ⟨evaluator_failsFatally _ (limit + 1),
        evaluateObject_tallies inductionHypothesis acts limit,
        call_tallies inductionHypothesis acts⟩

theorem evaluateTopLevel_tallies
    (tallying : observer.Tallying recorded inner)
    (expression : Handle) :
    observer.Tallies ((Request.evaluateTopLevel expression).record recorded)
      (evaluateTopLevel inner expression) := by
  have counts : observer.Tallies (liftM stackSize) (liftM stackSize) :=
    .lift (fun _ consistent => ⟨consistent, rfl⟩)
      (Transition.FailsFatally.get.bind fun _ => .pure _)
  have takes
      (value : Handle) :
      observer.Tallies
        (do
          let _ ← pop
          return value)
        (do
          let _ ← pop
          return value) :=
    pop_tallies.bind fun _ => .pure value
  refine (push_tallies expression).bind fun _ => counts.bind fun expected =>
    (tallying.evaluate expression).bind fun value => counts.bind fun entries => ?_
  split
  · exact Tallies.bind (.throw rfl) fun _ => takes value
  · exact takes value

end Interpreter

theorem request_tallies
    {customs : String → Nat → Conduct}
    (acts : ∀ key given, (customs key given).Acts observer.Unnoticed)
    (limit : Nat)
    (request : Request) :
    observer.Tallies (request.record (recordedEvaluator customs limit))
      (request.run (evaluator (Conduct.library customs) limit)) := by
  have tallying : observer.Tallying _ _ := evaluator_tallying acts limit
  cases request with
  | evaluate expression =>
      exact tallying.evaluate expression
  | apply callee given =>
      exact tallying.apply callee given
  | evaluateTopLevel expression =>
      exact evaluateTopLevel_tallies tallying expression

end Observer

end ArenaLisp
