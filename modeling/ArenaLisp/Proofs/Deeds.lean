import ArenaLisp.Proofs.CollectionFrame
import ArenaLisp.Proofs.ElementarySteps
import ArenaLisp.Proofs.Recovery.Account

namespace ArenaLisp

/-!
# Deeds

What can be done to a machine, one deed after the other: something is evaluated, applied
or read and evaluated, an error is recovered, the diagnostics are taken, or the machine is
changed by some other means.

A relation between machines that holds along every single step holds along every deed,
whatever the machine is like: nothing is assumed of its counters, of the number of its
slots or of its stack.  The custom operations may do whatever the relation allows.
-/

namespace Machine

/--
A relation that holds along every single step that recovers nothing, and along steps one
after the other.
-/
structure HoldsAlongSteps (relates : Machine → Machine → Prop) : Prop where
  refl : ∀ machine, relates machine machine
  trans :
    ∀ {before between after},
      relates before between → relates between after → relates before after
  entries : ∀ machine entries, relates machine (machine.withEntries entries)
  reserving : ∀ machine, relates machine (reserve machine).2
  placing : ∀ object machine, relates machine (place object machine).2
  evaluating : ∀ machine expression, relates machine (machine.record (.evaluating expression))
  binding : ∀ machine name value, relates machine (machine.binding name value)

/-- A relation that holds along every single step, recoveries included. -/
structure HoldsAlongRuns (relates : Machine → Machine → Prop) : Prop
    extends HoldsAlongSteps relates where
  remembering :
    ∀ machine error, error.isFatal = false → relates machine (machine.remembering error)

/-- Whether a relation holds between every machine and the changed one. -/
def LeadsTo (relates : Machine → Machine → Prop) (change : Machine → Machine) : Prop :=
  ∀ machine, relates machine (change machine)

end Machine

open Machine

/-- Whether a relation holds between the start of an action and its end. -/
def ActsWithin
    {Result : Type}
    (relates : Machine → Machine → Prop)
    (action : Action Result) :
    Prop :=
  ∀ machine, relates machine (action machine).2

/-- Whether a relation holds between the start of a run and its end. -/
def RunsWithin
    {Result : Type}
    (relates : Machine → Machine → Prop)
    (run : Run Result) :
    Prop :=
  ∀ machine, run.Ensures machine fun _ after => relates machine after

/-- An interpreter along all of whose runs a relation holds. -/
structure Evaluator.StaysWithin
    (relates : Machine → Machine → Prop)
    (evaluator : Evaluator) :
    Prop where
  evaluate : ∀ expression, RunsWithin relates (evaluator.evaluate expression)
  apply : ∀ callee given, RunsWithin relates (evaluator.apply callee given)

namespace RunsWithin

variable {relates : Machine → Machine → Prop} {Result : Type}

theorem exhausted : RunsWithin relates (Run.exhausted : Run Result) :=
  fun _ => .exhausted

theorem lift
    {action : Action Result}
    (acts : ActsWithin relates action) :
    RunsWithin relates (liftM action : Run Result) :=
  fun machine => .lift (acts machine)

theorem attempt
    {run : Run Result}
    (runs : RunsWithin relates run) :
    RunsWithin relates run.attempt := by
  intro machine result after ran
  rw [Run.attempt, Option.map_eq_some_iff] at ran
  obtain ⟨⟨inner, last⟩, answered, same⟩ := ran
  cases same
  exact runs machine inner after answered

end RunsWithin

/-- An action that is a run along which a relation holds. -/
theorem ActsWithin.of_run
    {Result : Type}
    {relates : Machine → Machine → Prop}
    {action : Action Result}
    (runs : RunsWithin relates (liftM action : Run Result)) :
    ActsWithin relates action :=
  fun machine => runs machine _ _ (Run.liftM_apply action machine)

/-- A step of an operation may be any action along which the relation holds. -/
theorem Conduct.Acts.step_within
    {First : Type}
    {relates : Machine → Machine → Prop}
    {action : Action First}
    {next : First → Conduct}
    (acts : ActsWithin relates action)
    (later : ∀ value, (next value).Acts (LeadsTo relates)) :
    (Conduct.step action next).Acts (LeadsTo relates) :=
  .step acts later

namespace Machine.HoldsAlongSteps

variable
  {relates : Machine → Machine → Prop}
  (holds : HoldsAlongSteps relates)
  {First Result : Type}

include holds

theorem unchanged
    {action : Action Result}
    (same : ∀ machine, (action machine).2 = machine) :
    ActsWithin relates action := by
  intro machine
  rw [same]
  exact holds.refl machine

theorem bind_action
    {action : Action First}
    {continuation : First → Action Result}
    (first : ActsWithin relates action)
    (returned : ∀ value, ActsWithin relates (continuation value)) :
    ActsWithin relates (action >>= continuation) := by
  intro machine
  have along := first machine
  rw [Transition.bind_apply]
  generalize action machine = answer at along ⊢
  obtain ⟨_ | value, between⟩ := answer
  · exact along
  · exact holds.trans along (returned value between)

theorem push (handle : Handle) : ActsWithin relates (push handle) :=
  fun machine => holds.entries machine _

theorem pop : ActsWithin relates pop :=
  fun machine => holds.entries machine _

theorem discard (count : Nat) : ActsWithin relates (discard count) :=
  fun machine => holds.entries machine _

theorem look (handle : Handle) : ActsWithin relates (look handle) :=
  holds.unchanged fun _ => rfl

theorem allocate (object : Object) : ActsWithin relates (allocate object) :=
  holds.bind_action holds.reserving fun _ => holds.placing object

theorem consFromStack : ActsWithin relates consFromStack :=
  holds.bind_action holds.reserving fun _ =>
    holds.bind_action holds.pop fun _ =>
      holds.bind_action holds.pop fun _ => holds.placing _

theorem reading : CompositionalActions fun _ action => ActsWithin relates action where
  pure _ := holds.unchanged fun _ => rfl
  throw _ := holds.unchanged fun _ => rfl
  bind := holds.bind_action
  push := holds.push
  allocate _ := holds.allocate _
  consFromStack := holds.consFromStack
  cleanup _ acts := by
    intro machine
    have along := acts machine
    unfold cleaningUp
    split <;> rename_i answered <;> rw [answered] at along
    · exact along
    · exact holds.trans along (holds.entries _ _)

theorem pure (result : Result) : RunsWithin relates (Pure.pure result : Run Result) :=
  fun machine => .pure (holds.refl machine)

theorem throw (error : Error) :
    RunsWithin relates (MonadExcept.throw error : Run Result) :=
  fun machine => .throw (holds.refl machine)

theorem bind
    {run : Run First}
    {continuation : First → Run Result}
    (first : RunsWithin relates run)
    (returned : ∀ value, RunsWithin relates (continuation value)) :
    RunsWithin relates (run >>= continuation) :=
  fun machine =>
    .bind (first machine)
      (fun value between along =>
        (returned value between).mono fun _ _ later => holds.trans along later)
      fun _ _ along => along

theorem tryCatch
    {run : Run Result}
    {handler : Error → Run Result}
    (first : RunsWithin relates run)
    (failed : ∀ error, RunsWithin relates (handler error)) :
    RunsWithin relates (tryCatch run handler) :=
  fun machine =>
    .tryCatch (first machine) (fun _ _ along => along) fun error between along =>
      (failed error between).mono fun _ _ later => holds.trans along later

theorem steps : CompositionalSteps fun _ run => RunsWithin relates run where
  pure := holds.pure
  throw := holds.throw
  bindReturned {_ _ run continuation} first returned := by
    intro machine
    have can :
        run.Ensures machine fun result _ =>
          ∀ value, result = .ok value → run.CanReturn value := by
      rintro _ after ran value rfl
      exact ⟨machine, after, ran⟩
    refine .bind ((first machine).and can) ?_ fun _ _ found => found.1
    rintro value between ⟨along, canReturn⟩
    exact (returned value (canReturn value rfl) between).mono fun _ _ later =>
      holds.trans along later
  observe _ := .lift (holds.unchanged fun _ => rfl)
  onStack _ := .lift fun machine => holds.entries machine _
  allocate _ _ := .lift (holds.allocate _)

theorem binding_acts
    (name : String)
    (value : Handle) :
    (Builtin.bindingConduct name value).Acts (LeadsTo relates) :=
  .step_within (fun machine => holds.binding machine name value) fun _ =>
    .step_within (holds.discard 2) fun _ => .finish (holds.allocate .void)

theorem conditional_acts (given : Nat) :
    (Builtin.conditionalConduct given).Acts (LeadsTo relates) :=
  .step_within (.of_run (holds.steps.requireArity .conditional 3 given)) fun _ =>
    .step_within (.of_run (holds.steps.peek 0)) fun _ =>
      .step_within (.of_run (holds.steps.peek 1)) fun _ =>
        .step_within (.of_run (holds.steps.peek 2)) fun condition =>
          .evaluated condition fun outcome =>
            .step_within (holds.look outcome) fun _ =>
              .evaluated _ fun _ => .step_within (holds.discard 3) fun _ => trivial

theorem definition_acts (given : Nat) :
    (Builtin.definitionConduct given).Acts (LeadsTo relates) := by
  refine .step_within (.of_run (holds.steps.requireArity .definition 2 given)) fun _ =>
    .step_within (.of_run (holds.steps.peek 0)) fun expression =>
      .step_within (.of_run (holds.steps.peek 1)) fun nameExpression =>
        .step_within (holds.look nameExpression) fun _ => ?_
  split
  · exact .step_within (holds.discard 2) fun _ => trivial
  · refine .step_within (holds.unchanged fun _ => rfl) fun machine => ?_
    split
    · exact .evaluated expression (holds.binding_acts _)
    · exact holds.binding_acts _ expression

/-- Whatever holds along every step, the builtin operations act within it. -/
theorem builtin_acts
    (builtin : Builtin)
    (given : Nat) :
    (builtin.conduct given).Acts (LeadsTo relates) := by
  cases builtin with
  | add =>
      exact .finish (ActsWithin.of_run (holds.steps.fold Builtin.sum given))
  | multiply =>
      exact .finish (ActsWithin.of_run (holds.steps.fold Builtin.product given))
  | subtract =>
      exact .finish (ActsWithin.of_run (holds.steps.subtraction given))
  | equal | less | greater =>
      exact .finish (ActsWithin.of_run (holds.steps.comparison _ _ given))
  | car | cdr =>
      exact .finish (ActsWithin.of_run (holds.steps.selection _ _ given))
  | conditional =>
      exact holds.conditional_acts given
  | definition =>
      exact holds.definition_acts given

/-- By induction on what an operation has left to do. -/
theorem conduct
    {evaluator : Evaluator}
    (stays : evaluator.StaysWithin relates)
    {conduct : Conduct}
    (acts : conduct.Acts (LeadsTo relates)) :
    RunsWithin relates (conduct.run evaluator) := by
  induction conduct with
  | answer result =>
      exact fun machine => .of_answer rfl (holds.refl machine)
  | act change next inductionHypothesis =>
      intro machine
      have later := inductionHypothesis machine (acts.2 machine) (change machine)
      exact Run.Ensures.of_eq rfl
        (later.mono fun _ _ along => holds.trans (acts.1 machine) along)
  | evaluate expression next inductionHypothesis =>
      exact holds.bind (.attempt (stays.evaluate expression)) fun result =>
        inductionHypothesis result (acts result)
  | apply callee given next inductionHypothesis =>
      exact holds.bind (.attempt (stays.apply callee given)) fun result =>
        inductionHypothesis result (acts result)
  | diverge =>
      exact .exhausted

end Machine.HoldsAlongSteps

namespace Machine.HoldsAlongRuns

variable
  {relates : Machine → Machine → Prop}
  (holds : HoldsAlongRuns relates)

include holds

theorem recover (error : Error) : ActsWithin relates (recover error) := by
  intro machine
  cases severity : error.isFatal with
  | true =>
      rw [recover_fatal severity]
      exact holds.refl machine
  | false =>
      rw [recover_recoverable severity]
      exact holds.trans (holds.remembering machine error severity) (holds.allocate .void _)

section Interpreter

variable
  {customs : String → Nat → Conduct}
  {inner : Evaluator}
  (stays : inner.StaysWithin relates)

theorem evaluateSymbol (name : String) :
    RunsWithin relates (liftM (Evaluator.evaluateSymbol name) : Run Handle) := by
  rw [Evaluator.evaluateSymbol_eq]
  refine .lift (holds.bind_action (holds.unchanged fun _ => rfl) fun found => ?_)
  cases found with
  | none =>
      exact holds.recover _
  | some value =>
      exact holds.unchanged fun _ => rfl

include stays

theorem pushOperands
    (evaluatesOperands : Bool)
    (limit : Nat)
    (chain : Handle)
    (count : Nat) :
    RunsWithin relates (inner.pushOperands evaluatesOperands limit chain count) := by
  induction limit generalizing chain count with
  | zero =>
      exact .exhausted
  | succ limit inductionHypothesis =>
      have goesOn
          (rest operand : Handle) :
          RunsWithin relates (inner.pushAndGoOn evaluatesOperands limit rest count operand) :=
        holds.bind (.lift (holds.push operand)) fun _ => inductionHypothesis rest (count + 1)
      refine holds.bind (.lift (holds.look chain)) fun cell => ?_
      split
      · cases evaluatesOperands with
        | true =>
            exact holds.bind (stays.evaluate _) (goesOn _)
        | false =>
            exact goesOn _ _
      · exact holds.pure _

variable (acts : ∀ key given, (customs key given).Acts (LeadsTo relates))

include acts

theorem call
    (callee : Handle)
    (given : Nat) :
    RunsWithin relates (Evaluator.call (Conduct.library customs) inner callee given) := by
  refine holds.bind (.lift (holds.look callee)) fun object => ?_
  split
  · rename_i callable _
    have conducts :
        RunsWithin relates
          (callable.operation.procedure (Conduct.library customs) inner given) := by
      rw [← Operation.run_conduct]
      cases callable.operation with
      | builtin operation =>
          exact holds.conduct stays (holds.builtin_acts operation given)
      | custom key =>
          exact holds.conduct stays (acts key given)
    exact holds.tryCatch conducts fun error => .lift (holds.recover error)
  · exact holds.bind (.lift (holds.discard given)) fun _ => .lift (holds.recover _)

theorem evaluatePair
    (limit : Nat)
    (pair car cdr : Handle) :
    RunsWithin relates
      (Evaluator.evaluatePair (Conduct.library customs) inner limit pair car cdr) := by
  refine holds.bind (stays.evaluate car) fun head =>
    holds.bind (.lift (holds.look head)) fun object => ?_
  split
  · exact holds.pure pair
  · refine holds.bind (.lift (holds.push head)) fun _ =>
      holds.bind (holds.pushOperands stays _ limit cdr 0) fun walk => ?_
    split
    · exact holds.bind (.lift (holds.discard _)) fun _ => .lift (holds.recover _)
    · exact holds.bind (holds.call stays acts head _) fun value =>
        holds.bind (.lift holds.pop) fun _ => holds.pure value

theorem evaluateObject
    (limit : Nat)
    (expression : Handle) :
    RunsWithin relates
      (Evaluator.evaluateObject (Conduct.library customs) inner limit expression) := by
  have notes : ActsWithin relates (note (.evaluating expression)) :=
    fun machine => holds.evaluating machine expression
  refine holds.bind (.lift notes) fun _ =>
    holds.bind (.lift (holds.look expression)) fun object => ?_
  split
  · exact holds.evaluateSymbol _
  · exact holds.evaluatePair stays acts limit expression _ _
  · exact holds.pure expression

omit stays in
/-- By induction on the nesting limit. -/
theorem evaluator
    (limit : Nat) :
    (ArenaLisp.evaluator (Conduct.library customs) limit).StaysWithin relates := by
  induction limit with
  | zero =>
      exact ⟨fun _ => .exhausted, fun _ _ => .exhausted⟩
  | succ limit inductionHypothesis =>
      exact ⟨holds.evaluateObject inductionHypothesis acts limit,
        holds.call inductionHypothesis acts⟩

omit acts in
theorem evaluateTopLevel (expression : Handle) :
    RunsWithin relates (Machine.evaluateTopLevel inner expression) := by
  have sized : RunsWithin relates (liftM stackSize : Run Nat) :=
    .lift (holds.unchanged fun _ => rfl)
  have pops
      (value : Handle) :
      RunsWithin relates (do
        let _ ← Machine.pop
        return value : Run Handle) :=
    holds.bind (.lift holds.pop) fun _ => holds.pure value
  refine holds.bind (.lift (holds.push expression)) fun _ => holds.bind sized fun expected =>
    holds.bind (stays.evaluate expression) fun value => holds.bind sized fun entries => ?_
  split
  · exact holds.bind (holds.throw _) fun _ => pops value
  · exact pops value

omit acts in
/-- By induction on the length of the text. -/
theorem evaluateRest (reader : Reader) :
    RunsWithin relates (Machine.evaluateRest inner reader) := by
  induction size : reader.text.length using Nat.strongRecOn generalizing reader with
  | ind size inductionHypothesis =>
      subst size
      rw [Machine.evaluateRest_run]
      have reads : RunsWithin relates (liftM reader.nextExpression : Run _) :=
        .lift (holds.reading.nextExpression reader)
      refine holds.steps.bindReturned reads fun found isFound => ?_
      cases found with
      | none =>
          exact holds.pure []
      | some next =>
          obtain ⟨expression, rest⟩ := next
          have shorter : rest.text.length < reader.text.length := by
            obtain ⟨machine, after, answered⟩ := isFound
            rw [Run.liftM_apply, Option.some.injEq] at answered
            exact Reader.nextExpression_shorter (congrArg Prod.fst answered)
          refine holds.bind (holds.evaluateTopLevel stays expression) fun value => ?_
          rw [concludeFirst_run]
          exact holds.bind (.lift (holds.unchanged fun _ => rfl)) fun text =>
            holds.bind (inductionHypothesis _ shorter rest rfl) fun texts => holds.pure _

end Interpreter

end Machine.HoldsAlongRuns

/-- One thing that is done to a machine. -/
inductive Deed where
  /-- Something is asked of the interpreter with a nesting limit. -/
  | request (limit : Nat) (asked : Request)
  /-- A text is read and evaluated, with a nesting limit. -/
  | text (limit : Nat) (source : String)
  | recover (error : Error)
  | takeDiagnostics
  /-- The machine is changed by other means. -/
  | act (change : Machine → Machine)

namespace Deed

/-- The machine after a deed, whatever answer it gave; there is none if it never ends. -/
def run (customs : String → Nat → Conduct) : Deed → Machine → Option Machine
  | .request limit asked, machine =>
      (asked.run (evaluator (Conduct.library customs) limit) machine).map Prod.snd
  | .text limit source, machine =>
      (evaluateText (evaluator (Conduct.library customs) limit) source machine).map Prod.snd
  | .recover error, machine => some (Machine.recover error machine).2
  | .takeDiagnostics, machine => some machine.takeDiagnostics.2
  | .act change, machine => some (change machine)

/-- The machine after some deeds, one after the other. -/
def runAll (customs : String → Nat → Conduct) : List Deed → Machine → Option Machine
  | [], machine => some machine
  | deed :: rest, machine => (deed.run customs machine).bind (runAll customs rest)

/-- Whether the change that a deed makes by other means, if it does, is of a given kind. -/
def Acts (allowed : (Machine → Machine) → Prop) : Deed → Prop
  | .act change => allowed change
  | .request _ _ | .text _ _ | .recover _ | .takeDiagnostics => True

variable
  {customs : String → Nat → Conduct}
  {relates : Machine → Machine → Prop}
  {machine after : Machine}

/-- What holds along every step holds along a deed that takes no diagnostics. -/
theorem run_within
    (holds : HoldsAlongRuns relates)
    (acts : ∀ key given, (customs key given).Acts (LeadsTo relates))
    (deed : Deed)
    (acted : deed.Acts (LeadsTo relates))
    (taking : deed = .takeDiagnostics → relates machine machine.takeDiagnostics.2)
    (ran : deed.run customs machine = some after) :
    relates machine after := by
  have stays (limit : Nat) := holds.evaluator acts limit
  cases deed with
  | request limit asked =>
      obtain ⟨⟨result, last⟩, answered, rfl⟩ := Option.map_eq_some_iff.mp ran
      cases asked with
      | evaluate expression =>
          exact (stays limit).evaluate expression machine result last answered
      | apply callee given =>
          exact (stays limit).apply callee given machine result last answered
      | evaluateTopLevel expression =>
          exact holds.evaluateTopLevel (stays limit) expression machine result last answered
  | text limit source =>
      obtain ⟨⟨result, last⟩, answered, rfl⟩ := Option.map_eq_some_iff.mp ran
      exact holds.evaluateRest (stays limit) (Reader.ofString source) machine result last answered
  | recover error =>
      cases ran
      exact holds.recover error machine
  | takeDiagnostics =>
      cases ran
      exact taking rfl
  | act change =>
      cases ran
      exact acted machine

/-- By induction on the deeds, for a relation that the taking of diagnostics does not break. -/
theorem runAll_within
    (holds : HoldsAlongRuns relates)
    (taking : ∀ machine, relates machine machine.takeDiagnostics.2)
    (acts : ∀ key given, (customs key given).Acts (LeadsTo relates))
    {deeds : List Deed}
    (acted : ∀ deed ∈ deeds, deed.Acts (LeadsTo relates))
    (ran : runAll customs deeds machine = some after) :
    relates machine after := by
  induction deeds generalizing machine with
  | nil =>
      cases ran
      exact holds.refl after
  | cons deed rest inductionHypothesis =>
      obtain ⟨between, ranFirst, ranRest⟩ := Option.bind_eq_some_iff.mp ran
      exact holds.trans
        (run_within holds acts deed (acted deed List.mem_cons_self) (fun _ => taking machine)
          ranFirst)
        (inductionHypothesis (fun later member => acted later (.tail deed member)) ranRest)

end Deed

end ArenaLisp
