import ArenaLisp.Evaluation.Basic

namespace ArenaLisp

/-!
# Operations step by step

What an operation does is taken apart into its own changes of the machine and what it
asks of the interpreter in between.  An operation may change the machine in any way,
make its steps depend on all that it finds there, go on behind an error of the
interpreter, and answer with any value or any error.

The builtin operations are operations of this kind.
-/

/-- What is left to do for an operation. -/
inductive Conduct where
  /-- Answers with a value or an error. -/
  | answer (result : Except Error Handle)
  /-- Changes the machine, and goes on as the machine was found. -/
  | act (change : Machine → Machine) (next : Machine → Conduct)
  /-- Has an expression evaluated, and goes on with its value or the error. -/
  | evaluate (expression : Handle) (next : Except Error Handle → Conduct)
  /-- Has a callable called, and goes on with the value or the error. -/
  | apply (callee : Handle) (given : Nat) (next : Except Error Handle → Conduct)
  /-- Never answers. -/
  | diverge

/-- The run that answers with what another run returns or fails with. -/
def Run.attempt {Result : Type} (run : Run Result) : Run (Except Error Result) :=
  fun machine => (run machine).map fun (result, after) => (.ok result, after)

namespace Conduct

/-- The run of an operation with a given interpreter. -/
def run (evaluator : Evaluator) : Conduct → Run Handle
  | .answer result => fun machine => some (result, machine)
  | .act change next => fun machine => (next machine).run evaluator (change machine)
  | .evaluate expression next =>
      (evaluator.evaluate expression).attempt >>= fun result => (next result).run evaluator
  | .apply callee given next =>
      (evaluator.apply callee given).attempt >>= fun result => (next result).run evaluator
  | .diverge => Run.exhausted

/-- Whether all changes that an operation makes are of a given kind. -/
def Acts (allowed : (Machine → Machine) → Prop) : Conduct → Prop
  | .answer _ | .diverge => True
  | .act change next => allowed change ∧ ∀ machine, (next machine).Acts allowed
  | .evaluate _ next | .apply _ _ next => ∀ result, (next result).Acts allowed

variable {First : Type}

/-- Goes on with a value, or answers with an error as it is. -/
def goOn (next : First → Conduct) : Except Error First → Conduct
  | .ok value => next value
  | .error error => .answer (.error error)

/-- Takes a step of the machine, and answers with its error if it fails. -/
def step (action : Action First) (next : First → Conduct) : Conduct :=
  .act (fun machine => (action machine).2) fun machine => goOn next (action machine).1

/-- Takes a last step of the machine, and answers with its value or its error. -/
def finish (action : Action Handle) : Conduct :=
  step action fun value => .answer (.ok value)

/-- Has an expression evaluated, and answers with the error if that fails. -/
def evaluated (expression : Handle) (next : Handle → Conduct) : Conduct :=
  .evaluate expression (goOn next)

variable {evaluator : Evaluator}

theorem run_step
    (action : Action First)
    (next : First → Conduct) :
    (step action next).run evaluator =
      (liftM action : Run First) >>= fun value => (next value).run evaluator := by
  funext machine
  have stepped :
      (step action next).run evaluator machine =
        (goOn next (action machine).1).run evaluator (action machine).2 :=
    rfl
  rw [Run.bind_apply, Run.liftM_apply, stepped]
  rcases action machine with ⟨_ | _, _⟩ <;> rfl

theorem run_evaluated
    (expression : Handle)
    (next : Handle → Conduct) :
    (evaluated expression next).run evaluator =
      evaluator.evaluate expression >>= fun value => (next value).run evaluator := by
  funext machine
  rw [evaluated, run, Run.bind_apply, Run.bind_apply, Run.attempt]
  rcases evaluator.evaluate expression machine with _ | ⟨_ | _, _⟩ <;> rfl

theorem run_answer (value : Handle) :
    (answer (.ok value)).run evaluator = (pure value : Run Handle) :=
  rfl

theorem run_finish (action : Action Handle) :
    (finish action).run evaluator = (liftM action : Run Handle) := by
  funext machine
  rw [finish, run_step, Run.bind_apply, Run.liftM_apply]
  rcases action machine with ⟨_ | _, _⟩ <;> rfl

namespace Acts

variable {allowed : (Machine → Machine) → Prop} {next : First → Conduct}

theorem goOn
    (later : ∀ value, (next value).Acts allowed)
    (result : Except Error First) :
    (Conduct.goOn next result).Acts allowed := by
  cases result with
  | ok value =>
      exact later value
  | error error =>
      trivial

theorem step
    {action : Action First}
    (changes : allowed fun machine => (action machine).2)
    (later : ∀ value, (next value).Acts allowed) :
    (Conduct.step action next).Acts allowed :=
  ⟨changes, fun _ => goOn later _⟩

theorem finish
    {action : Action Handle}
    (changes : allowed fun machine => (action machine).2) :
    (Conduct.finish action).Acts allowed :=
  step changes fun _ => trivial

theorem evaluated
    (expression : Handle)
    {next : Handle → Conduct}
    (later : ∀ value, (next value).Acts allowed) :
    (Conduct.evaluated expression next).Acts allowed :=
  goOn later

/-- Changes of two kinds at once are of a third kind, if every such change is. -/
theorem of_both
    {first second both : (Machine → Machine) → Prop}
    (isBoth : ∀ change, first change → second change → both change)
    {conduct : Conduct}
    (acts : conduct.Acts first)
    (also : conduct.Acts second) :
    conduct.Acts both := by
  induction conduct with
  | answer | diverge =>
      trivial
  | act change next inductionHypothesis =>
      exact ⟨isBoth change acts.1 also.1, fun machine =>
        inductionHypothesis machine (acts.2 machine) (also.2 machine)⟩
  | evaluate _ next inductionHypothesis | apply _ _ next inductionHypothesis =>
      exact fun result => inductionHypothesis result (acts result) (also result)

end Acts

end Conduct

namespace Builtin

open Conduct

/-- What a conditional does with as many operands as given. -/
def conditionalConduct (given : Nat) : Conduct :=
  .step (requireArity .conditional 3 given) fun _ =>
    .step (Machine.peek 0) fun otherwise =>
      .step (Machine.peek 1) fun consequent =>
        .step (Machine.peek 2) fun condition =>
          .evaluated condition fun outcome =>
            .step (Machine.look outcome) fun object =>
              .evaluated (if object.isTruthy then consequent else otherwise) fun value =>
                .step (Machine.discard 3) fun _ => .answer (.ok value)

/-- What a definition does once the value of its name is known. -/
def bindingConduct (name : String) (value : Handle) : Conduct :=
  .step (Machine.bindName name value) fun _ =>
    .step (Machine.discard 2) fun _ =>
      .finish (Machine.allocate .void)

/-- What a definition does with as many operands as given. -/
def definitionConduct (given : Nat) : Conduct :=
  .step (requireArity .definition 2 given) fun _ =>
    .step (Machine.peek 0) fun expression =>
      .step (Machine.peek 1) fun nameExpression =>
        .step (Machine.look nameExpression) fun nameObject =>
          match nameObject.symbolName with
          | .error error => .step (Machine.discard 2) fun _ => .answer (.error error)
          | .ok name =>
              .step get fun machine =>
                if machine.eagerDefinitions then
                  .evaluated expression (bindingConduct name)
                else
                  bindingConduct name expression

/-- What a builtin operation does with as many operands as given. -/
def conduct : Builtin → Nat → Conduct
  | .add, given => .finish (addition given)
  | .subtract, given => .finish (subtraction given)
  | .multiply, given => .finish (multiplication given)
  | .equal, given => .finish (comparison .equal (fun left right => left == right) given)
  | .less, given => .finish (comparison .less (fun left right => left < right) given)
  | .greater, given => .finish (comparison .greater (fun left right => left > right) given)
  | .car, given => .finish (selection .car Object.car given)
  | .cdr, given => .finish (selection .cdr Object.cdr given)
  | .conditional, given => conditionalConduct given
  | .definition, given => definitionConduct given

/-- A builtin operation does, step by step, what its procedure does. -/
theorem run_conduct
    (builtin : Builtin)
    (evaluator : Evaluator)
    (given : Nat) :
    (builtin.conduct given).run evaluator = builtin.procedure evaluator given := by
  cases builtin with
  | conditional =>
      simp only [conduct, conditionalConduct, run_step, run_evaluated, run_answer]
      rfl
  | definition =>
      simp only [conduct, definitionConduct, run_step]
      refine bind_congr fun _ => bind_congr fun expression => bind_congr fun _ =>
        bind_congr fun nameObject => ?_
      cases named : nameObject.symbolName with
      | error error =>
          simp only [run_step]
          rfl
      | ok name =>
          have binds
              (value : Handle) :
              (bindingConduct name value).run evaluator = (do
                Machine.bindName name value
                let _ ← Machine.discard 2
                Machine.allocate .void) := by
            simp only [bindingConduct, run_step, run_finish]
          simp only [run_step]
          refine bind_congr fun machine => ?_
          cases machine.eagerDefinitions with
          | true =>
              exact (run_evaluated _ _).trans (bind_congr binds)
          | false =>
              exact binds expression
  | _ =>
      exact run_finish _

end Builtin

/-- What an operation does; the custom ones are given by their keys. -/
def Operation.conduct (customs : String → Nat → Conduct) : Operation → Nat → Conduct
  | .builtin operation => operation.conduct
  | .custom key => customs key

/-- The library of custom operations that are given step by step. -/
def Conduct.library (customs : String → Nat → Conduct) : Library :=
  fun key evaluator given => (customs key given).run evaluator

theorem Operation.run_conduct
    (customs : String → Nat → Conduct)
    (operation : Operation)
    (evaluator : Evaluator)
    (given : Nat) :
    (operation.conduct customs given).run evaluator =
      operation.procedure (Conduct.library customs) evaluator given := by
  cases operation with
  | builtin operation =>
      exact operation.run_conduct evaluator given
  | custom key =>
      rfl

end ArenaLisp
