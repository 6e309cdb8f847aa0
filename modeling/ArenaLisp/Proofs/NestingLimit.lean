import ArenaLisp.Proofs.ElementarySteps

namespace ArenaLisp

/-!
# The nesting limit

A larger limit changes no answer: if an evaluation gives one within some limit, it
gives the same one, with the same machine, within every larger limit.  So an
expression has at most one value, and the limit only decides whether it is found.

Custom operations are free to look at the limit.  The machine must not have them.
-/

open Machine

/-- Another run gives every answer that a first one gives on machines without customs. -/
def Run.ExtendedBy {Result : Type} (run larger : Run Result) : Prop :=
  ∀ machine,
    machine.Tame IsBuiltin →
    run.Ensures machine fun result after =>
      larger machine = some (result, after) ∧ after.Tame IsBuiltin

/-- Another interpreter gives every value that a first one gives. -/
def Evaluator.ExtendedBy (evaluator larger : Evaluator) : Prop :=
  ∀ expression, (evaluator.evaluate expression).ExtendedBy (larger.evaluate expression)

namespace Run.ExtendedBy

variable {First Result : Type}

theorem answered
    {run larger : Run Result}
    (extended : run.ExtendedBy larger)
    {machine : Machine}
    (tame : machine.Tame IsBuiltin)
    {answer : Except Error Result × Machine}
    (ran : run machine = some answer) :
    larger machine = some answer :=
  (extended machine tame answer.1 answer.2 ran).1

theorem exhausted
    {larger : Run Result} :
    (Run.exhausted : Run Result).ExtendedBy larger :=
  fun _ _ => .exhausted

/-- A run that meets no limit of its own is extended by itself. -/
theorem of_evaluates
    {run : Run Result}
    (evaluates : OnlyEvaluates IsBuiltin run) :
    run.ExtendedBy run :=
  fun machine tame result after ran =>
    ⟨ran, (evaluates machine tame result after ran).tame tame⟩

theorem bind
    {run larger : Run First}
    {continuation largerContinuation : First → Run Result}
    (first : run.ExtendedBy larger)
    (returned : ∀ value, (continuation value).ExtendedBy (largerContinuation value)) :
    (run >>= continuation).ExtendedBy (larger >>= largerContinuation) := by
  intro machine tame
  refine .bind (first machine tame) ?_ ?_
  · intro value between firstExtended result after ran
    obtain ⟨sameFirst, tameBetween⟩ := firstExtended
    rw [bind_apply, sameFirst]
    exact returned value between tameBetween result after ran
  · intro error after failed
    obtain ⟨sameFailure, tameAfter⟩ := failed
    rw [bind_apply, sameFailure]
    exact ⟨rfl, tameAfter⟩

theorem tryCatch
    {run larger : Run Result}
    {handler : Error → Run Result}
    (first : run.ExtendedBy larger)
    (handled : ∀ error, (handler error).ExtendedBy (handler error)) :
    (MonadExcept.tryCatch run handler).ExtendedBy (MonadExcept.tryCatch larger handler) := by
  intro machine tame
  refine .tryCatch (first machine tame) ?_ ?_
  · intro value after returned
    obtain ⟨sameValue, tameAfter⟩ := returned
    rw [tryCatch_apply, sameValue]
    exact ⟨rfl, tameAfter⟩
  · intro error between failed result after ran
    obtain ⟨sameFailure, tameBetween⟩ := failed
    rw [tryCatch_apply, sameFailure]
    exact handled error between tameBetween result after ran

/-- Whatever is looked at runs a builtin operation if it can be called. -/
theorem look
    (handle : Handle)
    {continuation largerContinuation : Object → Run Result}
    (found :
      ∀ object,
        (∀ callable, object.callable? = some callable → IsBuiltin callable.operation) →
        (continuation object).ExtendedBy (largerContinuation object)) :
    ((liftM (Machine.look handle) : Run Object) >>= continuation).ExtendedBy
      ((liftM (Machine.look handle) : Run Object) >>= largerContinuation) := by
  intro machine tame
  rw [Ensures]
  simp only [bind_apply, liftM_apply]
  cases isObject : machine.heap.get? handle with
  | none =>
      have dangling :
          Machine.look handle machine =
            (.error (.internal (.danglingHandle handle)), machine) := by
        simp [Machine.look, Transition.observe, object, isObject]
      rw [dangling]
      intro result after ran
      exact ⟨ran, by cases ran; exact tame⟩
  | some object =>
      rw [look_found isObject]
      have known := tame.runsOnly handle object
      exact found object (fun callable => known callable isObject) machine tame

end Run.ExtendedBy

namespace Evaluator.ExtendedBy

-- Everything but the evaluations themselves is the same within every limit.
open OnlyEvaluates (compositional)

variable {inner larger : Evaluator}

section Forms

variable (extended : inner.ExtendedBy larger)

include extended

theorem conditionalForm (given : Nat) :
    (Builtin.conditionalForm inner given).ExtendedBy (Builtin.conditionalForm larger given) :=
  .bind (.of_evaluates (compositional.requireArity .conditional 3 given)) fun _ =>
    .bind (.of_evaluates (compositional.peek 0)) fun _ =>
      .bind (.of_evaluates (compositional.peek 1)) fun _ =>
        .bind (.of_evaluates (compositional.peek 2)) fun condition =>
          .bind (extended condition) fun outcome =>
            .bind (.of_evaluates (compositional.object outcome)) fun _ =>
              .bind (extended _) fun value =>
                .bind (.of_evaluates (compositional.discard 3)) fun _ =>
                  .of_evaluates (compositional.pure value)

theorem definitionForm (given : Nat) :
    (Builtin.definitionForm inner given).ExtendedBy (Builtin.definitionForm larger given) := by
  refine .bind (.of_evaluates (compositional.requireArity .definition 2 given)) fun _ =>
    .bind (.of_evaluates (compositional.peek 0)) fun expression =>
      .bind (.of_evaluates (compositional.peek 1)) fun nameExpression =>
        .bind (.of_evaluates (compositional.object nameExpression)) fun nameObject => ?_
  split
  · exact .of_evaluates (compositional.bind (compositional.discard 2) fun _ =>
      compositional.throw _)
  · rename_i name _
    let conclude (value : Handle) : Run Handle := do
      Machine.bindName name value
      let _ ← Machine.discard 2
      Machine.allocate .void
    have concludes
        (value : Handle) :
        (conclude value).ExtendedBy (conclude value) :=
      .of_evaluates (compositional.bind (compositional.bindName name value) fun _ =>
        compositional.bind (compositional.discard 2) fun _ => compositional.allocate rfl rfl)
    have binds
        (eager : Bool) :
        (if eager then inner.evaluate expression >>= conclude else conclude expression).ExtendedBy
          (if eager then larger.evaluate expression >>= conclude else conclude expression) := by
      cases eager with
      | true =>
          exact .bind (extended expression) concludes
      | false =>
          exact concludes expression
    have asks : OnlyEvaluates IsBuiltin (liftM (Transition.observe fun machine : Machine =>
        .ok machine.eagerDefinitions) : Run Bool) :=
      compositional.observe fun _ _ _ => rfl
    have decides := Run.ExtendedBy.bind (.of_evaluates asks) binds
    exact decides

theorem procedure
    (builtin : Builtin)
    (given : Nat) :
    (builtin.procedure inner given).ExtendedBy (builtin.procedure larger given) := by
  cases builtin with
  | conditional =>
      exact extended.conditionalForm given
  | definition =>
      exact extended.definitionForm given
  | _ =>
      exact .of_evaluates (compositional.strict rfl inner given)

end Forms

section Interpreter

variable (extended : inner.ExtendedBy larger)

include extended

theorem pushOperands
    (evaluatesOperands : Bool)
    {limit largerLimit : Nat}
    (within : limit ≤ largerLimit)
    (chain : Handle)
    (count : Nat) :
    (inner.pushOperands evaluatesOperands limit chain count).ExtendedBy
      (larger.pushOperands evaluatesOperands largerLimit chain count) := by
  induction limit generalizing largerLimit chain count with
  | zero =>
      exact .exhausted
  | succ limit inductionHypothesis =>
      obtain ⟨largerLimit, rfl⟩ := Nat.exists_eq_add_one_of_ne_zero (Nat.ne_zero_of_lt within)
      refine .bind (.of_evaluates (compositional.object chain)) fun cell => ?_
      split
      · rename_i car cdr _
        have goesOn
            (operand : Handle) :
            (inner.pushAndGoOn evaluatesOperands limit cdr count operand).ExtendedBy
              (larger.pushAndGoOn evaluatesOperands largerLimit cdr count operand) :=
          .bind (.of_evaluates (compositional.push operand)) fun _ =>
            inductionHypothesis (Nat.le_of_succ_le_succ within) cdr (count + 1)
        cases evaluatesOperands with
        | true =>
            exact .bind (extended car) goesOn
        | false =>
            exact goesOn car
      · exact .of_evaluates (compositional.pure _)

theorem call
    (library : Library)
    (callee : Handle)
    (given : Nat) :
    (Evaluator.call library inner callee given).ExtendedBy
      (Evaluator.call library larger callee given) := by
  refine .look callee fun object isBuiltin => ?_
  split
  · rename_i callable isCallable
    obtain ⟨builtin, isOperation⟩ := isBuiltin callable isCallable
    rw [isOperation]
    exact .tryCatch (extended.procedure builtin given) fun error =>
      .of_evaluates (compositional.recover error)
  · exact .of_evaluates (compositional.bind (compositional.discard given) fun _ =>
      compositional.recover _)

theorem concludeWalk
    (library : Library)
    (callee : Handle)
    (walk : OperandWalk) :
    (Evaluator.concludeWalk library inner callee walk).ExtendedBy
      (Evaluator.concludeWalk library larger callee walk) := by
  cases walk with
  | malformed count =>
      exact .of_evaluates (compositional.bind (compositional.discard (count + 1)) fun _ =>
        compositional.recover _)
  | complete count =>
      exact .bind (extended.call library callee count) fun value =>
        .of_evaluates (compositional.bind compositional.pop fun _ => compositional.pure value)

theorem evaluateObject
    (library : Library)
    {limit largerLimit : Nat}
    (within : limit ≤ largerLimit)
    (expression : Handle) :
    (Evaluator.evaluateObject library inner limit expression).ExtendedBy
      (Evaluator.evaluateObject library larger largerLimit expression) := by
  have concludes
      (cdr head : Handle) :
      (concludeHead library inner limit expression cdr head).ExtendedBy
        (concludeHead library larger largerLimit expression cdr head) := by
    refine .bind (.of_evaluates (compositional.object head)) fun object => ?_
    split
    · exact .of_evaluates (compositional.pure expression)
    · rename_i callable _
      exact .bind (.of_evaluates (compositional.push head)) fun _ =>
        .bind (extended.pushOperands callable.evaluatesOperands within cdr 0)
          (extended.concludeWalk library head)
  refine .bind (.of_evaluates (compositional.evaluating expression)) fun _ =>
    .bind (.of_evaluates (compositional.object expression)) fun object => ?_
  split
  · exact .of_evaluates (compositional.evaluateSymbol _)
  · exact .bind (extended _) (concludes _)
  · exact .of_evaluates (compositional.pure expression)

theorem evaluateTopLevel (expression : Handle) :
    (Machine.evaluateTopLevel inner expression).ExtendedBy
      (Machine.evaluateTopLevel larger expression) := by
  have sized : OnlyEvaluates IsBuiltin (liftM (Transition.observe fun machine : Machine =>
      .ok machine.stack.size) : Run Nat) :=
    compositional.observe fun _ _ _ => rfl
  have concludes
      (expected : Nat)
      (value : Handle) :
      OnlyEvaluates IsBuiltin (concludeTopLevel expected value) := by
    refine compositional.bind sized fun entries => ?_
    split
    · exact compositional.bind (compositional.throw _) fun _ =>
        compositional.bind compositional.pop fun _ => compositional.pure value
    · exact compositional.bind compositional.pop fun _ => compositional.pure value
  exact .bind (.of_evaluates (compositional.push expression)) fun _ =>
    .bind (.of_evaluates sized) fun expected =>
      .bind (extended expression) fun value => .of_evaluates (concludes expected value)

end Interpreter

end Evaluator.ExtendedBy

namespace Machine

variable {library : Library} {limit larger : Nat}

/-- Within a larger limit an evaluation has every answer that it has within a smaller one. -/
theorem evaluator_extendedBy
    (library : Library)
    (within : limit ≤ larger) :
    (evaluator library limit).ExtendedBy (evaluator library larger) := by
  induction limit generalizing larger with
  | zero =>
      exact fun _ => .exhausted
  | succ limit inductionHypothesis =>
      obtain ⟨larger, rfl⟩ := Nat.exists_eq_add_one_of_ne_zero (Nat.ne_zero_of_lt within)
      have below := Nat.le_of_succ_le_succ within
      exact (inductionHypothesis below).evaluateObject library below

end Machine

end ArenaLisp
