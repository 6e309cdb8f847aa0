import ArenaLisp.Proofs.Discipline
import ArenaLisp.Proofs.EvaluatorSteps
import ArenaLisp.Proofs.ReaderSteps
import ArenaLisp.Proofs.ReadingSafety

namespace ArenaLisp

/-!
# Properties of the interpreter by composition

The reader and the interpreter are put together from few steps of the machine.  A
property that all these steps have, and that putting them together keeps, is a
property of the reader and of the interpreter, as long as the callables of the machine
run builtin operations.

None of the steps looks at the diagnostics or the journal.
-/

namespace Run

variable {First Result : Type}

/-- Whether a run returns a value on some machine. -/
def CanReturn (run : Run Result) (value : Result) : Prop :=
  ∃ machine after, run machine = some (.ok value, after)

theorem liftM_bind
    (action : Action First)
    (continuation : First → Action Result) :
    (liftM (action >>= continuation) : Run Result) =
      (liftM action : Run First) >>= fun value => liftM (continuation value) := by
  funext machine
  rw [liftM_apply, bind_apply, liftM_apply, Transition.bind_apply]
  rcases action machine with ⟨_ | value, after⟩ <;> rfl

end Run

open Machine

/-- Whether what is seen of a machine depends neither on its diagnostics nor its journal. -/
def Machine.IgnoresHistory {Value : Type} (view : Machine → Value) : Prop :=
  ∀ (machine : Machine) diagnostics journal,
    view (machine.withHistory diagnostics journal) = view machine

/--
A property of runs that the steps of the strict operations have, and that every run has
which is put together from runs that have it.
-/
structure CompositionalSteps (holds : (Result : Type) → Run Result → Prop) : Prop where
  pure : ∀ {Result : Type} (result : Result), holds Result (Pure.pure result)
  throw : ∀ {Result : Type} error, holds Result (throw error)
  bindReturned :
    ∀ {First Result : Type} {run : Run First} {continuation : First → Run Result},
      holds First run →
      (∀ value, run.CanReturn value → holds Result (continuation value)) →
      holds Result (run >>= continuation)
  observe :
    ∀ {Value : Type} {view : Machine → Except Error Value},
      IgnoresHistory view →
      holds Value (liftM (Transition.observe view : Action Value))
  onStack :
    ∀ {Value : Type} (step : Transition OperandStack Value),
      holds Value (liftM (onStack step))
  /-- Only leaves are allocated, and none that could be called. -/
  allocate :
    ∀ {object : Object},
      object.callable? = none →
      object.handles = [] →
      holds Handle (liftM (allocate object))

/-- A property of runs that the steps of the interpreter have, too. -/
structure Compositional (holds : (Result : Type) → Run Result → Prop) : Prop
    extends CompositionalSteps holds where
  exhausted : ∀ Result, holds Result Run.exhausted
  tryCatch :
    ∀ {Result : Type} {run : Run Result} {handler : Error → Run Result},
      holds Result run →
      (∀ error, holds Result (handler error)) →
      holds Result (tryCatch run handler)
  evaluating : ∀ expression, holds Unit (liftM (note (.evaluating expression)))
  recover : ∀ error, holds Handle (liftM (recover error))
  bindName : ∀ name value, holds Unit (liftM (bindName name value))
  /-- What is found under a handle runs a builtin operation if it can be called. -/
  look :
    ∀ {Result : Type} handle {continuation : Object → Run Result},
      (∀ object,
        (∀ callable, object.callable? = some callable → IsBuiltin callable.operation) →
        holds Result (continuation object)) →
      holds Result ((liftM (look handle) : Run Object) >>= continuation)
  next :
    ∀ reader : Reader, holds (Option (Handle × Reader)) (liftM reader.nextExpression)

namespace CompositionalSteps

variable
  {holds : (Result : Type) → Run Result → Prop}
  (compositional : CompositionalSteps holds)

/-- Whether an action has the property as a run. -/
def OfAction
    (holds : (Result : Type) → Run Result → Prop)
    {Result : Type}
    (action : Action Result) :
    Prop :=
  holds Result (liftM action)

include compositional

theorem bind
    {First Result : Type}
    {run : Run First}
    {continuation : First → Run Result}
    (first : holds First run)
    (returned : ∀ value, holds Result (continuation value)) :
    holds Result (run >>= continuation) :=
  compositional.bindReturned first fun value _ => returned value

section Actions

variable {First Result : Type}

theorem action_bind
    {action : Action First}
    {continuation : First → Action Result}
    (first : OfAction holds action)
    (returned : ∀ value, OfAction holds (continuation value)) :
    OfAction holds (action >>= continuation) := by
  rw [OfAction, Run.liftM_bind]
  exact compositional.bind first returned

theorem action_pure (result : Result) : OfAction holds (Pure.pure result) :=
  compositional.pure result

theorem action_throw (error : Error) : OfAction holds (MonadExcept.throw error : Action Result) :=
  compositional.throw error

theorem object (handle : Handle) : OfAction holds (Machine.look handle) :=
  compositional.observe fun _ _ _ => rfl

theorem integer (handle : Handle) : OfAction holds (lookInteger handle) :=
  compositional.action_bind (compositional.object handle) fun object =>
    @observe _ compositional _ (fun _ => object.integerValue) fun _ _ _ => rfl

theorem push (handle : Handle) : OfAction holds (push handle) :=
  compositional.onStack fun stack => (.ok (), stack.push handle)

theorem pop : OfAction holds pop :=
  compositional.onStack _

theorem popMany (count : Nat) : OfAction holds (popMany count) :=
  compositional.onStack _

theorem discard (count : Nat) : OfAction holds (discard count) :=
  compositional.onStack _

theorem peek (depth : Nat) : OfAction holds (peek depth) :=
  compositional.observe fun _ _ _ => rfl

end Actions

theorem requireArity
    (builtin : Builtin)
    (expected given : Nat) :
    OfAction holds (Builtin.requireArity builtin expected given) := by
  unfold Builtin.requireArity
  split
  · exact compositional.action_bind (compositional.discard given) fun _ =>
      compositional.action_throw _
  · exact compositional.action_pure ()

theorem lookIntegers (handles : List Handle) : OfAction holds (Builtin.lookIntegers handles) := by
  induction handles with
  | nil =>
      exact compositional.action_pure []
  | cons handle rest inductionHypothesis =>
      have step :
          Builtin.lookIntegers (handle :: rest) = do
            let value ← Machine.lookInteger handle
            let values ← Builtin.lookIntegers rest
            return value :: values :=
        List.mapM_cons
      rw [step]
      exact compositional.action_bind (compositional.integer handle) fun _ =>
        compositional.action_bind inductionHypothesis fun _ => compositional.action_pure _

/-- An operation that folds all its operands. -/
theorem fold
    (fold : List Int64 → Int64)
    (given : Nat) :
    OfAction holds (do
      let values ← Builtin.lookIntegers (← Machine.popMany given)
      Machine.allocate (.integer (fold values))) :=
  compositional.action_bind (compositional.popMany given) fun handles =>
    compositional.action_bind (compositional.lookIntegers handles) fun _ =>
      compositional.allocate rfl rfl

theorem subtraction (given : Nat) : OfAction holds (Builtin.subtraction given) := by
  have subtracts :
      OfAction holds (do
        let otherHandles ← Machine.popMany (given - 1)
        let firstHandle ← Machine.pop
        let first ← Machine.lookInteger firstHandle
        let others ← Builtin.lookIntegers otherHandles
        Machine.allocate (.integer (Builtin.difference first others))) :=
    compositional.action_bind (compositional.popMany (given - 1)) fun others =>
      compositional.action_bind compositional.pop fun first =>
        compositional.action_bind (compositional.integer first) fun _ =>
          compositional.action_bind (compositional.lookIntegers others) fun _ =>
            compositional.allocate rfl rfl
  unfold Builtin.subtraction
  split
  · exact compositional.action_bind (compositional.action_throw _) fun _ => subtracts
  · exact subtracts

theorem comparison
    (builtin : Builtin)
    (test : Int64 → Int64 → Bool)
    (given : Nat) :
    OfAction holds (Builtin.comparison builtin test given) :=
  compositional.action_bind (compositional.requireArity builtin 2 given) fun _ =>
    compositional.action_bind compositional.pop fun right =>
      compositional.action_bind compositional.pop fun left =>
        compositional.action_bind (compositional.integer right) fun _ =>
          compositional.action_bind (compositional.integer left) fun _ =>
            compositional.allocate rfl rfl

theorem selection
    (builtin : Builtin)
    (part : Object → Except Error Handle)
    (given : Nat) :
    OfAction holds (Builtin.selection builtin part given) :=
  compositional.action_bind (compositional.requireArity builtin 1 given) fun _ =>
    compositional.action_bind compositional.pop fun handle =>
      compositional.action_bind (compositional.object handle) fun object =>
        @observe _ compositional _ (fun _ => part object) fun _ _ _ => rfl

/-- An operation whose operands are evaluated does not evaluate anything itself. -/
theorem strict
    {builtin : Builtin}
    (isStrict : builtin.evaluatesOperands = true)
    (evaluator : Evaluator)
    (given : Nat) :
    holds Handle (builtin.procedure evaluator given) := by
  cases builtin with
  | add =>
      exact compositional.fold Builtin.sum given
  | multiply =>
      exact compositional.fold Builtin.product given
  | subtract =>
      exact compositional.subtraction given
  | equal | less | greater =>
      exact compositional.comparison _ _ given
  | car | cdr =>
      exact compositional.selection _ _ given
  | conditional | definition =>
      exact absurd isStrict (by decide)

end CompositionalSteps

namespace Compositional

open CompositionalSteps (OfAction)

variable
  {holds : (Result : Type) → Run Result → Prop}
  (compositional : Compositional holds)

include compositional

section Forms

variable
  {evaluator : Evaluator}
  (evaluates : ∀ expression, holds Handle (evaluator.evaluate expression))

include evaluates

theorem conditionalForm (given : Nat) :
    holds Handle (Builtin.conditionalForm evaluator given) :=
  compositional.bind (compositional.requireArity .conditional 3 given) fun _ =>
    compositional.bind (compositional.peek 0) fun _ =>
      compositional.bind (compositional.peek 1) fun _ =>
        compositional.bind (compositional.peek 2) fun condition =>
          compositional.bind (evaluates condition) fun outcome =>
            compositional.bind (compositional.object outcome) fun _ =>
              compositional.bind (evaluates _) fun _ =>
                compositional.bind (compositional.discard 3) fun _ => compositional.pure _

/-- Whether the expression is evaluated first or not, a definition binds one name. -/
theorem definitionForm (given : Nat) :
    holds Handle (Builtin.definitionForm evaluator given) := by
  let conclude (name : String) (value : Handle) : Run Handle := do
    Machine.bindName name value
    let _ ← Machine.discard 2
    Machine.allocate .void
  have concludes
      (name : String)
      (value : Handle) :
      holds Handle (conclude name value) :=
    compositional.bind (compositional.bindName name value) fun _ =>
      compositional.bind (compositional.discard 2) fun _ => compositional.allocate rfl rfl
  have isEager :
      OfAction holds (Transition.observe fun machine => .ok machine.eagerDefinitions) :=
    compositional.observe fun _ _ _ => rfl
  refine compositional.bind (compositional.requireArity .definition 2 given) fun _ =>
    compositional.bind (compositional.peek 0) fun expression =>
      compositional.bind (compositional.peek 1) fun nameExpression =>
        compositional.bind (compositional.object nameExpression) fun nameObject => ?_
  split
  · exact compositional.bind (compositional.discard 2) fun _ => compositional.throw _
  · rename_i name _
    have binds
        (eager : Bool) :
        holds Handle
          (if eager then
            evaluator.evaluate expression >>= conclude name
          else
            conclude name expression) := by
      cases eager with
      | true =>
          exact compositional.bind (evaluates expression) (concludes name)
      | false =>
          exact concludes name expression
    have asks := compositional.bind isEager binds
    exact asks

theorem procedure
    (builtin : Builtin)
    (given : Nat) :
    holds Handle (builtin.procedure evaluator given) := by
  cases builtin with
  | conditional =>
      exact compositional.conditionalForm evaluates given
  | definition =>
      exact compositional.definitionForm evaluates given
  | _ =>
      exact compositional.strict rfl evaluator given

end Forms

/-- A symbol is looked up in the environment, which the history has no part in. -/
theorem evaluateSymbol (name : String) : OfAction holds (Evaluator.evaluateSymbol name) := by
  have looksUp :
      OfAction holds (Transition.observe fun machine => .ok (machine.environment.get? name)) :=
    compositional.observe fun _ _ _ => rfl
  have decides
      (found : Option Handle) :
      OfAction holds (found.elim (Machine.recover (.unboundVariable name)) Pure.pure) := by
    cases found with
    | none =>
        exact compositional.recover _
    | some value =>
        exact compositional.action_pure value
  rw [Evaluator.evaluateSymbol_eq]
  exact compositional.action_bind looksUp decides

section Interpreter

variable
  {inner : Evaluator}
  (evaluates : ∀ expression, holds Handle (inner.evaluate expression))

include evaluates

theorem pushOperands
    (evaluatesOperands : Bool)
    (limit : Nat)
    (chain : Handle)
    (count : Nat) :
    holds OperandWalk (inner.pushOperands evaluatesOperands limit chain count) := by
  induction limit generalizing chain count with
  | zero =>
      exact compositional.exhausted _
  | succ limit inductionHypothesis =>
      have goesOn
          (rest operand : Handle) :
          holds OperandWalk (inner.pushAndGoOn evaluatesOperands limit rest count operand) :=
        compositional.bind (compositional.push operand) fun _ =>
          inductionHypothesis rest (count + 1)
      refine compositional.bind (compositional.object chain) fun cell => ?_
      split
      · cases evaluatesOperands with
        | true =>
            exact compositional.bind (evaluates _) (goesOn _)
        | false =>
            exact goesOn _ _
      · exact compositional.pure _

theorem call
    (library : Library)
    (callee : Handle)
    (given : Nat) :
    holds Handle (Evaluator.call library inner callee given) := by
  refine compositional.look callee fun object isBuiltin => ?_
  split
  · rename_i callable isCallable
    obtain ⟨builtin, isOperation⟩ := isBuiltin callable isCallable
    have runs : holds Handle (callable.operation.procedure library inner given) := by
      rw [isOperation]
      exact compositional.procedure evaluates builtin given
    exact compositional.tryCatch runs fun error => compositional.recover error
  · exact compositional.bind (compositional.discard given) fun _ => compositional.recover _

theorem evaluatePair
    (library : Library)
    (limit : Nat)
    (pair car cdr : Handle) :
    holds Handle (Evaluator.evaluatePair library inner limit pair car cdr) := by
  refine compositional.bind (evaluates car) fun head =>
    compositional.bind (compositional.object head) fun object => ?_
  split
  · exact compositional.pure pair
  · refine compositional.bind (compositional.push head) fun _ =>
      compositional.bind (compositional.pushOperands evaluates _ limit cdr 0) fun walk => ?_
    split
    · exact compositional.bind (compositional.discard _) fun _ => compositional.recover _
    · exact compositional.bind (compositional.call evaluates library head _) fun value =>
        compositional.bind compositional.pop fun _ => compositional.pure value

theorem evaluateObject
    (library : Library)
    (limit : Nat)
    (expression : Handle) :
    holds Handle (Evaluator.evaluateObject library inner limit expression) := by
  refine compositional.bind (compositional.evaluating expression) fun _ =>
    compositional.bind (compositional.object expression) fun object => ?_
  split
  · exact compositional.evaluateSymbol _
  · exact compositional.evaluatePair evaluates library limit expression _ _
  · exact compositional.pure expression

end Interpreter

theorem evaluator
    (library : Library)
    (limit : Nat)
    (expression : Handle) :
    holds Handle ((ArenaLisp.evaluator library limit).evaluate expression) := by
  induction limit generalizing expression with
  | zero =>
      exact compositional.exhausted _
  | succ limit inductionHypothesis =>
      exact compositional.evaluateObject inductionHypothesis library limit expression

theorem evaluateTopLevel
    (library : Library)
    (limit : Nat)
    (expression : Handle) :
    holds Handle (Machine.evaluateTopLevel (ArenaLisp.evaluator library limit) expression) := by
  have sized : OfAction holds stackSize :=
    @CompositionalSteps.observe _ compositional.toCompositionalSteps _
      (fun machine => .ok machine.stack.size) fun _ _ _ => rfl
  have pops
      (value : Handle) :
      holds Handle (do
        let _ ← Machine.pop
        return value) :=
    compositional.bind compositional.pop fun _ => compositional.pure value
  refine compositional.bind (compositional.push expression) fun _ =>
    compositional.bind sized fun expected =>
      compositional.bind (compositional.evaluator library limit expression) fun value =>
        compositional.bind sized fun entries => ?_
  split
  · exact compositional.bind (compositional.throw _) fun _ => pops value
  · exact pops value

/-- The rest of a text, by induction on its length. -/
theorem evaluateRest
    (library : Library)
    (limit : Nat)
    (reader : Reader) :
    holds (List String)
      (Machine.evaluateRest (ArenaLisp.evaluator library limit) reader) := by
  induction size : reader.text.length using Nat.strongRecOn generalizing reader with
  | ind size inductionHypothesis =>
      subst size
      have unfolded :=
        funext (Machine.evaluateRest_eq (ArenaLisp.evaluator library limit) reader)
      rw [unfolded]
      refine compositional.bindReturned (compositional.next reader) fun found isFound => ?_
      cases found with
      | none =>
          exact compositional.pure []
      | some next =>
          obtain ⟨expression, rest⟩ := next
          have shorter : rest.text.length < reader.text.length := by
            obtain ⟨machine, after, answered⟩ := isFound
            rw [Run.liftM_apply, Option.some.injEq] at answered
            exact Reader.nextExpression_shorter (congrArg Prod.fst answered)
          refine compositional.bind (compositional.evaluateTopLevel library limit expression)
            fun value => ?_
          have renders :
              OfAction holds (Transition.observe fun machine =>
                .ok (machine.heap.render value)) :=
            compositional.observe fun _ _ _ => rfl
          have concludes := compositional.bind renders fun text =>
            compositional.bind (inductionHypothesis _ shorter rest rfl) fun texts =>
              compositional.pure (text :: texts)
          have sameRun := funext (concludeFirst_eq (ArenaLisp.evaluator library limit) rest value)
          rw [sameRun]
          exact concludes

end Compositional

/-- An action that restores the number of stack entries if it fails. -/
def cleaningUp
    {First Result : Type}
    (result : First → Result)
    (action : Action First) :
    Action Result :=
  fun machine =>
    match action machine with
    | (.ok value, after) => (.ok (result value), after)
    | (.error error, after) => (.error error, Reader.restoreStack machine.stack.size after)

/-- Reading the next expression is a read in progress, cleaned up behind a failure. -/
theorem Reader.nextExpression_cleaningUp
    {reader : Reader}
    (notEmpty : Token.skip reader.text ≠ []) :
    reader.nextExpression = cleaningUp some (Reader.reading [] (Token.skip reader.text)) := by
  funext machine
  rw [nextExpression_eq notEmpty, cleaningUp]
  rcases Reader.reading [] (Token.skip reader.text) machine with ⟨_ | _, _⟩ <;> rfl

/-- A property of actions that allocations have, and every action put together from them. -/
structure CompositionalActions (holds : (Result : Type) → Action Result → Prop) : Prop where
  pure : ∀ {Result : Type} (result : Result), holds Result (Pure.pure result)
  throw : ∀ {Result : Type} error, holds Result (throw error)
  bind :
    ∀ {First Result : Type} {action : Action First} {continuation : First → Action Result},
      holds First action →
      (∀ value, holds Result (continuation value)) →
      holds Result (action >>= continuation)
  push : ∀ handle, holds Unit (push handle)
  allocate :
    ∀ {object : Object},
      object.callable? = none →
      holds Handle (allocate object)
  consFromStack : holds Handle consFromStack
  cleanup :
    ∀ {First Result : Type} {action : Action First} (result : First → Result),
      holds First action →
      holds Result (cleaningUp result action)

namespace CompositionalActions

open Reader

variable
  {holds : (Result : Type) → Action Result → Prop}
  (compositional : CompositionalActions holds)

include compositional

theorem placeWord (word : List Char) : holds Handle (placeWord word) := by
  unfold Reader.placeWord
  split
  · rename_i isObject
    exact compositional.allocate (Literal.object_leaf isObject).2
  · exact compositional.throw _

theorem consPushed
    (count : Nat)
    (tail : Handle) :
    holds Handle (consPushed count tail) := by
  induction count generalizing tail with
  | zero =>
      exact compositional.pure tail
  | succ count inductionHypothesis =>
      exact compositional.bind (compositional.push tail) fun _ =>
        compositional.bind compositional.consFromStack fun pair => inductionHypothesis pair

theorem closeList (count : Nat) : holds Handle (closeList count) :=
  compositional.bind (compositional.allocate rfl) fun empty =>
    compositional.consPushed count empty

/-- A read in progress, by induction on the length of the text that is left. -/
theorem reading
    (counts : List Nat)
    (text : List Char) :
    holds (Handle × Reader) (reading counts text) := by
  induction size : text.length using Nat.strongRecOn generalizing counts text with
  | ind size inductionHypothesis =>
      subst size
      cases found : Token.next? text with
      | none =>
          rw [funext (reading_none found)]
          exact compositional.throw _
      | some step =>
          obtain ⟨token, rest⟩ := step
          have shorter := Token.length_lt_of_next? found
          have handsOver
              (outer : List Nat)
              (handle : Handle) :
              holds (Handle × Reader) (handOver outer rest handle) := by
            cases outer with
            | nil =>
                exact compositional.pure _
            | cons count outer =>
                exact compositional.bind (compositional.push handle) fun _ =>
                  inductionHypothesis _ shorter _ rest rfl
          cases token with
          | opening =>
              rw [funext (reading_opening found)]
              exact inductionHypothesis _ shorter _ rest rfl
          | closing =>
              cases counts with
              | nil =>
                  rw [funext (reading_misplaced found)]
                  exact compositional.throw _
              | cons count outer =>
                  rw [funext (reading_closed found)]
                  exact compositional.bind (compositional.closeList count) (handsOver outer)
          | word characters =>
              rw [funext (reading_word found)]
              exact compositional.bind (compositional.placeWord characters) (handsOver counts)

theorem nextExpression (reader : Reader) :
    holds (Option (Handle × Reader)) reader.nextExpression := by
  by_cases isEmpty : Token.skip reader.text = []
  · rw [funext (nextExpression_done isEmpty)]
    exact compositional.pure none
  · rw [nextExpression_cleaningUp isEmpty]
    exact compositional.cleanup some (compositional.reading [] (Token.skip reader.text))

end CompositionalActions

end ArenaLisp
