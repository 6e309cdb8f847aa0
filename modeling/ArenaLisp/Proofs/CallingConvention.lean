import ArenaLisp.Proofs.EvaluationSafety
import ArenaLisp.Proofs.NestingLimit

namespace ArenaLisp

/-!
# The calling convention

A builtin operation takes exactly its operands off the stack, whatever they are and
however many there are.  It returns whenever the evaluations return that it asks for:
the strict operations ask for none, a conditional for its condition and one branch, an
eager definition for its expression.
-/

namespace Run

variable {First Result : Type}

/-- A run ends if its first part does, and the second one behind a value of the first. -/
theorem bind_ends
    {run : Run First}
    {continuation : First → Run Result}
    {machine after : Machine}
    {result : Except Error First}
    (first : run machine = some (result, after))
    (later : ∀ value, result = .ok value → ∃ answer, continuation value after = some answer) :
    ∃ answer, (run >>= continuation) machine = some answer := by
  rw [bind_apply, first]
  cases result with
  | error error =>
      exact ⟨_, rfl⟩
  | ok value =>
      exact later value rfl

end Run

namespace Machine

variable {library : Library} {machine : Machine}

/-- Within some nesting limit the evaluation of an expression gives an answer. -/
def Returns (library : Library) (expression : Handle) (machine : Machine) : Prop :=
  ∃ limit answer, (evaluator library limit).evaluate expression machine = some answer

/--
The evaluations return that a builtin operation asks for: of a condition and of the
branch that its value selects, or of the expression of an eager definition.
-/
def OperandsReturn (library : Library) (machine : Machine) : Builtin → List Handle → Prop
  | .conditional, [otherwise, consequent, condition] =>
      ∃ limit result between,
        (evaluator library limit).evaluate condition machine = some (result, between) ∧
          ∀ outcome object,
            result = .ok outcome →
            between.heap.get? outcome = some object →
            Returns library (if object.isTruthy then consequent else otherwise) between
  | .definition, [expression, _] =>
      machine.eagerDefinitions = true → Returns library expression machine
  | _, _ => True

/-- An answer within one limit is the answer within every larger one. -/
theorem evaluates_within
    (tame : machine.Tame IsBuiltin)
    {limit larger : Nat}
    (within : limit ≤ larger)
    {expression : Handle}
    {answer : Except Error Handle × Machine}
    (answered : (evaluator library limit).evaluate expression machine = some answer) :
    (evaluator library larger).evaluate expression machine = some answer :=
  (evaluator_extendedBy library within expression).answered tame answered

end Machine

namespace Builtin

open Machine

variable
  {library : Library}
  {machine : Machine}
  {below : List Handle}

/-- A branch that is evaluated to an answer concludes its conditional. -/
theorem concludeConditional_ends
    {evaluator : Evaluator}
    {consequent otherwise outcome : Handle}
    {object : Object}
    (found : machine.heap.get? outcome = some object)
    (branchEnds :
      ∃ answer,
        evaluator.evaluate (if object.isTruthy then consequent else otherwise) machine =
          some answer) :
    ∃ answer, concludeConditional evaluator consequent otherwise outcome machine = some answer := by
  obtain ⟨⟨result, after⟩, branchAnswered⟩ := branchEnds
  refine Run.bind_ends (congrArg some (look_found found)) fun _ same => ?_
  cases same
  refine Run.bind_ends branchAnswered fun value _ => ?_
  exact Run.bind_ends (Run.liftM_apply _ _) fun _ _ => ⟨_, rfl⟩

/-- A conditional returns within the larger one of the limits of its two evaluations. -/
theorem conditionalForm_returns
    (orderly : machine.Orderly IsBuiltin)
    {otherwise consequent condition : Handle}
    (entries : machine.stack.entries = [otherwise, consequent, condition] ++ below)
    (operandsReturn :
      OperandsReturn library machine .conditional [otherwise, consequent, condition]) :
    ∃ limit answer, conditionalForm (evaluator library limit) 3 machine = some answer := by
  obtain ⟨limit, result, between, answered, branchReturns⟩ := operandsReturn
  have conditionReached : machine.heap.Reaches machine.stack.entries condition :=
    orderly.toWellFormed.reaches_entry (by simp [entries])
  have answers :=
    evaluator_safe (disciplined_builtins library) limit machine condition orderly
      conditionReached result between answered
  cases result with
  | error error =>
      refine ⟨limit, ?_⟩
      rw [conditionalForm_eq _ entries]
      exact Run.bind_ends answered (by rintro _ ⟨⟩)
  | ok outcome =>
      obtain ⟨object, found⟩ := Heap.isOccupied_iff.mp (answers.value outcome rfl).2
      obtain ⟨branchLimit, answer, branchAnswered⟩ := branchReturns outcome object rfl found
      have conditionStays :=
        evaluates_within orderly.tame (Nat.le_max_left limit branchLimit) answered
      have branchStays :=
        evaluates_within answers.orderly.tame (Nat.le_max_right limit branchLimit) branchAnswered
      refine ⟨max limit branchLimit, ?_⟩
      rw [conditionalForm_eq _ entries]
      refine Run.bind_ends conditionStays fun _ same => ?_
      cases same
      exact concludeConditional_ends found ⟨answer, branchStays⟩

theorem definitionForm_returns
    (orderly : machine.Orderly IsBuiltin)
    {expression nameExpression : Handle}
    (entries : machine.stack.entries = [expression, nameExpression] ++ below)
    (operandsReturn : OperandsReturn library machine .definition [expression, nameExpression]) :
    ∃ limit answer, definitionForm (evaluator library limit) 2 machine = some answer := by
  have nameReached : machine.heap.Reaches machine.stack.entries nameExpression :=
    orderly.toWellFormed.reaches_entry (by simp [entries])
  obtain ⟨nameObject, nameFound⟩ := nameReached.exists_object
  cases named : nameObject.symbolName with
  | error error =>
      exact ⟨0, _, definitionForm_unnamed _ entries nameFound named⟩
  | ok name =>
      cases eager : machine.eagerDefinitions with
      | false =>
          exact ⟨0, _, definitionForm_lazy _ entries nameFound named eager⟩
      | true =>
          obtain ⟨limit, ⟨result, after⟩, answered⟩ := operandsReturn eager
          refine ⟨limit, ?_⟩
          rw [definitionForm_eager _ entries nameFound named eager]
          exact Run.bind_ends answered fun value _ => ⟨_, Run.liftM_apply _ _⟩

/-- A builtin operation returns if the evaluations do that it asks for. -/
theorem procedure_returns
    (builtin : Builtin)
    (orderly : machine.Orderly IsBuiltin)
    {taken : List Handle}
    (entries : machine.stack.entries = taken ++ below)
    (operandsReturn : OperandsReturn library machine builtin taken) :
    ∃ limit answer,
      builtin.procedure (evaluator library limit) taken.length machine = some answer := by
  by_cases accepted : builtin.arity.Accepts taken.length
  · cases builtin with
    | conditional =>
        obtain ⟨otherwise, consequent, condition, rfl⟩ :=
          List.length_eq_three.mp (accepted.exactly rfl)
        exact conditionalForm_returns orderly entries operandsReturn
    | definition =>
        obtain ⟨expression, nameExpression, rfl⟩ :=
          List.length_eq_two.mp (accepted.exactly rfl)
        exact definitionForm_returns orderly entries operandsReturn
    | _ =>
        obtain ⟨operands, names⟩ := exists_operands orderly entries
        exact ⟨0, _, procedure_eq_finish entries names rfl _⟩
  · exact ⟨0, _, procedure_unaccepted orderly entries accepted _⟩

end Builtin

namespace Machine

variable {machine : Machine}

/--
Every builtin operation keeps the calling convention, with any number of any operands
that are on the stack of a well-formed machine without custom operations.

Whatever it answers, it settles: a value or a recoverable error leaves the stack without
its operands, a value is occupied, and the only fatal error is that memory has run out,
above the entries below the operands.  It does answer, the same within all large enough
limits, if the evaluations return that it asks for.  Besides running out of memory it
fails only by refusing its operands.  A number of operands that it does not accept is
refused without any evaluation, and nothing changes but that the operands are gone.
-/
theorem builtins_keep_convention
    (library : Library)
    (builtin : Builtin)
    (orderly : machine.Orderly IsBuiltin)
    {given : Nat}
    (enough : given ≤ machine.stack.size) :
    (∀ limit,
      (builtin.procedure (evaluator library limit) given).Ensures machine
        (Settles IsBuiltin machine.heap (machine.stack.entries.drop given))) ∧
    (OperandsReturn library machine builtin (machine.stack.entries.take given) →
      ∃ answer least,
        ∀ limit ≥ least,
          builtin.procedure (evaluator library limit) given machine = some answer) ∧
    (∀ limit,
      (builtin.procedure (evaluator library limit) given).Ensures machine fun result _ =>
        FailsOnly (fun error => error = .outOfMemory ∨ builtin.Refuses given error) result) ∧
    (¬builtin.arity.Accepts given →
      ∀ evaluator,
        builtin.procedure evaluator given machine =
          some (.error (.arityMismatch builtin.name builtin.arity.text given),
            machine.withEntries (machine.stack.entries.drop given))) := by
  have safe (limit : Nat) := evaluator_safe (disciplined_builtins library) limit
  have entries := (List.take_append_drop given machine.stack.entries).symm
  have taken : (machine.stack.entries.take given).length = given :=
    List.length_take_of_le enough
  refine ⟨?_, ?_, ?_, ?_⟩
  · intro limit
    exact builtin.procedure_settles (safe limit) orderly enough
  · intro operandsReturn
    obtain ⟨least, answer, answered⟩ :=
      builtin.procedure_returns orderly entries operandsReturn
    rw [taken] at answered
    refine ⟨answer, least, fun limit within => ?_⟩
    exact ((evaluator_extendedBy library within).procedure builtin given).answered
      orderly.tame answered
  · intro limit
    have concludes := builtin.procedure_concludes (safe limit) orderly entries
    rw [taken] at concludes
    exact concludes.mono fun _ _ concluded => concluded.fails
  · intro unaccepted evaluator
    have refused := Builtin.procedure_unaccepted orderly entries (taken ▸ unaccepted) evaluator
    rwa [taken] at refused

/-- A machine with the operands of `(if (< 1 1) 1 ())` on its stack, above one more entry. -/
def deciding : Machine where
  heap :=
    { slots :=
        #[some ⟨.function "<" (.builtin .less), false⟩, some ⟨.integer 1, false⟩,
          some ⟨.nil, false⟩,
          some ⟨.pair (Handle.ofIndex 1) (Handle.ofIndex 2), false⟩,
          some ⟨.pair (Handle.ofIndex 1) (Handle.ofIndex 3), false⟩,
          some ⟨.pair (Handle.ofIndex 0) (Handle.ofIndex 4), false⟩,
          none]
      last := some 5
      live := 6
      initialThreshold := 1
      threshold := 7 }
  environment := Environment.empty.define "<" (Handle.ofIndex 0)
  stack :=
    ⟨[Handle.ofIndex 2, Handle.ofIndex 1, Handle.ofIndex 5, Handle.ofIndex 3]⟩
  eagerDefinitions := false
  diagnostics := []
  collections := 0
  journal := []

theorem deciding_orderly : deciding.Orderly IsBuiltin :=
  .of_slots ⟨⟨by decide, by decide, by decide, by decide⟩, by decide, by decide⟩ (by decide)
    (by decide)

/-- The condition is false, so nothing is asked of the first branch. -/
theorem deciding_returns :
    OperandsReturn Library.empty deciding .conditional
      [Handle.ofIndex 2, Handle.ofIndex 1, Handle.ofIndex 5] := by
  refine ⟨4, _, _, rfl, ?_⟩
  intro outcome object isOutcome found
  cases isOutcome
  obtain rfl : Object.boolean false = object := Option.some.inj found
  exact ⟨1, _, rfl⟩

theorem builtins_keep_convention_deciding :
    deciding.Orderly IsBuiltin ∧
      (∃ answer least,
        ∀ limit ≥ least,
          Builtin.conditional.procedure (evaluator Library.empty limit) 3 deciding =
            some answer) ∧
      (∃ after,
        Builtin.conditional.procedure (evaluator Library.empty 5) 3 deciding =
            some (.ok (Handle.ofIndex 2), after) ∧
          after.stack.entries = [Handle.ofIndex 3] ∧
          after.heap.isOccupied (Handle.ofIndex 2) = true) ∧
      Builtin.conditional.procedure Evaluator.exhausted 2 deciding =
        some (.error (.arityMismatch "if" "3" 2),
          deciding.withEntries [Handle.ofIndex 5, Handle.ofIndex 3]) := by
  have three : 3 ≤ deciding.stack.size := by
    decide
  have two : 2 ≤ deciding.stack.size := by
    decide
  obtain ⟨settles, returns, _⟩ :=
    builtins_keep_convention Library.empty .conditional deciding_orderly three
  obtain ⟨_, _, _, refuses⟩ :=
    builtins_keep_convention Library.empty .conditional deciding_orderly two
  exact ⟨deciding_orderly, returns deciding_returns, ⟨_, rfl, (settles 5 _ _ rfl).value _ rfl⟩,
    refuses (by decide) Evaluator.exhausted⟩

end Machine

end ArenaLisp
