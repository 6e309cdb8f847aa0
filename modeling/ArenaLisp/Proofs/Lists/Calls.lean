import ArenaLisp.Proofs.EvaluationSafety
import ArenaLisp.Proofs.Lists.Operations
import ArenaLisp.Proofs.Lists.Walks
import ArenaLisp.Proofs.Plans.Interpreter

namespace ArenaLisp

/-!
# Regularity throughout an evaluation

The chain of operands of a call is reached from the stack, so it is the same list after
every operand as it was before.  On a regular machine it therefore ends in nil, whatever
would have been done at another end, and no call is refused for its chain.
-/

open Machine Plan

namespace Evaluator

variable
  {library : Library}
  {inner : Evaluation}
  {evaluator twin : Evaluator}
  {machine : Machine}

theorem operand_behaves
    (stays : inner.StaysRegular twin)
    (evaluatesOperands : Bool)
    (orderly : machine.Orderly IsBuiltin)
    (regular : machine.Regular)
    {expression : Handle}
    (reached : machine.heap.Reaches machine.stack.entries expression) :
    Behaves Regular (Plan.operand inner evaluatesOperands expression)
      (twin.operand evaluatesOperands expression) machine
      (Answers IsBuiltin machine.heap machine.stack.entries) := by
  cases evaluatesOperands with
  | true =>
      exact stays machine expression orderly regular reached
  | false =>
      exact .pure regular (.unchanged orderly reached.isOccupied)

/-- Whether a walk that has ended was one along a list. -/
def Completes (result : Except Error OperandWalk) : Prop :=
  ∀ walk, result = .ok walk → ∃ count, walk = .complete count

section Pairs

variable
  (follows : inner.Follows evaluator)
  (stays : inner.StaysRegular twin)
  {ending : WalkEnding}
  (acceptsNil : ending.AcceptsNil)
  (safe : evaluator.Safe IsBuiltin)
  (settling : Settling Library.empty IsBuiltin evaluator)

include stays acceptsNil

/-- By induction on the steps: the rest of the list is the same once an operand is pushed. -/
theorem pushOperands_behaves
    (evaluatesOperands : Bool)
    (limit : Nat)
    {chain : Handle}
    (count : Nat)
    (orderly : machine.Orderly IsBuiltin)
    (regular : machine.Regular)
    (reached : machine.heap.Reaches machine.stack.entries chain)
    (goesOn : machine.heap.GoesOn chain) :
    Behaves Regular (Plan.pushOperands inner evaluatesOperands limit chain count)
      (twin.pushOperandsEnding ending evaluatesOperands limit chain count) machine
      fun result _ => Completes result := by
  induction limit generalizing machine chain count with
  | zero =>
      exact .exhausted regular
  | succ limit inductionHypothesis =>
      rcases goesOn with isNil | ⟨car, cdr, isPair⟩
      · refine .bind_action (run_look chain) (.observe _ regular) (look_found isNil) fun _ => ?_
        have ends :
            Behaves Regular (pure (.complete count)) (ending .nil count) machine
              fun result _ => Completes result := by
          rw [acceptsNil]
          refine .pure regular ?_
          rintro _ ⟨⟩
          exact ⟨count, rfl⟩
        exact ends
      · obtain ⟨carReached, cdrReached⟩ := orderly.closed.reaches_parts reached isPair
        have tail := regular.shaped.tails chain car cdr isPair
        refine .bind_action (run_look chain) (.observe _ regular) (look_found isPair) fun _ => ?_
        have walksOn :
            Behaves Regular
              (Plan.operand inner evaluatesOperands car >>= fun operand =>
                Plan.push operand >>= fun _ =>
                  Plan.pushOperands inner evaluatesOperands limit cdr (count + 1))
              (twin.operand evaluatesOperands car >>= fun operand =>
                (liftM (Machine.push operand) : Run Unit) >>= fun _ =>
                  twin.pushOperandsEnding ending evaluatesOperands limit cdr (count + 1))
              machine fun result _ => Completes result := by
          refine (operand_behaves stays evaluatesOperands orderly regular carReached).bind ?_ ?_
          · intro operand between regularBetween answers
            obtain ⟨_, occupied⟩ := answers.value operand rfl
            refine .bind_action (run_push operand) (regularBetween.throughout_push operand)
              (push_eq operand between) fun regularPushed => ?_
            exact inductionHypothesis (count + 1) (answers.orderly.push occupied) regularPushed
              (answers.reaches_above cdrReached) (tail.congr (answers.keeps cdr cdrReached))
          · rintro error after _ _ _ ⟨⟩
        cases evaluatesOperands <;> exact walksOn

omit acceptsNil in
include follows settling in
theorem call_behaves
    (orderly : machine.Orderly IsBuiltin)
    (regular : machine.Regular)
    {callee : Handle}
    {operands below : List Handle}
    (entries : machine.stack.entries = operands ++ below)
    (occupied : machine.heap.isOccupied callee = true) :
    Behaves Regular (Plan.call inner callee operands.length)
      (call library twin callee operands.length) machine
      (Answers IsBuiltin machine.heap below) := by
  obtain ⟨object, found⟩ := Heap.isOccupied_iff.mp occupied
  have behaves :
      Behaves Regular (Plan.call inner callee operands.length)
        (call library twin callee operands.length) machine fun _ _ => True := by
    refine .bind_action (run_look callee) (.observe _ regular) (look_found found) fun _ => ?_
    cases isCallable : object.callable? with
    | some callable =>
        obtain ⟨builtin, isBuiltin⟩ := orderly.runsOnly callee object callable found isCallable
        simp only [isBuiltin]
        have proceeds := builtin.procedure_behaves follows stays orderly regular entries
        refine proceeds.tryCatch (fun _ _ _ _ => trivial) fun error after regularAfter harmless => ?_
        have recovers :=
          Regular.preserves_recover (fun same => harmless (congrArg Except.error same)) after
            regularAfter
        exact .of_run (run_recover error) recovers .anything
    | none =>
        obtain ⟨last, discarded⟩ := discard_append entries
        refine .bind_action (run_discard _) (regular.throughout_discard _) discarded
          fun regularBelow => ?_
        exact .of_run (run_recover _)
          (Regular.preserves_recover (by rintro ⟨⟩) _ regularBelow) .anything
  exact behaves.ensuring (run_call follows callee operands.length)
    (call_answers settling orderly entries occupied)

omit acceptsNil in
include follows settling in
/-- The walk was complete, so what follows it is the call. -/
theorem concludeWalk_behaves
    (orderly : machine.Orderly IsBuiltin)
    (regular : machine.Regular)
    {callee : Handle}
    {operands below : List Handle}
    (entries : machine.stack.entries = operands ++ callee :: below) :
    Behaves Regular (Plan.concludeWalk inner callee (.complete operands.length))
      (concludeWalk library twin callee (.complete operands.length)) machine fun _ _ => True := by
  have occupied : machine.heap.isOccupied callee = true :=
    orderly.entriesOccupied callee (by simp [entries])
  refine (call_behaves follows stays settling orderly regular entries occupied).bind ?_ ?_
  · intro value called regularCalled answers
    exact .bind_action run_pop regularCalled.throughout_pop
      (pop_cons (answers.value value rfl).1) fun regularBelow => .pure regularBelow trivial
  · exact fun _ _ _ _ => trivial

include follows safe settling in
theorem operandsAndCall_behaves
    (orderly : machine.Orderly IsBuiltin)
    (regular : machine.Regular)
    (limit : Nat)
    (evaluatesOperands : Bool)
    {head chain : Handle}
    {below : List Handle}
    (entries : machine.stack.entries = head :: below)
    (reached : machine.heap.Reaches machine.stack.entries chain)
    (goesOn : machine.heap.GoesOn chain) :
    Behaves Regular
      (Plan.pushOperands inner evaluatesOperands limit chain 0 >>= Plan.concludeWalk inner head)
      (twin.pushOperandsEnding ending evaluatesOperands limit chain 0 >>=
        concludeWalk library twin head)
      machine fun _ _ => True := by
  have walks :=
    pushOperands_behaves stays acceptsNil evaluatesOperands limit 0 orderly regular reached goesOn
  have isRun := run_pushOperands follows evaluatesOperands limit chain 0
  have gathers := pushOperands_gathers safe evaluatesOperands limit 0 orderly reached
  rw [← isRun] at gathers
  have both := walks.ensuring rfl (walks.ensures.and gathers)
  refine both.bind ?_ ?_
  · rintro walk gathered regularGathered ⟨completes, gathers⟩
    obtain ⟨operands, operandEntries, counted⟩ := gathers.walked walk rfl
    rw [entries] at operandEntries
    rw [Nat.zero_add] at counted
    rcases counted with rfl | rfl
    · exact concludeWalk_behaves follows stays settling gathers.orderly regularGathered
        operandEntries
    · obtain ⟨count, impossible⟩ := completes _ rfl
      cases impossible
  · exact fun _ _ _ _ => trivial

include follows safe settling in
/-- A value that is no callable is not called; the pair is then a value itself. -/
theorem concludeHead_behaves
    (orderly : machine.Orderly IsBuiltin)
    (regular : machine.Regular)
    (limit : Nat)
    (pair : Handle)
    {chain head : Handle}
    (occupied : machine.heap.isOccupied head = true)
    (reached : machine.heap.Reaches machine.stack.entries chain)
    (goesOn : machine.heap.GoesOn chain) :
    Behaves Regular (Plan.concludeHead inner limit pair chain head)
      (twin.concludeHeadEnding ending library limit pair chain head) machine fun _ _ => True := by
  obtain ⟨object, found⟩ := Heap.isOccupied_iff.mp occupied
  refine .bind_action (run_look head) (.observe _ regular) (look_found found) fun _ => ?_
  cases object.callable? with
  | none =>
      exact .pure regular trivial
  | some callable =>
      refine .bind_action (run_push head) (regular.throughout_push head) (push_eq head machine)
        fun regularPushed => ?_
      exact operandsAndCall_behaves follows stays acceptsNil safe settling
        (orderly.push occupied) regularPushed limit callable.evaluatesOperands rfl
        (reached.of_subset fun _ member => List.mem_cons_of_mem head member) goesOn

omit stays acceptsNil in
theorem preserves_evaluateSymbol (name : String) :
    (Plan.evaluateSymbol name).Preserves Regular := by
  refine .bind (.observe _) fun machine => ?_
  cases machine.environment.get? name with
  | none =>
      exact Regular.preserves_recover (by rintro ⟨⟩)
  | some value =>
      exact .pure value

include follows safe settling in
/-- One level of the interpreter stays regular if the level below does. -/
theorem evaluateObject_behaves
    (orderly : machine.Orderly IsBuiltin)
    (regular : machine.Regular)
    (limit : Nat)
    {expression : Handle}
    (reached : machine.heap.Reaches machine.stack.entries expression) :
    Behaves Regular (Plan.evaluateObject inner limit expression)
      (twin.evaluateObjectEnding ending library limit expression) machine
      (Answers IsBuiltin machine.heap machine.stack.entries) := by
  obtain ⟨object, found⟩ := reached.exists_object
  have regularNoted : (machine.record (.evaluating expression)).Regular :=
    regular.record (by rintro ⟨⟩)
  have behaves :
      Behaves Regular (Plan.evaluateObject inner limit expression)
        (twin.evaluateObjectEnding ending library limit expression) machine fun _ _ => True := by
    have recorded := orderly.record (.evaluating expression)
    refine .bind_action (run_note _) (.perform regular regularNoted) rfl fun _ => ?_
    refine .bind_action (run_look expression) (.observe _ regularNoted) (look_found found)
      fun _ => ?_
    cases object with
    | symbol name =>
        exact .of_run (run_evaluateSymbol name) (preserves_evaluateSymbol name _ regularNoted)
          .anything
    | pair car cdr =>
        obtain ⟨carReached, cdrReached⟩ := orderly.closed.reaches_parts reached found
        have tail := regular.shaped.tails expression car cdr found
        refine (stays _ car recorded regularNoted carReached).bind ?_ ?_
        · intro head between regularBetween answers
          obtain ⟨entries, occupied⟩ := answers.value head rfl
          have stillReached := answers.keeps.reaches cdrReached
          rw [← entries] at stillReached
          exact concludeHead_behaves follows stays acceptsNil safe settling answers.orderly
            regularBetween limit expression occupied stillReached
            (tail.congr (answers.keeps cdr cdrReached))
        · exact fun _ _ _ _ => trivial
    | nil | void | integer | boolean | function | specialForm =>
        exact .pure regularNoted trivial
  exact behaves.ensuring (run_evaluateObject follows limit expression)
    (evaluateObject_answers safe settling orderly limit reached)

end Pairs

end Evaluator

/-- The interpreter stays regular, and it does not matter what it does at other ends. -/
theorem Plan.evaluate_staysRegular
    (library : Library)
    {ending : WalkEnding}
    (acceptsNil : ending.AcceptsNil)
    (limit : Nat) :
    Evaluation.StaysRegular (evaluate limit) (evaluatorEnding ending library limit) := by
  induction limit with
  | zero =>
      exact fun _ _ _ regular _ => .exhausted regular
  | succ limit inductionHypothesis =>
      intro machine expression orderly regular reached
      have disciplined := disciplined_builtins Library.empty
      exact Evaluator.evaluateObject_behaves (evaluate_follows limit) inductionHypothesis
        acceptsNil (evaluator_safe disciplined limit) (disciplined limit) orderly regular limit
        reached

end ArenaLisp
