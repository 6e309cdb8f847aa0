import ArenaLisp.Proofs.Creation
import ArenaLisp.Proofs.Lists.Calls
import ArenaLisp.Proofs.Lists.Reading
import ArenaLisp.Proofs.Reference.Session

namespace ArenaLisp

/-!
# Lists stay lists

A fresh machine holds no pair at all.  What is read of a text and what its evaluation
adds keeps the machine regular, so at every moment each pair is a list that ends in nil,
be it half read, garbage or the code of a definition.
-/

open Plan

namespace Machine

variable {machine : Machine}

section

variable
  {inner : Evaluation}
  {evaluator twin : Evaluator}
  (follows : inner.Follows evaluator)
  (stays : inner.StaysRegular twin)
  (safe : evaluator.Safe IsBuiltin)

include follows stays safe

theorem evaluateTopLevel_behaves
    (orderly : machine.Orderly IsBuiltin)
    (regular : machine.Regular)
    {expression : Handle}
    (occupied : machine.heap.isOccupied expression = true) :
    Behaves Regular (Plan.evaluateTopLevel inner expression) (evaluateTopLevel twin expression)
      machine (Answers IsBuiltin machine.heap machine.stack.entries) := by
  have sized
      (counted : Machine) :
      stackSize counted = (.ok counted.stack.size, counted) :=
    rfl
  have behaves :
      Behaves Regular (Plan.evaluateTopLevel inner expression) (evaluateTopLevel twin expression)
        machine fun _ _ => True := by
    refine .bind_action (run_push expression) (regular.throughout_push expression)
      (push_eq expression machine) fun regularPushed => ?_
    refine .bind_action run_stackSize (.observe _ regularPushed) (sized _) fun _ => ?_
    have orderlyPushed := orderly.push occupied
    have reached := orderlyPushed.toWellFormed.reaches_entry List.mem_cons_self
    refine (stays _ expression orderlyPushed regularPushed reached).bind ?_ ?_
    · intro value after regularAfter answers
      have entries := (answers.value value rfl).1
      refine .bind_action run_stackSize (.observe _ regularAfter) (sized after) fun _ => ?_
      have balanced :
          ¬after.stack.size ≠
            (machine.withEntries (expression :: machine.stack.entries)).stack.size := by
        simp only [OperandStack.size, entries, ne_eq, not_true_eq_false, not_false_eq_true]
      rw [if_neg balanced, if_neg balanced]
      exact .bind_action run_pop regularAfter.throughout_pop (pop_cons entries)
        fun regularBelow => .pure regularBelow trivial
    · exact fun _ _ _ _ => trivial
  exact behaves.ensuring (run_evaluateTopLevel follows expression)
    (evaluateTopLevel_answers safe orderly occupied)

/-- Expression by expression, by induction on the length of what is left of the text. -/
theorem evaluateRest_behaves
    (reader : Reader)
    (orderly : machine.Orderly IsBuiltin)
    (regular : machine.Regular) :
    Behaves Regular (Plan.evaluateRest inner reader) (evaluateRest twin reader) machine
      fun _ _ => True := by
  induction size : reader.text.length using Nat.strongRecOn generalizing reader machine with
  | ind size inductionHypothesis =>
      subst size
      have reads := Reader.throughout_nextExpression orderly regular reader
      obtain ⟨holds, delivers⟩ := reader.read_delivers orderly
      rw [Plan.evaluateRest, evaluateRest_run]
      generalize Reference.readNext reader.text = next at delivers
      generalize answered : reader.read machine = answer at *
      obtain ⟨given, after⟩ := answer
      cases delivers with
      | exhausted | unreadable =>
          exact .bind_refused (run_nextExpression reader) reads
            (by rw [Reader.nextExpression, answered]) trivial
      | atEnd =>
          have next : reader.nextExpression machine = (.ok none, after) := by
            rw [Reader.nextExpression, answered]
          exact .bind_action (run_nextExpression reader) reads next fun regularAfter =>
            .pure regularAfter trivial
      | @object tree rest expression unfolds =>
          have next :
              reader.nextExpression machine = (.ok (some (expression, ⟨rest⟩)), after) := by
            rw [Reader.nextExpression, answered]
          obtain ⟨object, found⟩ := unfolds.exists_object
          have shorter : rest.length < reader.text.length :=
            Reader.length_lt_of_read answered
          refine .bind_action (run_nextExpression reader) reads next fun regularAfter => ?_
          simp only [shorter, ↓reduceDIte]
          refine (evaluateTopLevel_behaves follows stays safe holds.orderly regularAfter
            (Heap.isOccupied_of_get? found)).bind ?_ ?_
          · intro value between regularBetween answers
            rw [concludeFirst_run]
            refine .bind_action (run_observe _) (.observe _ regularBetween) rfl fun _ => ?_
            have rests := @inductionHypothesis _ shorter between ⟨rest⟩ answers.orderly
              regularBetween rfl
            refine rests.bind ?_ ?_
            · exact fun _ _ regularEnd _ => .pure regularEnd trivial
            · exact fun _ _ _ _ => trivial
          · exact fun _ _ _ _ => trivial

end

theorem blank_regular
    {capacity : Nat}
    (capacityBound : capacity ≤ Handle.bound)
    (initialThreshold : Nat)
    (eagerDefinitions : Bool) :
    (blank capacity initialThreshold eagerDefinitions).Regular := by
  have nothing
      (handle : Handle) :
      (blank capacity initialThreshold eagerDefinitions).heap.get? handle = none :=
    Heap.get?_create capacity initialThreshold handle
  have orderly :=
    @blank_orderly IsBuiltin capacity capacityBound initialThreshold eagerDefinitions
  refine ⟨orderly.consistent, ⟨orderly.closed, ?_, ?_⟩, by simp [blank], by simp [blank]⟩
  · intro pair car cdr found
    rw [nothing] at found
    cases found
  · intro handle cycle
    obtain ⟨_, ⟨object, found, _⟩, _⟩ := Relation.TransGen.head'_iff.mp cycle
    rw [nothing] at found
    cases found

/-- A callable holds no handles, so it can be installed anywhere. -/
theorem Regular.installed
    (regular : machine.Regular)
    (callable : Callable) :
    (install callable machine).2.Regular := by
  have noHandles : callable.toObject.handles = [] := by
    cases callable with
    | mk name operation evaluatesOperands =>
        cases evaluatesOperands <;> rfl
  have regularAfter : (allocate callable.toObject machine).2.Regular :=
    (preserves_allocate noHandles machine regular).after_action (run_allocate callable.toObject)
  rw [install, Transition.bind_apply]
  rcases allocated : allocate callable.toObject machine with ⟨_ | handle, after⟩
  · rwa [allocated] at regularAfter
  · rw [allocated] at regularAfter
    exact regularAfter.binding callable.name handle

theorem Regular.installedAll
    (regular : machine.Regular)
    (builtins : List Builtin) :
    (installAll builtins machine).2.Regular := by
  induction builtins generalizing machine with
  | nil =>
      exact regular
  | cons builtin rest inductionHypothesis =>
      have regularAfter := regular.installed builtin.callable
      rw [installAll_cons, Transition.bind_apply]
      rcases installed : install builtin.callable machine with ⟨_ | handle, after⟩
      · rwa [installed] at regularAfter
      · rw [installed] at regularAfter
        exact inductionHypothesis regularAfter

/-- A fresh machine is regular. -/
theorem create_regular
    {configuration : Configuration}
    (capacityBound : configuration.capacity ≤ Handle.bound)
    (created : create configuration = .ok machine) :
    machine.Regular := by
  have installed :=
    (blank_regular capacityBound configuration.initialThreshold
      configuration.eagerDefinitions).installedAll Builtin.all
  rwa [installAll_of_create created] at installed

/-- Every pair of a machine is a list that comes to an end, and the end is nil. -/
def HoldsListsOnly (machine : Machine) : Prop :=
  ∀ pair car cdr,
    machine.heap.get? pair = some (.pair car cdr) →
    ∃ items, machine.heap.Spine pair items

theorem Regular.holdsListsOnly
    (regular : machine.Regular) :
    machine.HoldsListsOnly :=
  fun _ car cdr isPair => regular.shaped.exists_spine (.inr ⟨car, cdr, isPair⟩)

/--
Lists stay lists.  The evaluation of a text follows its plan: on every machine without
custom operations, and on a fresh machine whatever custom operations there are.  The plan
has a moment after every single step, such as a move of the stack, the placement of an
object, the binding of a name, or the marking, the sweep and the end of a collection.

On a fresh machine of any size, with any threshold, and whatever the text and the limit, at
each of these moments the cdr of each pair is nil or a pair, no object leads back to itself,
and so each pair is a list that ends in nil.  This is so whether or not the evaluation comes
to an end.  No chain of operands has been recovered from at any moment, because none is
malformed: no walk meets any other end than nil, whatever would be done there.
-/
theorem lists_stay_lists
    (library : Library)
    {configuration : Configuration}
    (capacityBound : configuration.capacity ≤ Handle.bound)
    (created : create configuration = .ok machine)
    (limit : Nat)
    (text : String) :
    (Plan.evaluateText limit text).run = evaluateText (evaluator Library.empty limit) text ∧
      (Plan.evaluateText limit text).run machine =
        evaluateText (evaluator library limit) text machine ∧
      (∀ moment ∈ (Plan.evaluateText limit text).moments machine,
        moment.Regular ∧ moment.HoldsListsOnly) ∧
      ∀ ending : WalkEnding,
        ending.AcceptsNil →
        evaluateText (evaluatorEnding ending library limit) text machine =
          evaluateText (evaluator library limit) text machine := by
  have behaves
      {ending : WalkEnding}
      (acceptsNil : ending.AcceptsNil) :=
    evaluateRest_behaves (evaluate_follows limit) (evaluate_staysRegular library acceptsNil limit)
      (evaluator_safe (disciplined_builtins Library.empty) limit) (Reader.ofString text)
      (create_orderly capacityBound created) (create_regular capacityBound created)
  have usual := @behaves (fun cell count => pure (Evaluator.walkEnd cell count)) fun _ => rfl
  rw [evaluatorEnding_usual] at usual
  refine ⟨run_evaluateText limit text, usual.same.symm, fun moment member => ?_,
    fun ending acceptsNil => ?_⟩
  · have regular := usual.throughout moment member
    exact ⟨regular, regular.holdsListsOnly⟩
  · exact (behaves acceptsNil).same.trans usual.same.symm

/-- An ending that never goes on unless it meets nil. -/
def onlyNil : WalkEnding := fun cell count =>
  if cell = .nil then pure (.complete count) else Run.exhausted

/-- A call with a void for its operand, by an interpreter that could not end a walk there. -/
theorem lists_stay_lists_cramped :
    ∃ machine,
      cramped.capacity ≤ Handle.bound ∧
        create cramped = .ok machine ∧
        onlyNil.AcceptsNil ∧
        (∀ moment ∈ (Plan.evaluateText 17 "(car x)").moments machine,
          moment.Regular ∧ moment.HoldsListsOnly) ∧
        evaluateText (evaluatorEnding onlyNil Library.empty 17) "(car x)" machine =
          (Plan.evaluateText 17 "(car x)").run machine := by
  obtain ⟨machine, created⟩ := exists_create_cramped
  have bounded : cramped.capacity ≤ Handle.bound := by
    decide
  have acceptsNil : onlyNil.AcceptsNil :=
    fun _ => rfl
  obtain ⟨_, planned, moments, same⟩ :=
    lists_stay_lists Library.empty bounded created 17 "(car x)"
  have follows := (same onlyNil acceptsNil).trans planned.symm
  exact ⟨machine, bounded, created, acceptsNil, moments, follows⟩

end Machine

end ArenaLisp
