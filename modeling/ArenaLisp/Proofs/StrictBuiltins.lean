import ArenaLisp.Proofs.Allocation
import ArenaLisp.Proofs.Postconditions
import ArenaLisp.Proofs.SpecialForms
import ArenaLisp.Proofs.StrictAnswers

namespace ArenaLisp

/-!
# Strict operations on a machine

A strict operation takes all its operands off the stack and looks at nothing else.
It then finishes with its answer: it fails, or it places a new leaf, or it answers
with a handle that an operand holds.
-/

namespace Builtin

/-- What the machine answers for a strict operation. -/
def finish (answer : Except Error (Answer Handle)) : Action Handle :=
  match answer with
  | .error error => throw error
  | .ok (.integer value) => Machine.allocate (.integer value)
  | .ok (.boolean value) => Machine.allocate (.boolean value)
  | .ok (.part handle) => pure handle

/-- What strict operations see of some objects. -/
def views (objects : List Object) : List (View Handle) :=
  objects.map Object.view

/-- Errors are recoverable, and a part is held by one of the operands. -/
theorem answer_sensible
    (builtin : Builtin)
    (operands : List Object) :
    Answer.Related
      (fun first second => first = second ∧ ∃ operand ∈ operands, first ∈ operand.handles)
      (builtin.answer (views operands)) (builtin.answer (views operands)) := by
  refine answer_related builtin (List.forall₂_same.mpr fun view member => ?_)
  obtain ⟨operand, isOperand, rfl⟩ := List.mem_map.mp member
  cases operand with
  | integer value =>
      exact .integer value
  | pair car cdr =>
      exact .pair
        ⟨rfl, .pair car cdr, isOperand, List.mem_cons_self⟩
        ⟨rfl, .pair car cdr, isOperand, List.mem_cons_of_mem car List.mem_cons_self⟩
  | nil | void | boolean | symbol | function | specialForm =>
      exact .other _

/-- Some handles name some objects, in order. -/
def Names (machine : Machine) (handles : List Handle) (objects : List Object) : Prop :=
  List.Forall₂ (fun handle object => machine.heap.get? handle = some object) handles objects

variable {machine : Machine}

/-- The last of some handles names the last of their objects. -/
theorem Names.concat
    {others : List Handle}
    {first : Handle}
    {operands : List Object}
    (names : Names machine (others ++ [first]) operands) :
    ∃ otherObjects firstObject,
      operands = otherObjects ++ [firstObject] ∧
        Names machine others otherObjects ∧
        machine.heap.get? first = some firstObject := by
  have reversed := List.forall₂_reverse_iff.mpr names
  rw [List.reverse_append, List.reverse_singleton, List.singleton_append,
    List.forall₂_cons_left_iff] at reversed
  obtain ⟨firstObject, otherObjects, found, othersNamed, shape⟩ := reversed
  refine ⟨otherObjects.reverse, firstObject, ?_, ?_, found⟩
  · rw [← List.reverse_reverse operands, shape, List.reverse_cons]
  · rw [Names, ← List.forall₂_reverse_iff, List.reverse_reverse]
    exact othersNamed

theorem lookIntegers_eq
    {handles : List Handle}
    {objects : List Object}
    (names : Names machine handles objects) :
    lookIntegers handles machine = (integers (views objects), machine) := by
  induction names with
  | nil =>
      rfl
  | @cons handle object handles objects found _ inductionHypothesis =>
      have step :
          lookIntegers (handle :: handles) = do
            let value ← Machine.lookInteger handle
            let values ← lookIntegers handles
            return value :: values :=
        List.mapM_cons
      have views_cons : views (object :: objects) = object.view :: views objects :=
        rfl
      rw [step, views_cons, integers_cons, Transition.bind_apply,
        Machine.lookInteger_found found, Object.integerValue_view]
      cases object.integerValue with
      | error error =>
          rfl
      | ok value =>
          simp only [Transition.bind_apply, inductionHypothesis]
          cases integers (views objects) <;> rfl

section Procedures

variable
  {taken below : List Handle}
  {operands : List Object}
  (entries : machine.stack.entries = taken ++ below)
  (names : Names machine taken operands)

include entries names

/-- An operation that folds all its operands. -/
theorem fold_eq_finish
    (fold : List Int64 → Int64) :
    (do
        let values ← lookIntegers (← Machine.popMany taken.length)
        Machine.allocate (.integer (fold values)) : Action Handle) machine =
      finish (folded fold (views operands)) (machine.withEntries below) := by
  have looked :
      lookIntegers taken (machine.withEntries below) =
        (integers (views operands), machine.withEntries below) :=
    lookIntegers_eq names
  simp only [Transition.bind_apply, Machine.popMany_append entries, looked, folded]
  cases integers (views operands) <;> rfl

theorem comparison_eq_finish
    (builtin : Builtin)
    (test : Int64 → Int64 → Bool) :
    comparison builtin test taken.length machine =
      finish (compared builtin test (views operands)) (machine.withEntries below) := by
  have sameLength : taken.length = operands.length := names.length_eq
  by_cases arity : taken.length = 2
  · obtain ⟨right, left, rfl⟩ := List.length_eq_two.mp arity
    obtain ⟨rightObject, leftObject, rfl⟩ := List.length_eq_two.mp (sameLength ▸ arity)
    obtain ⟨rightFound, leftFound⟩ :
        machine.heap.get? right = some rightObject ∧
          machine.heap.get? left = some leftObject := by
      simpa [Names] using names
    have popRight : Machine.pop machine = (.ok right, machine.withEntries (left :: below)) :=
      Machine.pop_cons entries
    have popLeft :
        Machine.pop (machine.withEntries (left :: below)) =
          (.ok left, machine.withEntries below) :=
      Machine.pop_cons rfl
    have lookRight :
        Machine.lookInteger right (machine.withEntries below) =
          (rightObject.integerValue, machine.withEntries below) :=
      Machine.lookInteger_found rightFound
    have lookLeft :
        Machine.lookInteger left (machine.withEntries below) =
          (leftObject.integerValue, machine.withEntries below) :=
      Machine.lookInteger_found leftFound
    have accepted := requireArity_accepted builtin 2 machine
    simp only [comparison, Transition.bind_apply, List.length_cons, List.length_nil,
      Nat.zero_add, Nat.reduceAdd, accepted, popRight, popLeft, lookRight, views,
      List.map_cons, List.map_nil, compared, Object.integerValue_view]
    cases rightObject.integerValue with
    | error error =>
        rfl
    | ok rightValue =>
        simp only [lookLeft]
        cases leftObject.integerValue <;> rfl
  · have refused := requireArity_refused builtin entries arity
    have answered :
        compared builtin test (views operands) =
          .error (builtin.refusal "2" (views operands)) := by
      unfold compared
      split
      · rename_i shape
        have shapeLength := congrArg List.length shape
        rw [views, List.length_map, ← sameLength] at shapeLength
        exact absurd shapeLength arity
      · rfl
    rw [comparison, Transition.bind_apply, refused, answered, refusal, views, List.length_map,
      ← sameLength]
    rfl

theorem selection_eq_finish
    (builtin : Builtin)
    {part : Object → Except Error Handle}
    {viewed : View Handle → Except Error Handle}
    (samePart : ∀ object : Object, viewed object.view = part object) :
    selection builtin part taken.length machine =
      finish (selected builtin viewed (views operands)) (machine.withEntries below) := by
  have sameLength : taken.length = operands.length := names.length_eq
  by_cases arity : taken.length = 1
  · obtain ⟨handle, rfl⟩ := List.length_eq_one_iff.mp arity
    obtain ⟨object, rfl⟩ := List.length_eq_one_iff.mp (sameLength ▸ arity)
    have found : machine.heap.get? handle = some object := by
      simpa [Names] using names
    have popHandle : Machine.pop machine = (.ok handle, machine.withEntries below) :=
      Machine.pop_cons entries
    have lookHandle :
        Machine.look handle (machine.withEntries below) =
          (.ok object, machine.withEntries below) :=
      Machine.look_found found
    have accepted := requireArity_accepted builtin 1 machine
    simp only [selection, Transition.bind_apply, List.length_cons, List.length_nil,
      Nat.zero_add, accepted, popHandle, lookHandle, views, List.map_cons, List.map_nil, selected,
      samePart]
    cases part object <;> rfl
  · have refused := requireArity_refused builtin entries arity
    have answered :
        selected builtin viewed (views operands) =
          .error (builtin.refusal "1" (views operands)) := by
      unfold selected
      split
      · rename_i shape
        have shapeLength := congrArg List.length shape
        rw [views, List.length_map, ← sameLength] at shapeLength
        exact absurd shapeLength arity
      · rfl
    rw [selection, Transition.bind_apply, refused, answered, refusal, views, List.length_map,
      ← sameLength]
    rfl

theorem subtraction_eq_finish :
    subtraction taken.length machine =
      finish (subtracted (views operands)) (machine.withEntries below) := by
  have sameLength : taken.length = operands.length := names.length_eq
  rcases List.eq_nil_or_concat taken with rfl | ⟨others, first, rfl⟩
  · obtain rfl : operands = [] := List.length_eq_zero_iff.mp sameLength.symm
    have sameMachine : machine.withEntries below = machine := by
      rw [← List.nil_append below, ← entries, Machine.withEntries_self]
    rw [sameMachine]
    rfl
  · rw [List.concat_eq_append] at entries names sameLength ⊢
    obtain ⟨otherObjects, firstObject, rfl, othersNamed, found⟩ := names.concat
    have otherEntries : machine.stack.entries = others ++ first :: below := by
      rw [entries, List.append_assoc, List.singleton_append]
    have popOthers := Machine.popMany_append otherEntries
    have popFirst :
        Machine.pop (machine.withEntries (first :: below)) =
          (.ok first, machine.withEntries below) :=
      Machine.pop_cons rfl
    have lookFirst :
        Machine.lookInteger first (machine.withEntries below) =
          (firstObject.integerValue, machine.withEntries below) :=
      Machine.lookInteger_found found
    have lookOthers :
        lookIntegers others (machine.withEntries below) =
          (integers (views otherObjects), machine.withEntries below) :=
      lookIntegers_eq othersNamed
    have positive : (others ++ [first]).length ≠ 0 := by
      simp
    have oneLess : (others ++ [first]).length - 1 = others.length := by
      simp
    simp only [subtraction, positive, ↓reduceIte, oneLess, Transition.bind_apply, popOthers,
      popFirst, lookFirst, views, List.map_append, List.map_cons, List.map_nil, subtracted,
      List.getLast?_concat, List.dropLast_concat, Object.integerValue_view]
    cases firstObject.integerValue with
    | error error =>
        rfl
    | ok firstValue =>
        simp only [lookOthers, views]
        cases integers (otherObjects.map Object.view) <;> rfl

/-- A strict operation takes its operands and finishes with its answer. -/
theorem procedure_eq_finish
    {builtin : Builtin}
    (strict : builtin.evaluatesOperands = true)
    (evaluator : Evaluator) :
    builtin.procedure evaluator taken.length machine =
      some (finish (builtin.answer (views operands)) (machine.withEntries below)) := by
  have lifted
      {action : Action Handle}
      (computes :
        action machine = finish (builtin.answer (views operands)) (machine.withEntries below)) :
      (liftM action : Run Handle) machine =
        some (finish (builtin.answer (views operands)) (machine.withEntries below)) := by
    rw [Run.liftM_apply, computes]
  cases builtin with
  | add =>
      exact lifted (fold_eq_finish entries names sum)
  | multiply =>
      exact lifted (fold_eq_finish entries names product)
  | subtract =>
      exact lifted (subtraction_eq_finish entries names)
  | equal | less | greater =>
      exact lifted (comparison_eq_finish entries names _ _)
  | car =>
      exact lifted (selection_eq_finish entries names _ Object.car_view)
  | cdr =>
      exact lifted (selection_eq_finish entries names _ Object.cdr_view)
  | conditional | definition =>
      exact absurd strict (by decide)

end Procedures

end Builtin

end ArenaLisp
