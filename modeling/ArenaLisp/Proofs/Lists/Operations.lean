import ArenaLisp.Proofs.BuiltinDiscipline
import ArenaLisp.Proofs.Lists.Regularity
import ArenaLisp.Proofs.Plans.Twins

namespace ArenaLisp

/-!
# Regularity throughout a builtin operation

The builtin operations allocate leaves and nothing else, and they refuse operands of the
wrong number or kind, but never a chain of operands.  What they evaluate is reached from
the stack.
-/

open Machine Plan

/-- An answer that is no complaint about a chain of operands. -/
def Harmless {Result : Type} (result : Except Error Result) : Prop :=
  result ≠ .error .malformedList

/--
On regular machines plans of evaluations stay regular, and an interpreter, the twin, does
the same.
-/
def Plan.Evaluation.StaysRegular (inner : Evaluation) (twin : Evaluator) : Prop :=
  ∀ machine expression,
    Machine.Orderly IsBuiltin machine →
    machine.Regular →
    machine.heap.Reaches machine.stack.entries expression →
    Behaves Regular (inner expression) (twin.evaluate expression) machine
      (Answers IsBuiltin machine.heap machine.stack.entries)

namespace Machine

/-- An evaluation complains about memory and nothing else. -/
theorem Answers.harmless
    {operations : Operation → Prop}
    {before : Heap}
    {below : List Handle}
    {result : Except Error Handle}
    {after : Machine}
    (answers : Answers operations before below result after) :
    Harmless result := by
  rintro rfl
  obtain ⟨isOutOfMemory, _⟩ := answers.failure _ rfl
  cases isOutOfMemory

end Machine

namespace Builtin

theorem harmless_pure
    {Result : Type}
    (value : Result) :
    Harmless (pure value) := by
  rintro ⟨⟩

/-- A builtin operation complains about memory, or about its operands one by one. -/
theorem Concludes.harmless
    {builtin : Builtin}
    {given : Nat}
    {before : Heap}
    {below : List Handle}
    {result : Except Error Handle}
    {after : Machine}
    (concludes : Concludes IsBuiltin builtin given before below result after) :
    Harmless result := by
  intro malformed
  rcases concludes.fails _ malformed with isOutOfMemory | refuses
  · cases isOutOfMemory
  · cases refuses

variable
  {inner : Evaluation}
  {evaluator twin : Evaluator}
  {machine : Machine}
  {taken below : List Handle}

theorem preserves_requireArity
    (builtin : Builtin)
    (expected given : Nat) :
    (Plan.requireArity builtin expected given).Preserves Regular := by
  unfold Plan.requireArity
  split
  · exact .bind (fun _ regular => regular.throughout_discard given) fun _ => .throw _
  · exact .pure ()

theorem preserves_lookInteger (handle : Handle) : (Plan.lookInteger handle).Preserves Regular :=
  .bind (.observe _) fun _ => .observe _

theorem preserves_lookIntegers (handles : List Handle) :
    (Plan.lookIntegers handles).Preserves Regular := by
  induction handles with
  | nil =>
      exact .pure []
  | cons handle rest inductionHypothesis =>
      exact (preserves_lookInteger handle).bind fun _ =>
        inductionHypothesis.bind fun _ => .pure _

theorem preserves_folding
    (fold : List Int64 → Int64)
    (given : Nat) :
    (folding fold given).Preserves Regular :=
  .bind (fun _ regular => regular.throughout_onStack _) fun handles =>
    (preserves_lookIntegers handles).bind fun _ => Regular.preserves_allocate rfl

theorem preserves_subtraction (given : Nat) : (Plan.subtraction given).Preserves Regular := by
  have subtracts :
      Preserves Regular (do
        let otherHandles ← Plan.popMany (given - 1)
        let firstHandle ← Plan.pop
        let first ← Plan.lookInteger firstHandle
        let others ← Plan.lookIntegers otherHandles
        Plan.allocate (.integer (difference first others))) :=
    .bind (fun _ regular => regular.throughout_onStack _) fun others =>
      .bind (fun _ regular => regular.throughout_pop) fun first =>
        (preserves_lookInteger first).bind fun _ =>
          (preserves_lookIntegers others).bind fun _ => Regular.preserves_allocate rfl
  unfold Plan.subtraction
  split
  · exact .bind (.throw _) fun _ => subtracts
  · exact subtracts

theorem preserves_comparison
    (builtin : Builtin)
    (test : Int64 → Int64 → Bool)
    (given : Nat) :
    (Plan.comparison builtin test given).Preserves Regular :=
  (preserves_requireArity builtin 2 given).bind fun _ =>
    .bind (fun _ regular => regular.throughout_pop) fun right =>
      .bind (fun _ regular => regular.throughout_pop) fun left =>
        (preserves_lookInteger right).bind fun _ =>
          (preserves_lookInteger left).bind fun _ => Regular.preserves_allocate rfl

theorem preserves_selection
    (builtin : Builtin)
    (part : Object → Except Error Handle)
    (given : Nat) :
    (Plan.selection builtin part given).Preserves Regular :=
  (preserves_requireArity builtin 1 given).bind fun _ =>
    .bind (fun _ regular => regular.throughout_pop) fun _ =>
      .bind (.observe _) fun _ => .observe _

/-- An operation whose operands are evaluated does not evaluate anything itself. -/
theorem preserves_strict
    {builtin : Builtin}
    (strict : builtin.evaluatesOperands = true)
    (inner : Evaluation)
    (given : Nat) :
    (Plan.procedure inner given builtin).Preserves Regular := by
  cases builtin with
  | add | multiply =>
      exact preserves_folding _ given
  | subtract =>
      exact preserves_subtraction given
  | equal | less | greater =>
      exact preserves_comparison _ _ given
  | car | cdr =>
      exact preserves_selection _ _ given
  | conditional | definition =>
      exact absurd strict (by decide)

section

variable
  (follows : inner.Follows evaluator)
  (stays : inner.StaysRegular twin)

include follows in
theorem strict_behaves
    {builtin : Builtin}
    (strict : builtin.evaluatesOperands = true)
    (orderly : machine.Orderly IsBuiltin)
    (regular : machine.Regular)
    (entries : machine.stack.entries = taken ++ below) :
    Behaves Regular (Plan.procedure inner taken.length builtin)
      (builtin.procedure twin taken.length) machine fun result _ => Harmless result := by
  obtain ⟨operands, names⟩ := exists_operands orderly entries
  have answered (evaluator : Evaluator) := procedure_eq_finish entries names strict evaluator
  have concludes := finish_concludes (orderly.popped entries) names strict
  refine ⟨preserves_strict strict inner taken.length machine regular, ?_, ?_⟩
  · rw [run_procedure follows, answered, answered]
  · rw [run_procedure follows]
    exact .of_answer (answered evaluator) concludes.harmless

include stays

theorem concludeConditional_behaves
    (orderly : machine.Orderly IsBuiltin)
    (regular : machine.Regular)
    {consequent otherwise condition outcome : Handle}
    (entries : machine.stack.entries = [otherwise, consequent, condition] ++ below)
    (occupied : machine.heap.isOccupied outcome = true) :
    Behaves Regular (Plan.concludeConditional inner consequent otherwise outcome)
      (concludeConditional twin consequent otherwise outcome) machine
      fun result _ => Harmless result := by
  obtain ⟨object, found⟩ := Heap.isOccupied_iff.mp occupied
  have selectedReached :
      machine.heap.Reaches machine.stack.entries
        (if object.isTruthy then consequent else otherwise) := by
    refine orderly.toWellFormed.reaches_entry ?_
    rw [entries]
    split <;> simp
  refine .bind_action (run_look outcome) (.observe _ regular) (look_found found) fun _ => ?_
  refine (stays machine _ orderly regular selectedReached).bind ?_ ?_
  · intro value after regularAfter answers
    rw [entries] at answers
    obtain ⟨last, discarded⟩ := discard_append (answers.value value rfl).1
    exact .bind_action (run_discard 3) (regularAfter.throughout_discard 3) discarded
      fun regularEnd => .pure regularEnd (harmless_pure value)
  · intro error after _ answers
    exact answers.harmless

theorem conditionalForm_behaves
    (orderly : machine.Orderly IsBuiltin)
    (regular : machine.Regular)
    (entries : machine.stack.entries = taken ++ below) :
    Behaves Regular (Plan.conditionalForm inner taken.length)
      (conditionalForm twin taken.length) machine fun result _ => Harmless result := by
  have arityThroughout := preserves_requireArity conditional 3 taken.length machine regular
  have arityRun := run_requireArity conditional 3 taken.length
  by_cases arity : taken.length = 3
  · obtain ⟨otherwise, consequent, condition, rfl⟩ := List.length_eq_three.mp arity
    have peekOtherwise : peek 0 machine = (.ok otherwise, machine) :=
      peek_found (by simp [entries])
    have peekConsequent : peek 1 machine = (.ok consequent, machine) :=
      peek_found (by simp [entries])
    have peekCondition : peek 2 machine = (.ok condition, machine) :=
      peek_found (by simp [entries])
    have conditionReached : machine.heap.Reaches machine.stack.entries condition :=
      orderly.toWellFormed.reaches_entry (by simp [entries])
    refine .bind_action arityRun arityThroughout (requireArity_accepted conditional 3 machine)
      fun _ => ?_
    refine .bind_action (run_peek 0) (.observe _ regular) peekOtherwise fun _ => ?_
    refine .bind_action (run_peek 1) (.observe _ regular) peekConsequent fun _ => ?_
    refine .bind_action (run_peek 2) (.observe _ regular) peekCondition fun _ => ?_
    refine (stays machine condition orderly regular conditionReached).bind ?_ ?_
    · intro outcome between regularBetween answers
      obtain ⟨sameEntries, occupied⟩ := answers.value outcome rfl
      rw [entries] at sameEntries
      exact concludeConditional_behaves stays answers.orderly regularBetween sameEntries occupied
    · intro error after _ answers
      exact answers.harmless
  · exact .bind_refused arityRun arityThroughout (requireArity_refused conditional entries arity)
      (by rintro ⟨⟩)

omit stays in
/-- A definition binds its name, takes its operands and answers with a new leaf. -/
theorem concludeDefinition_behaves
    (orderly : machine.Orderly IsBuiltin)
    (regular : machine.Regular)
    (name : String)
    {value : Handle}
    (entries : machine.stack.entries = taken ++ below)
    (two : taken.length = 2)
    (occupied : machine.heap.isOccupied value = true) :
    let concluded : Run Handle := do
      Machine.bindName name value
      let _ ← Machine.discard 2
      Machine.allocate .void
    Behaves Regular (Plan.concludeDefinition name value) concluded machine
      fun result _ => Harmless result := by
  have boundEntries : (machine.binding name value).stack.entries = taken ++ below :=
    entries
  obtain ⟨last, discarded⟩ := discard_append boundEntries
  rw [two] at discarded
  have orderlyBelow := (orderly.binding name occupied).popped boundEntries
  refine .bind_action (run_bindName name value) (regular.throughout_bindName name value)
    (bindName_eq name value machine) fun regularBound => ?_
  refine .bind_action (run_discard 2) (regularBound.throughout_discard 2) discarded
    fun regularBelow => ?_
  exact .of_run (run_allocate .void) (Regular.preserves_allocate rfl _ regularBelow)
    (.lift (allocate_answers orderlyBelow rfl rfl).harmless)

theorem definitionForm_behaves
    (orderly : machine.Orderly IsBuiltin)
    (regular : machine.Regular)
    (entries : machine.stack.entries = taken ++ below) :
    Behaves Regular (Plan.definitionForm inner taken.length)
      (definitionForm twin taken.length) machine fun result _ => Harmless result := by
  have arityThroughout := preserves_requireArity definition 2 taken.length machine regular
  have arityRun := run_requireArity definition 2 taken.length
  by_cases arity : taken.length = 2
  · obtain ⟨expression, nameExpression, rfl⟩ := List.length_eq_two.mp arity
    have expressionReached : machine.heap.Reaches machine.stack.entries expression :=
      orderly.toWellFormed.reaches_entry (by simp [entries])
    have nameReached : machine.heap.Reaches machine.stack.entries nameExpression :=
      orderly.toWellFormed.reaches_entry (by simp [entries])
    obtain ⟨nameObject, nameFound⟩ := nameReached.exists_object
    have peekExpression : peek 0 machine = (.ok expression, machine) :=
      peek_found (by simp [entries])
    have peekName : peek 1 machine = (.ok nameExpression, machine) :=
      peek_found (by simp [entries])
    refine .bind_action arityRun arityThroughout (requireArity_accepted definition 2 machine)
      fun _ => ?_
    refine .bind_action (run_peek 0) (.observe _ regular) peekExpression fun _ => ?_
    refine .bind_action (run_peek 1) (.observe _ regular) peekName fun _ => ?_
    refine .bind_action (run_look nameExpression) (.observe _ regular) (look_found nameFound)
      fun _ => ?_
    cases named : nameObject.symbolName with
    | error error =>
        obtain ⟨last, discarded⟩ := discard_append entries
        obtain ⟨request, kind, rfl⟩ := symbolName_unsupported named
        exact .bind_action (run_discard 2) (regular.throughout_discard 2) discarded
          fun regularBelow => .throw regularBelow (by rintro ⟨⟩)
    | ok name =>
        refine .bind_action run_current (.observe _ regular) (Transition.get_apply machine)
          fun _ => ?_
        cases machine.eagerDefinitions with
        | false =>
            exact concludeDefinition_behaves orderly regular name entries rfl
              expressionReached.isOccupied
        | true =>
            refine (stays machine expression orderly regular expressionReached).bind ?_ ?_
            · intro value between regularBetween answers
              obtain ⟨sameEntries, occupied⟩ := answers.value value rfl
              rw [entries] at sameEntries
              exact concludeDefinition_behaves answers.orderly regularBetween name sameEntries
                rfl occupied
            · intro error after _ answers
              exact answers.harmless
  · exact .bind_refused arityRun arityThroughout (requireArity_refused definition entries arity)
      (by rintro ⟨⟩)

include follows in
theorem procedure_behaves
    (builtin : Builtin)
    (orderly : machine.Orderly IsBuiltin)
    (regular : machine.Regular)
    (entries : machine.stack.entries = taken ++ below) :
    Behaves Regular (Plan.procedure inner taken.length builtin)
      (builtin.procedure twin taken.length) machine fun result _ => Harmless result := by
  cases builtin with
  | conditional =>
      exact conditionalForm_behaves stays orderly regular entries
  | definition =>
      exact definitionForm_behaves stays orderly regular entries
  | _ =>
      exact strict_behaves follows rfl orderly regular entries

end

end Builtin

end ArenaLisp
