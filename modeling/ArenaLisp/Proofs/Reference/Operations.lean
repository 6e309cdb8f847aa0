import ArenaLisp.Proofs.BuiltinDiscipline
import ArenaLisp.Proofs.Reference.Representation

namespace ArenaLisp

/-!
# The builtin operations refine the reference

The operands of a call lie on the stack, the last one on top, and unfold into the
operands of the reference.  Strict operations compute the same answer from them.  The
special forms evaluate some of them, with an interpreter that already refines the
reference on trees of smaller height.
-/

open Machine

/-- An interpreter that refines the reference on expressions below a given height. -/
def Evaluator.Follows (capacity limit : Nat) (evaluator : Evaluator) : Prop :=
  ∀ machine world expression tree,
    machine.Orderly IsBuiltin →
    Represents capacity machine world →
    machine.heap.Reaches machine.stack.entries expression →
    machine.heap.Unfolds expression tree →
    tree.height < limit →
    (evaluator.evaluate expression).Yields machine
      (RefinesValue capacity (Reference.evaluate tree world))

/-- What the evaluation of one expression gives to those who go on with its value. -/
theorem Evaluator.Follows.and_safe
    {capacity limit : Nat}
    {evaluator : Evaluator}
    (follows : evaluator.Follows capacity limit)
    (safe : evaluator.Safe IsBuiltin)
    {machine : Machine}
    {world : World}
    {expression : Handle}
    {tree : Tree}
    (orderly : machine.Orderly IsBuiltin)
    (represents : Represents capacity machine world)
    (reached : machine.heap.Reaches machine.stack.entries expression)
    (unfolds : machine.heap.Unfolds expression tree)
    (low : tree.height < limit) :
    (evaluator.evaluate expression).Yields machine fun result after =>
      RefinesValue capacity (Reference.evaluate tree world) result after ∧
        Answers IsBuiltin machine.heap machine.stack.entries result after :=
  (follows machine world expression tree orderly represents reached unfolds low).and_ensures
    (safe machine expression orderly reached)

/-- A run that starts with an evaluation refines what the reference does with the value. -/
theorem Evaluator.Follows.bind
    {capacity limit : Nat}
    {evaluator : Evaluator}
    (follows : evaluator.Follows capacity limit)
    (safe : evaluator.Safe IsBuiltin)
    {machine : Machine}
    {world : World}
    {expression : Handle}
    {tree : Tree}
    (orderly : machine.Orderly IsBuiltin)
    (represents : Represents capacity machine world)
    (reached : machine.heap.Reaches machine.stack.entries expression)
    (unfolds : machine.heap.Unfolds expression tree)
    (low : tree.height < limit)
    {continuation : Handle → Run Handle}
    {reference : Except Error Tree × World}
    (next :
      ∀ value after,
        after.heap.Unfolds value (Reference.evaluate tree world).1 →
        Represents capacity after (Reference.evaluate tree world).2 →
        Answers IsBuiltin machine.heap machine.stack.entries (.ok value) after →
        (continuation value).Yields after (Refines capacity reference)) :
    (evaluator.evaluate expression >>= continuation).Yields machine
      (Refines capacity reference) := by
  apply Run.Yields.bind (follows.and_safe safe orderly represents reached unfolds low)
  · intro value after holds
    obtain ⟨refines, answers⟩ := holds
    obtain ⟨valueUnfolds, representsAfter⟩ := refines.unfolds
    exact next value after valueUnfolds representsAfter answers
  · intro error after holds
    exact .inl (congrArg Except.error holds.1.outOfMemory)

namespace Builtin

variable
  {capacity limit : Nat}
  {evaluator : Evaluator}
  {machine : Machine}
  {world : World}
  {taken below : List Handle}

theorem views_unfold
    {objects : List Object}
    {values : List Tree}
    (names : Names machine taken objects)
    (allUnfold : List.Forall₂ machine.heap.Unfolds taken values) :
    List.Forall₂ (View.Related machine.heap.Unfolds) (views objects) (values.map Tree.view) := by
  induction names generalizing values with
  | nil =>
      cases allUnfold
      exact .nil
  | cons found _ inductionHypothesis =>
      cases allUnfold with
      | cons first rest =>
          exact .cons (first.views_related found) (inductionHypothesis rest)

theorem strict_refines
    {builtin : Builtin}
    (isStrict : builtin.evaluatesOperands = true)
    (orderly : machine.Orderly IsBuiltin)
    (represents : Represents capacity machine world)
    (entries : machine.stack.entries = taken ++ below)
    {values : List Tree}
    (allUnfold : List.Forall₂ machine.heap.Unfolds taken values.reverse) :
    (builtin.procedure evaluator taken.length).Yields machine
      (Refines capacity (Reference.strict builtin values, world)) := by
  obtain ⟨objects, names⟩ := exists_operands orderly entries
  refine .of_answer (procedure_eq_finish entries names isStrict evaluator) ?_
  have popped := (orderly.popped entries).toWellFormed
  have still := represents.withEntries below
  have related := answer_related builtin (views_unfold names allUnfold)
  rw [Reference.strict]
  generalize builtin.answer (views objects) = answer at related ⊢
  generalize builtin.answer (values.reverse.map Tree.view) = reference at related ⊢
  cases related with
  | error recoverable =>
      exact .inr ⟨.error recoverable, still⟩
  | integer value =>
      exact allocate_refines popped still rfl
  | boolean value =>
      exact allocate_refines popped still rfl
  | part parts =>
      exact .inr ⟨.value parts, still⟩

theorem concludeConditional_refines
    (follows : evaluator.Follows capacity limit)
    (safe : evaluator.Safe IsBuiltin)
    (orderly : machine.Orderly IsBuiltin)
    (represents : Represents capacity machine world)
    {consequent otherwise condition outcome : Handle}
    (entries : machine.stack.entries = [otherwise, consequent, condition] ++ below)
    {consequentTree otherwiseTree outcomeTree : Tree}
    (consequentUnfolds : machine.heap.Unfolds consequent consequentTree)
    (otherwiseUnfolds : machine.heap.Unfolds otherwise otherwiseTree)
    (outcomeUnfolds : machine.heap.Unfolds outcome outcomeTree)
    (consequentLow : consequentTree.height < limit)
    (otherwiseLow : otherwiseTree.height < limit) :
    (concludeConditional evaluator consequent otherwise outcome).Yields machine
      (RefinesValue capacity
        (Reference.evaluate (if outcomeTree.isTruthy then consequentTree else otherwiseTree)
          world)) := by
  obtain ⟨object, found⟩ := outcomeUnfolds.exists_object
  refine .bind_lift (look_found found) ?_
  rw [outcomeUnfolds.isTruthy_eq found]
  have selectedReached :
      machine.heap.Reaches machine.stack.entries
        (if outcomeTree.isTruthy then consequent else otherwise) := by
    refine orderly.toWellFormed.reaches_entry ?_
    rw [entries]
    split <;> simp
  have selectedUnfolds :
      machine.heap.Unfolds (if outcomeTree.isTruthy then consequent else otherwise)
        (if outcomeTree.isTruthy then consequentTree else otherwiseTree) := by
    split
    · exact consequentUnfolds
    · exact otherwiseUnfolds
  have selectedLow :
      (if outcomeTree.isTruthy then consequentTree else otherwiseTree).height < limit := by
    split
    · exact consequentLow
    · exact otherwiseLow
  apply follows.bind safe orderly represents selectedReached selectedUnfolds selectedLow
  intro value after unfolds representsAfter answers
  have sameEntries := (answers.value value rfl).1
  rw [entries] at sameEntries
  obtain ⟨last, discarded⟩ := discard_append sameEntries
  exact .bind_lift discarded (.pure (.inr ⟨.value unfolds, representsAfter.withEntries below⟩))

theorem conditionalForm_refines
    (follows : evaluator.Follows capacity limit)
    (safe : evaluator.Safe IsBuiltin)
    (orderly : machine.Orderly IsBuiltin)
    (represents : Represents capacity machine world)
    (entries : machine.stack.entries = taken ++ below)
    {expressions : List Tree}
    (allUnfold : List.Forall₂ machine.heap.Unfolds taken expressions.reverse)
    (low : ∀ expression ∈ expressions, expression.height < limit) :
    (conditionalForm evaluator taken.length).Yields machine
      (Refines capacity (Reference.conditional (expressions.map .ofExpression) world)) := by
  have sameLength : taken.length = expressions.length := by
    rw [allUnfold.length_eq, List.length_reverse]
  by_cases arity : taken.length = 3
  · obtain ⟨condition, consequent, otherwise, rfl⟩ :=
      List.length_eq_three.mp (sameLength ▸ arity)
    simp only [List.reverse_cons, List.reverse_nil, List.nil_append, List.cons_append] at allUnfold
    obtain ⟨otherwiseHandle, _, otherwiseUnfolds, others, rfl⟩ :=
      List.forall₂_cons_right_iff.mp allUnfold
    obtain ⟨consequentHandle, _, consequentUnfolds, last, rfl⟩ :=
      List.forall₂_cons_right_iff.mp others
    obtain ⟨conditionHandle, _, conditionUnfolds, none, rfl⟩ :=
      List.forall₂_cons_right_iff.mp last
    obtain rfl := List.forall₂_nil_right_iff.mp none
    have reached
        {handle : Handle}
        (member : handle ∈ [otherwiseHandle, consequentHandle, conditionHandle]) :
        machine.heap.Reaches machine.stack.entries handle := by
      refine orderly.toWellFormed.reaches_entry ?_
      rw [entries]
      exact List.mem_append_left _ member
    rw [Reference.conditional_eq]
    apply Run.Yields.of_eq (conditionalForm_eq evaluator entries)
    apply follows.bind safe orderly represents (reached (by simp)) conditionUnfolds
      (low condition (by simp))
    intro outcome between outcomeUnfolds representsBetween answers
    have sameEntries := (answers.value outcome rfl).1
    rw [entries] at sameEntries
    -- The branches were reached from the stack, so the condition has not changed them.
    exact concludeConditional_refines follows safe answers.orderly representsBetween sameEntries
      (consequentUnfolds.of_keeps answers.keeps (reached (by simp)))
      (otherwiseUnfolds.of_keeps answers.keeps (reached (by simp)))
      outcomeUnfolds (low consequent (by simp)) (low otherwise (by simp))
  · rw [Reference.conditional_refused (by rwa [List.length_map, ← sameLength]), List.length_map,
      ← sameLength]
    refine .of_answer (conditionalForm_refused evaluator entries arity) (.inr ⟨.error rfl, ?_⟩)
    exact represents.withEntries below

theorem concludeDefinition_refines
    (orderly : machine.Orderly IsBuiltin)
    (represents : Represents capacity machine world)
    (entries : machine.stack.entries = taken ++ below)
    (two : taken.length = 2)
    (name : String)
    {value : Handle}
    {tree : Tree}
    (unfolds : machine.heap.Unfolds value tree) :
    Refines capacity (.ok .void, world.define name tree)
      (concludeDefinition name value machine).1 (concludeDefinition name value machine).2 := by
  obtain ⟨object, found⟩ := unfolds.exists_object
  have bound := orderly.binding name (Heap.isOccupied_of_get? found)
  have boundEntries : (machine.binding name value).stack.entries = taken ++ below :=
    entries
  rw [concludeDefinition_eq entries two]
  exact allocate_refines (bound.popped boundEntries).toWellFormed
    ((represents.binding name unfolds).withEntries below) rfl

theorem definitionForm_refines
    (follows : evaluator.Follows capacity limit)
    (safe : evaluator.Safe IsBuiltin)
    (orderly : machine.Orderly IsBuiltin)
    (represents : Represents capacity machine world)
    (entries : machine.stack.entries = taken ++ below)
    {expressions : List Tree}
    (allUnfold : List.Forall₂ machine.heap.Unfolds taken expressions.reverse)
    (low : ∀ expression ∈ expressions, expression.height < limit) :
    (definitionForm evaluator taken.length).Yields machine
      (Refines capacity (Reference.definition (expressions.map .ofExpression) world)) := by
  have sameLength : taken.length = expressions.length := by
    rw [allUnfold.length_eq, List.length_reverse]
  by_cases arity : taken.length = 2
  · obtain ⟨nameTree, expression, rfl⟩ := List.length_eq_two.mp (sameLength ▸ arity)
    simp only [List.reverse_cons, List.reverse_nil, List.nil_append, List.cons_append] at allUnfold
    obtain ⟨expressionHandle, _, expressionUnfolds, last, rfl⟩ :=
      List.forall₂_cons_right_iff.mp allUnfold
    obtain ⟨nameHandle, _, nameUnfolds, none, rfl⟩ := List.forall₂_cons_right_iff.mp last
    obtain rfl := List.forall₂_nil_right_iff.mp none
    obtain ⟨nameObject, nameFound⟩ := nameUnfolds.exists_object
    have sameName := nameUnfolds.symbolName_eq nameFound
    simp only [Reference.definition, List.map_cons, List.map_nil, Reference.Operand.ofExpression,
      ← sameName]
    cases named : nameObject.symbolName with
    | error error =>
        refine .of_answer (definitionForm_unnamed evaluator entries nameFound named) ?_
        exact .inr ⟨.error (symbolName_recoverable named), represents.withEntries below⟩
    | ok name =>
        rw [← represents.eagerDefinitions]
        cases eager : machine.eagerDefinitions with
        | false =>
            refine .of_answer (definitionForm_lazy evaluator entries nameFound named eager) ?_
            exact concludeDefinition_refines orderly represents entries rfl name expressionUnfolds
        | true =>
            have reached : machine.heap.Reaches machine.stack.entries expressionHandle :=
              orderly.toWellFormed.reaches_entry (by simp [entries])
            apply Run.Yields.of_eq (definitionForm_eager evaluator entries nameFound named eager)
            apply follows.bind safe orderly represents reached expressionUnfolds
              (low expression (by simp))
            intro value between valueUnfolds representsBetween answers
            have sameEntries := (answers.value value rfl).1
            rw [entries] at sameEntries
            exact .lift (concludeDefinition_refines answers.orderly representsBetween sameEntries
              rfl name valueUnfolds)
  · rw [Reference.definition_refused (by rwa [List.length_map, ← sameLength]), List.length_map,
      ← sameLength]
    refine .of_answer (definitionForm_refused evaluator entries arity) (.inr ⟨.error rfl, ?_⟩)
    exact represents.withEntries below

/--
An operation whose operands have been gathered on the stack refines the reference.
The values are the expressions themselves if the operation takes these.
-/
theorem procedure_refines
    (builtin : Builtin)
    (follows : evaluator.Follows capacity limit)
    (safe : evaluator.Safe IsBuiltin)
    (orderly : machine.Orderly IsBuiltin)
    (represents : Represents capacity machine world)
    (entries : machine.stack.entries = taken ++ below)
    {expressions values : List Tree}
    (allUnfold : List.Forall₂ machine.heap.Unfolds taken values.reverse)
    (raw : builtin.evaluatesOperands = false → values = expressions)
    (low : ∀ expression ∈ expressions, expression.height < limit) :
    (builtin.procedure evaluator taken.length).Yields machine
      (Refines capacity
        (Reference.perform builtin (expressions.map .ofExpression) values world)) := by
  cases builtin with
  | conditional =>
      obtain rfl := raw rfl
      exact conditionalForm_refines follows safe orderly represents entries allUnfold low
  | definition =>
      obtain rfl := raw rfl
      exact definitionForm_refines follows safe orderly represents entries allUnfold low
  | add | subtract | multiply | equal | less | greater | car | cdr =>
      exact strict_refines rfl orderly represents entries allUnfold

end Builtin

end ArenaLisp
