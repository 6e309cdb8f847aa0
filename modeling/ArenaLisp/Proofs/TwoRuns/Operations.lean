import ArenaLisp.Proofs.BuiltinDiscipline
import ArenaLisp.Proofs.TwoRuns.Allocation
import Mathlib.Data.List.Zip

namespace ArenaLisp

/-!
# The builtin operations agree

Strict operations see the same of operands that are twins.  The special forms evaluate
expressions that the same stack entries lead to on both machines, and such expressions
are twins before and after any evaluation.
-/

namespace Machine

/-- Handles that two machines find by the same way from the same stack entry. -/
inductive Linked (first second : Machine) : Handle → Handle → Prop where
  | entry
      {firstHandle secondHandle : Handle}
      (member :
        (firstHandle, secondHandle) ∈ first.stack.entries.zip second.stack.entries) :
      Linked first second firstHandle secondHandle
  | car
      {firstParent firstCar firstCdr secondParent secondCar secondCdr : Handle}
      (parents : Linked first second firstParent secondParent)
      (firstFound : first.heap.get? firstParent = some (.pair firstCar firstCdr))
      (secondFound : second.heap.get? secondParent = some (.pair secondCar secondCdr)) :
      Linked first second firstCar secondCar
  | cdr
      {firstParent firstCar firstCdr secondParent secondCar secondCdr : Handle}
      (parents : Linked first second firstParent secondParent)
      (firstFound : first.heap.get? firstParent = some (.pair firstCar firstCdr))
      (secondFound : second.heap.get? secondParent = some (.pair secondCar secondCdr)) :
      Linked first second firstCdr secondCdr

namespace Linked

variable
  {exact : Prop}
  {twin : Handle → Handle → Prop}
  {operations : Operation → Prop}
  {first second : Machine}
  {firstHandle secondHandle : Handle}

theorem symm
    (linked : Linked first second firstHandle secondHandle) :
    Linked second first secondHandle firstHandle := by
  induction linked with
  | entry member =>
      apply Linked.entry
      rw [← List.zip_swap]
      exact List.mem_map_of_mem member
  | car _ firstFound secondFound inductionHypothesis =>
      exact .car inductionHypothesis secondFound firstFound
  | cdr _ firstFound secondFound inductionHypothesis =>
      exact .cdr inductionHypothesis secondFound firstFound

/-- Handles that are found by the same way are twins, whatever the twins are. -/
theorem twins
    (linked : Linked first second firstHandle secondHandle)
    (mirrors : Mirrors exact twin first second) :
    twin firstHandle secondHandle := by
  induction linked with
  | entry member =>
      exact List.forall₂_zip mirrors.entries member
  | car _ firstFound secondFound inductionHypothesis =>
      cases mirrors.alike_found inductionHypothesis firstFound secondFound with
      | leaf noHandles =>
          simp [Object.handles] at noHandles
      | pair cars _ =>
          exact cars
  | cdr _ firstFound secondFound inductionHypothesis =>
      cases mirrors.alike_found inductionHypothesis firstFound secondFound with
      | leaf noHandles =>
          simp [Object.handles] at noHandles
      | pair _ cdrs =>
          exact cdrs

theorem reached
    (linked : Linked first second firstHandle secondHandle)
    (orderly : first.Orderly operations) :
    first.heap.Reaches first.stack.entries firstHandle := by
  induction linked with
  | entry member =>
      exact orderly.toWellFormed.reaches_entry (List.of_mem_zip member).1
  | car _ firstFound _ inductionHypothesis =>
      exact (orderly.closed.reaches_parts inductionHypothesis firstFound).1
  | cdr _ firstFound _ inductionHypothesis =>
      exact (orderly.closed.reaches_parts inductionHypothesis firstFound).2

theorem record
    (linked : Linked first second firstHandle secondHandle)
    (firstEvent secondEvent : Event) :
    Linked (first.record firstEvent) (second.record secondEvent) firstHandle secondHandle := by
  induction linked with
  | entry member =>
      exact .entry member
  | car _ firstFound secondFound inductionHypothesis =>
      exact .car inductionHypothesis firstFound secondFound
  | cdr _ firstFound secondFound inductionHypothesis =>
      exact .cdr inductionHypothesis firstFound secondFound

/-- Evaluations keep the ways from the entries that they find, and leave a value above these. -/
theorem after_answers
    (linked : Linked first second firstHandle secondHandle)
    (firstOrderly : first.Orderly operations)
    (secondOrderly : second.Orderly operations)
    {firstValue secondValue : Handle}
    {firstAfter secondAfter : Machine}
    (firstAnswers :
      Answers operations first.heap first.stack.entries (.ok firstValue) firstAfter)
    (secondAnswers :
      Answers operations second.heap second.stack.entries (.ok secondValue) secondAfter) :
    Linked (firstAfter.withEntries (firstValue :: firstAfter.stack.entries))
      (secondAfter.withEntries (secondValue :: secondAfter.stack.entries))
      firstHandle secondHandle := by
  have firstEntries := (firstAnswers.value firstValue rfl).1
  have secondEntries := (secondAnswers.value secondValue rfl).1
  induction linked with
  | entry member =>
      apply Linked.entry
      rw [entries_withEntries, entries_withEntries, firstEntries, secondEntries,
        List.zip_cons_cons]
      exact List.mem_cons_of_mem _ member
  | car parents firstFound secondFound inductionHypothesis =>
      exact .car inductionHypothesis
        ((firstAnswers.keeps _ (parents.reached firstOrderly)).trans firstFound)
        ((secondAnswers.keeps _ (parents.symm.reached secondOrderly)).trans secondFound)
  | cdr parents firstFound secondFound inductionHypothesis =>
      exact .cdr inductionHypothesis
        ((firstAnswers.keeps _ (parents.reached firstOrderly)).trans firstFound)
        ((secondAnswers.keeps _ (parents.symm.reached secondOrderly)).trans secondFound)

end Linked

end Machine

open Machine

/-- Two interpreters that agree on expressions that two mirrored machines find by the same way. -/
def Evaluator.Agree (exact : Prop) (firstEvaluator secondEvaluator : Evaluator) : Prop :=
  ∀ twin first second firstExpression secondExpression,
    Machine.Orderly IsBuiltin first →
    Machine.Orderly IsBuiltin second →
    Mirrors exact twin first second →
    Linked first second firstExpression secondExpression →
    Run.Agrees exact (Twinned exact) (firstEvaluator.evaluate firstExpression)
      (secondEvaluator.evaluate secondExpression) first second

/-- Runs that start with evaluations of linked expressions agree if they do with twins. -/
theorem Evaluator.Agree.bind
    {exact : Prop}
    {twin : Handle → Handle → Prop}
    {firstEvaluator secondEvaluator : Evaluator}
    {first second : Machine}
    (agree : firstEvaluator.Agree exact secondEvaluator)
    (firstSafe : firstEvaluator.Safe IsBuiltin)
    (secondSafe : secondEvaluator.Safe IsBuiltin)
    (firstOrderly : first.Orderly IsBuiltin)
    (secondOrderly : second.Orderly IsBuiltin)
    (mirrors : Mirrors exact twin first second)
    {firstExpression secondExpression : Handle}
    (linked : Linked first second firstExpression secondExpression)
    {returned : Handle → Machine → Handle → Machine → Prop}
    {firstNext secondNext : Handle → Run Handle}
    (nexts :
      ∀ firstValue firstAfter secondValue secondAfter,
        Twinned exact firstValue firstAfter secondValue secondAfter →
        Answers IsBuiltin first.heap first.stack.entries (.ok firstValue) firstAfter →
        Answers IsBuiltin second.heap second.stack.entries (.ok secondValue) secondAfter →
        Run.Agrees exact returned (firstNext firstValue) (secondNext secondValue)
          firstAfter secondAfter) :
    Run.Agrees exact returned (firstEvaluator.evaluate firstExpression >>= firstNext)
      (secondEvaluator.evaluate secondExpression >>= secondNext) first second :=
  .bind (agree twin first second _ _ firstOrderly secondOrderly mirrors linked)
    (firstSafe first _ firstOrderly (linked.reached firstOrderly))
    (secondSafe second _ secondOrderly (linked.symm.reached secondOrderly)) nexts

namespace Builtin

variable
  {exact : Prop}
  {twin : Handle → Handle → Prop}
  {firstEvaluator secondEvaluator : Evaluator}
  {first second : Machine}
  {firstTaken firstBelow secondTaken secondBelow : List Handle}

theorem views_twins
    (mirrors : Mirrors exact twin first second)
    {firstObjects secondObjects : List Object}
    (taken : List.Forall₂ twin firstTaken secondTaken)
    (firstNames : Names first firstTaken firstObjects)
    (secondNames : Names second secondTaken secondObjects) :
    List.Forall₂ (View.Related twin) (views firstObjects) (views secondObjects) := by
  induction taken generalizing firstObjects secondObjects with
  | nil =>
      cases firstNames
      cases secondNames
      exact .nil
  | cons twins _ inductionHypothesis =>
      cases firstNames with
      | cons firstFound firstRest =>
          cases secondNames with
          | cons secondFound secondRest =>
              exact .cons (mirrors.alike_found twins firstFound secondFound).view_related
                (inductionHypothesis firstRest secondRest)

theorem finish_agrees
    (firstOrderly : first.Orderly IsBuiltin)
    (secondOrderly : second.Orderly IsBuiltin)
    (mirrors : Mirrors exact twin first second)
    {firstAnswer secondAnswer : Except Error (Answer Handle)}
    (related : Answer.Related twin firstAnswer secondAnswer) :
    Outcome exact (Twinned exact) (finish firstAnswer first) (finish secondAnswer second) := by
  cases related with
  | error recoverable =>
      exact .failed recoverable ⟨twin, mirrors⟩
  | integer value =>
      exact allocate_agrees mirrors firstOrderly.consistent secondOrderly.consistent rfl
  | boolean value =>
      exact allocate_agrees mirrors firstOrderly.consistent secondOrderly.consistent rfl
  | part parts =>
      exact .returned ⟨twin, mirrors, parts⟩

section

variable
  (firstOrderly : first.Orderly IsBuiltin)
  (secondOrderly : second.Orderly IsBuiltin)
  (mirrors : Mirrors exact twin first second)
  (firstEntries : first.stack.entries = firstTaken ++ firstBelow)
  (secondEntries : second.stack.entries = secondTaken ++ secondBelow)
  (sameNumber : firstTaken.length = secondTaken.length)

include firstEntries secondEntries sameNumber mirrors

/-- Operations that take their operands and refuse them for the same reason agree. -/
theorem refused_agrees
    {error : Error}
    (recoverable : error.isFatal = false)
    {firstRun secondRun : Run Handle}
    (firstRefused : firstRun first = some (.error error, first.withEntries firstBelow))
    (secondRefused : secondRun second = some (.error error, second.withEntries secondBelow)) :
    Run.Agrees exact (Twinned exact) firstRun secondRun first second := by
  obtain ⟨_, popped⟩ := mirrors.popped firstEntries secondEntries sameNumber
  exact .of_answers firstRefused secondRefused (.failed recoverable ⟨twin, popped⟩)

include firstOrderly secondOrderly

theorem strict_agrees
    {builtin : Builtin}
    (strict : builtin.evaluatesOperands = true) :
    Run.Agrees exact (Twinned exact) (builtin.procedure firstEvaluator firstTaken.length)
      (builtin.procedure secondEvaluator secondTaken.length) first second := by
  obtain ⟨firstOperands, firstNames⟩ := exists_operands firstOrderly firstEntries
  obtain ⟨secondOperands, secondNames⟩ := exists_operands secondOrderly secondEntries
  obtain ⟨taken, popped⟩ := mirrors.popped firstEntries secondEntries sameNumber
  have related := answer_related builtin (views_twins mirrors taken firstNames secondNames)
  exact .of_answers (procedure_eq_finish firstEntries firstNames strict firstEvaluator)
    (procedure_eq_finish secondEntries secondNames strict secondEvaluator)
    (finish_agrees (firstOrderly.popped firstEntries) (secondOrderly.popped secondEntries)
      popped related)

end

section

variable
  (agree : firstEvaluator.Agree exact secondEvaluator)
  (firstSafe : firstEvaluator.Safe IsBuiltin)
  (secondSafe : secondEvaluator.Safe IsBuiltin)
  (firstOrderly : first.Orderly IsBuiltin)
  (secondOrderly : second.Orderly IsBuiltin)
  (mirrors : Mirrors exact twin first second)

include agree firstSafe secondSafe firstOrderly secondOrderly mirrors

theorem concludeConditional_agrees
    {firstOtherwise firstConsequent firstCondition : Handle}
    {secondOtherwise secondConsequent secondCondition : Handle}
    (firstEntries :
      first.stack.entries = [firstOtherwise, firstConsequent, firstCondition] ++ firstBelow)
    (secondEntries :
      second.stack.entries = [secondOtherwise, secondConsequent, secondCondition] ++ secondBelow)
    {firstOutcome secondOutcome : Handle}
    (outcomes : twin firstOutcome secondOutcome) :
    Run.Agrees exact (Twinned exact)
      (concludeConditional firstEvaluator firstConsequent firstOtherwise firstOutcome)
      (concludeConditional secondEvaluator secondConsequent secondOtherwise secondOutcome)
      first second := by
  obtain ⟨firstObject, secondObject, firstFound, secondFound, alike⟩ :=
    mirrors.objects _ _ outcomes
  have sameTruth : firstObject.isTruthy = secondObject.isTruthy :=
    alike.same Object.isTruthy fun _ _ _ _ => rfl
  have selected :
      Linked first second
        (if firstObject.isTruthy then firstConsequent else firstOtherwise)
        (if secondObject.isTruthy then secondConsequent else secondOtherwise) := by
    apply Linked.entry
    rw [sameTruth, firstEntries, secondEntries]
    split <;> simp
  apply Run.Agrees.bind_lift (look_found firstFound) (look_found secondFound)
  apply agree.bind firstSafe secondSafe firstOrderly secondOrderly mirrors selected
  intro firstValue firstAfter secondValue secondAfter twinned firstAnswers secondAnswers
  obtain ⟨after, mirrorsAfter, values⟩ := twinned
  have firstSame := (firstAnswers.value firstValue rfl).1.trans firstEntries
  have secondSame := (secondAnswers.value secondValue rfl).1.trans secondEntries
  obtain ⟨_, firstDiscarded⟩ := discard_append firstSame
  obtain ⟨_, secondDiscarded⟩ := discard_append secondSame
  obtain ⟨_, popped⟩ := mirrorsAfter.popped firstSame secondSame rfl
  exact .bind_lift firstDiscarded secondDiscarded (.pure ⟨after, popped, values⟩)

theorem conditionalForm_agrees
    (firstEntries : first.stack.entries = firstTaken ++ firstBelow)
    (secondEntries : second.stack.entries = secondTaken ++ secondBelow)
    (sameNumber : firstTaken.length = secondTaken.length) :
    Run.Agrees exact (Twinned exact) (conditionalForm firstEvaluator firstTaken.length)
      (conditionalForm secondEvaluator secondTaken.length) first second := by
  by_cases arity : firstTaken.length = 3
  · obtain ⟨firstOtherwise, firstConsequent, firstCondition, rfl⟩ := List.length_eq_three.mp arity
    obtain ⟨secondOtherwise, secondConsequent, secondCondition, rfl⟩ :=
      List.length_eq_three.mp (sameNumber ▸ arity)
    have conditions : Linked first second firstCondition secondCondition := by
      apply Linked.entry
      rw [firstEntries, secondEntries]
      simp
    apply Run.Agrees.of_eq (conditionalForm_eq firstEvaluator firstEntries)
      (conditionalForm_eq secondEvaluator secondEntries)
    apply agree.bind firstSafe secondSafe firstOrderly secondOrderly mirrors conditions
    intro firstOutcome firstAfter secondOutcome secondAfter twinned firstAnswers secondAnswers
    obtain ⟨after, mirrorsAfter, outcomes⟩ := twinned
    exact concludeConditional_agrees agree firstSafe secondSafe firstAnswers.orderly
      secondAnswers.orderly mirrorsAfter
      ((firstAnswers.value firstOutcome rfl).1.trans firstEntries)
      ((secondAnswers.value secondOutcome rfl).1.trans secondEntries) outcomes
  · have secondRefused :=
      conditionalForm_refused secondEvaluator secondEntries (sameNumber ▸ arity)
    rw [← sameNumber] at secondRefused ⊢
    exact refused_agrees mirrors firstEntries secondEntries sameNumber rfl
      (conditionalForm_refused firstEvaluator firstEntries arity) secondRefused

end

theorem concludeDefinition_agrees
    (firstOrderly : first.Orderly IsBuiltin)
    (secondOrderly : second.Orderly IsBuiltin)
    (mirrors : Mirrors exact twin first second)
    (firstEntries : first.stack.entries = firstTaken ++ firstBelow)
    (secondEntries : second.stack.entries = secondTaken ++ secondBelow)
    (firstTwo : firstTaken.length = 2)
    (secondTwo : secondTaken.length = 2)
    (name : String)
    {firstValue secondValue : Handle}
    (values : twin firstValue secondValue) :
    Outcome exact (Twinned exact) (concludeDefinition name firstValue first)
      (concludeDefinition name secondValue second) := by
  have bound := mirrors.binding name values
  have firstBound : (first.binding name firstValue).stack.entries = firstTaken ++ firstBelow :=
    firstEntries
  have secondBound :
      (second.binding name secondValue).stack.entries = secondTaken ++ secondBelow :=
    secondEntries
  obtain ⟨_, popped⟩ := bound.popped firstBound secondBound (firstTwo.trans secondTwo.symm)
  rw [concludeDefinition_eq firstEntries firstTwo, concludeDefinition_eq secondEntries secondTwo]
  exact allocate_agrees popped firstOrderly.consistent secondOrderly.consistent rfl

section

variable
  (agree : firstEvaluator.Agree exact secondEvaluator)
  (firstSafe : firstEvaluator.Safe IsBuiltin)
  (secondSafe : secondEvaluator.Safe IsBuiltin)
  (firstOrderly : first.Orderly IsBuiltin)
  (secondOrderly : second.Orderly IsBuiltin)
  (mirrors : Mirrors exact twin first second)

include agree firstSafe secondSafe firstOrderly secondOrderly mirrors

theorem definitionForm_agrees
    (firstEntries : first.stack.entries = firstTaken ++ firstBelow)
    (secondEntries : second.stack.entries = secondTaken ++ secondBelow)
    (sameNumber : firstTaken.length = secondTaken.length) :
    Run.Agrees exact (Twinned exact) (definitionForm firstEvaluator firstTaken.length)
      (definitionForm secondEvaluator secondTaken.length) first second := by
  by_cases arity : firstTaken.length = 2
  · obtain ⟨firstExpression, firstName, rfl⟩ := List.length_eq_two.mp arity
    obtain ⟨secondExpression, secondName, rfl⟩ := List.length_eq_two.mp (sameNumber ▸ arity)
    have expressions : Linked first second firstExpression secondExpression := by
      apply Linked.entry
      rw [firstEntries, secondEntries]
      simp
    have names : Linked first second firstName secondName := by
      apply Linked.entry
      rw [firstEntries, secondEntries]
      simp
    obtain ⟨firstObject, secondObject, firstFound, secondFound, alike⟩ :=
      mirrors.objects _ _ (names.twins mirrors)
    have sameName : firstObject.symbolName = secondObject.symbolName :=
      alike.same Object.symbolName fun _ _ _ _ => rfl
    cases named : firstObject.symbolName with
    | error error =>
        exact refused_agrees mirrors firstEntries secondEntries sameNumber
          (symbolName_recoverable named)
          (definitionForm_unnamed firstEvaluator firstEntries firstFound named)
          (definitionForm_unnamed secondEvaluator secondEntries secondFound (sameName ▸ named))
    | ok name =>
        have secondNamed : secondObject.symbolName = .ok name := sameName ▸ named
        cases eager : first.eagerDefinitions with
        | false =>
            have secondLazy : second.eagerDefinitions = false :=
              mirrors.eagerDefinitions ▸ eager
            exact .of_answers
              (definitionForm_lazy firstEvaluator firstEntries firstFound named eager)
              (definitionForm_lazy secondEvaluator secondEntries secondFound secondNamed
                secondLazy)
              (concludeDefinition_agrees firstOrderly secondOrderly mirrors firstEntries
                secondEntries rfl rfl name (expressions.twins mirrors))
        | true =>
            have secondEager : second.eagerDefinitions = true :=
              mirrors.eagerDefinitions ▸ eager
            apply Run.Agrees.of_eq
              (definitionForm_eager firstEvaluator firstEntries firstFound named eager)
              (definitionForm_eager secondEvaluator secondEntries secondFound secondNamed
                secondEager)
            apply agree.bind firstSafe secondSafe firstOrderly secondOrderly mirrors expressions
            intro firstValue firstAfter secondValue secondAfter twinned firstAnswers
              secondAnswers
            obtain ⟨after, mirrorsAfter, values⟩ := twinned
            exact .lift (concludeDefinition_agrees firstAnswers.orderly secondAnswers.orderly
              mirrorsAfter ((firstAnswers.value firstValue rfl).1.trans firstEntries)
              ((secondAnswers.value secondValue rfl).1.trans secondEntries) rfl rfl name values)
  · have secondRefused :=
      definitionForm_refused secondEvaluator secondEntries (sameNumber ▸ arity)
    rw [← sameNumber] at secondRefused ⊢
    exact refused_agrees mirrors firstEntries secondEntries sameNumber rfl
      (definitionForm_refused firstEvaluator firstEntries arity) secondRefused

/-- Every builtin operation agrees if the interpreters that it calls do. -/
theorem procedure_agrees
    (builtin : Builtin)
    (firstEntries : first.stack.entries = firstTaken ++ firstBelow)
    (secondEntries : second.stack.entries = secondTaken ++ secondBelow)
    (sameNumber : firstTaken.length = secondTaken.length) :
    Run.Agrees exact (Twinned exact) (builtin.procedure firstEvaluator firstTaken.length)
      (builtin.procedure secondEvaluator secondTaken.length) first second := by
  cases builtin with
  | conditional =>
      exact conditionalForm_agrees agree firstSafe secondSafe firstOrderly secondOrderly mirrors
        firstEntries secondEntries sameNumber
  | definition =>
      exact definitionForm_agrees agree firstSafe secondSafe firstOrderly secondOrderly mirrors
        firstEntries secondEntries sameNumber
  | _ =>
      exact strict_agrees firstOrderly secondOrderly mirrors firstEntries secondEntries sameNumber
        rfl

end

end Builtin

end ArenaLisp
