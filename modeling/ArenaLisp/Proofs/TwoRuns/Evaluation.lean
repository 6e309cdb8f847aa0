import ArenaLisp.Proofs.EvaluationSafety
import ArenaLisp.Proofs.TwoRuns.Operations

namespace ArenaLisp

/-!
# The interpreter agrees with itself

Two interpreters with any nesting limits agree on mirrored machines, as far as both
give an answer.  The proof goes along the levels of the first one.
-/

namespace Evaluator

open Machine

variable
  {exact : Prop}
  {twin : Handle → Handle → Prop}
  {library : Library}
  {firstInner secondInner : Evaluator}
  {first second : Machine}

section Walk

variable
  (agree : firstInner.Agree exact secondInner)
  (firstSafe : firstInner.Safe IsBuiltin)
  (secondSafe : secondInner.Safe IsBuiltin)

include agree

theorem operand_agrees
    (evaluatesOperands : Bool)
    (firstOrderly : first.Orderly IsBuiltin)
    (secondOrderly : second.Orderly IsBuiltin)
    (mirrors : Mirrors exact twin first second)
    {firstExpression secondExpression : Handle}
    (linked : Linked first second firstExpression secondExpression) :
    Run.Agrees exact (Twinned exact) (firstInner.operand evaluatesOperands firstExpression)
      (secondInner.operand evaluatesOperands secondExpression) first second := by
  cases evaluatesOperands with
  | true =>
      exact agree twin first second _ _ firstOrderly secondOrderly mirrors linked
  | false =>
      exact .pure ⟨twin, mirrors, linked.twins mirrors⟩

include firstSafe secondSafe

/-- Walks along linked chains push equally many operands and end alike. -/
theorem pushOperands_agrees
    (evaluatesOperands : Bool)
    (firstBudget secondBudget count : Nat)
    (firstOrderly : first.Orderly IsBuiltin)
    (secondOrderly : second.Orderly IsBuiltin)
    (mirrors : Mirrors exact twin first second)
    {firstChain secondChain : Handle}
    (linked : Linked first second firstChain secondChain) :
    Run.Agrees exact
      (fun firstWalk firstAfter secondWalk secondAfter =>
        firstWalk = secondWalk ∧ Mirrored exact firstAfter secondAfter)
      (firstInner.pushOperands evaluatesOperands firstBudget firstChain count)
      (secondInner.pushOperands evaluatesOperands secondBudget secondChain count)
      first second := by
  induction firstBudget
    generalizing secondBudget count twin first second firstChain secondChain with
  | zero =>
      exact .exhausted_left
  | succ firstBudget inductionHypothesis =>
      cases secondBudget with
      | zero =>
          exact .exhausted_right
      | succ secondBudget =>
          obtain ⟨firstCell, secondCell, firstFound, secondFound, alike⟩ :=
            mirrors.objects _ _ (linked.twins mirrors)
          cases alike with
          | leaf noHandles =>
              have noPair : firstCell.children? = none := by
                cases firstCell with
                | pair car cdr =>
                    simp [Object.handles] at noHandles
                | _ =>
                    rfl
              exact .of_answers
                (pushOperands_end evaluatesOperands firstBudget count firstFound noPair)
                (pushOperands_end evaluatesOperands secondBudget count secondFound noPair)
                (.returned ⟨rfl, twin, mirrors⟩)
          | pair cars cdrs =>
              have carsLinked := Linked.car linked firstFound secondFound
              have cdrsLinked := Linked.cdr linked firstFound secondFound
              apply Run.Agrees.of_eq
                (pushOperands_pair evaluatesOperands firstBudget count firstFound)
                (pushOperands_pair evaluatesOperands secondBudget count secondFound)
              apply Run.Agrees.bind
                (operand_agrees agree evaluatesOperands firstOrderly secondOrderly mirrors
                  carsLinked)
                (operand_answers firstSafe evaluatesOperands firstOrderly
                  (carsLinked.reached firstOrderly))
                (operand_answers secondSafe evaluatesOperands secondOrderly
                  (carsLinked.symm.reached secondOrderly))
              intro firstOperand firstAfter secondOperand secondAfter twinned firstAnswers
                secondAnswers
              obtain ⟨after, mirrorsAfter, operands⟩ := twinned
              apply Run.Agrees.of_eq (pushAndGoOn_eq ..) (pushAndGoOn_eq ..)
              exact inductionHypothesis secondBudget (count + 1)
                (firstAnswers.orderly.push (firstAnswers.value firstOperand rfl).2)
                (secondAnswers.orderly.push (secondAnswers.value secondOperand rfl).2)
                (mirrorsAfter.push operands)
                (cdrsLinked.after_answers firstOrderly secondOrderly firstAnswers secondAnswers)

end Walk

theorem evaluateSymbol_agrees
    (firstOrderly : first.Orderly IsBuiltin)
    (secondOrderly : second.Orderly IsBuiltin)
    (mirrors : Mirrors exact twin first second)
    (name : String) :
    Outcome exact (Twinned exact) (evaluateSymbol name first) (evaluateSymbol name second) := by
  have related := mirrors.bindings name
  generalize firstBinding : first.environment.get? name = firstValue at related
  generalize secondBinding : second.environment.get? name = secondValue at related
  cases related with
  | some twins =>
      rw [evaluateSymbol_bound firstBinding, evaluateSymbol_bound secondBinding]
      exact .returned ⟨twin, mirrors, twins⟩
  | none =>
      rw [evaluateSymbol_unbound firstBinding, evaluateSymbol_unbound secondBinding]
      exact recover_agrees mirrors firstOrderly.consistent secondOrderly.consistent rfl

section Calls

variable
  (agree : firstInner.Agree exact secondInner)
  (firstSafe : firstInner.Safe IsBuiltin)
  (secondSafe : secondInner.Safe IsBuiltin)
  (firstSettling : Settling library IsBuiltin firstInner)
  (secondSettling : Settling library IsBuiltin secondInner)

include agree firstSafe secondSafe firstSettling secondSettling

/-- Calls of twins agree: both recover the same error, or neither recovers. -/
theorem call_agrees
    (firstOrderly : first.Orderly IsBuiltin)
    (secondOrderly : second.Orderly IsBuiltin)
    (mirrors : Mirrors exact twin first second)
    {firstCallee secondCallee : Handle}
    (callees : twin firstCallee secondCallee)
    {firstOperands secondOperands firstBelow secondBelow : List Handle}
    (firstEntries : first.stack.entries = firstOperands ++ firstBelow)
    (secondEntries : second.stack.entries = secondOperands ++ secondBelow)
    (sameNumber : firstOperands.length = secondOperands.length) :
    Run.Agrees exact (Twinned exact) (call library firstInner firstCallee firstOperands.length)
      (call library secondInner secondCallee secondOperands.length) first second := by
  obtain ⟨firstObject, secondObject, firstFound, secondFound, alike⟩ :=
    mirrors.objects _ _ callees
  have sameCallable : firstObject.callable? = secondObject.callable? :=
    alike.same Object.callable? fun _ _ _ _ => rfl
  cases isCallable : firstObject.callable? with
  | none =>
      have sameKind : firstObject.kind = secondObject.kind :=
        alike.same Object.kind fun _ _ _ _ => rfl
      obtain ⟨_, popped⟩ := mirrors.popped firstEntries secondEntries sameNumber
      apply Run.Agrees.of_answers (call_other firstFound isCallable firstEntries)
        (call_other secondFound (sameCallable ▸ isCallable) secondEntries)
      rw [Object.unsupported, Object.unsupported, sameKind]
      exact recover_agrees popped firstOrderly.consistent secondOrderly.consistent rfl
  | some callable =>
      have secondCallable : secondObject.callable? = some callable := sameCallable ▸ isCallable
      have known := firstOrderly.runsOnly _ _ _ firstFound isCallable
      have firstSettles := firstSettling.of_entries known firstOrderly firstEntries
      have secondSettles := secondSettling.of_entries known secondOrderly secondEntries
      obtain ⟨builtin, isBuiltin⟩ := known
      rw [isBuiltin] at firstSettles secondSettles
      have performs :=
        builtin.procedure_agrees agree firstSafe secondSafe firstOrderly secondOrderly mirrors
          firstEntries secondEntries sameNumber
      apply Run.Agrees.of_eq (call_callable _ firstFound isCallable)
        (call_callable _ secondFound secondCallable)
      rw [isBuiltin]
      apply Run.Agrees.recovering performs firstSettles secondSettles
      intro error firstAfter secondAfter recoverable mirrored firstSettled secondSettled
      obtain ⟨after, mirrorsAfter⟩ := mirrored
      exact recover_agrees mirrorsAfter firstSettled.orderly.consistent
        secondSettled.orderly.consistent recoverable

/-- After walks that end alike, either both call their callees or both refuse the chain. -/
theorem concludeWalk_agrees
    (firstOrderly : first.Orderly IsBuiltin)
    (secondOrderly : second.Orderly IsBuiltin)
    (mirrors : Mirrors exact twin first second)
    {firstCallee secondCallee : Handle}
    {firstOperands secondOperands firstBelow secondBelow : List Handle}
    (firstEntries : first.stack.entries = firstOperands ++ firstCallee :: firstBelow)
    (secondEntries : second.stack.entries = secondOperands ++ secondCallee :: secondBelow)
    (sameNumber : firstOperands.length = secondOperands.length)
    {walk : OperandWalk}
    (counted : walk = .complete firstOperands.length ∨ walk = .malformed firstOperands.length) :
    Run.Agrees exact (Twinned exact) (concludeWalk library firstInner firstCallee walk)
      (concludeWalk library secondInner secondCallee walk) first second := by
  obtain ⟨_, calleeAndBelow⟩ := mirrors.popped firstEntries secondEntries sameNumber
  obtain ⟨callees, below⟩ := List.forall₂_cons.mp calleeAndBelow.entries
  rcases counted with rfl | rfl
  · have calls :=
      call_agrees agree firstSafe secondSafe firstSettling secondSettling firstOrderly
        secondOrderly mirrors callees firstEntries secondEntries sameNumber
    have firstAnswers :=
      call_answers firstSettling firstOrderly firstEntries
        (firstOrderly.entriesOccupied firstCallee (by simp [firstEntries]))
    have secondAnswers :=
      call_answers secondSettling secondOrderly secondEntries
        (secondOrderly.entriesOccupied secondCallee (by simp [secondEntries]))
    rw [← sameNumber] at calls secondAnswers
    apply Run.Agrees.bind calls firstAnswers secondAnswers
    intro firstValue firstAfter secondValue secondAfter twinned firstAnswer secondAnswer
    obtain ⟨after, mirrorsAfter, values⟩ := twinned
    have firstSame := (firstAnswer.value firstValue rfl).1
    have secondSame := (secondAnswer.value secondValue rfl).1
    obtain ⟨_, popped⟩ :=
      @Mirrors.popped _ _ _ _ mirrorsAfter [firstCallee] [secondCallee] firstBelow secondBelow
        firstSame secondSame rfl
    exact .bind_lift (pop_cons firstSame) (pop_cons secondSame) (.pure ⟨after, popped, values⟩)
  · have secondEnds :=
      @concludeWalk_malformed library secondInner second secondCallee _ _ secondEntries
    rw [← sameNumber] at secondEnds
    exact .of_answers (concludeWalk_malformed firstEntries) secondEnds
      (recover_agrees (mirrors.withEntries below) firstOrderly.consistent
        secondOrderly.consistent rfl)

/-- Calls whose callees are on the stacks agree. -/
theorem operandsAndCall_agrees
    (firstOrderly : first.Orderly IsBuiltin)
    (secondOrderly : second.Orderly IsBuiltin)
    (mirrors : Mirrors exact twin first second)
    (evaluatesOperands : Bool)
    (firstLimit secondLimit : Nat)
    {firstHead secondHead firstChain secondChain : Handle}
    {firstBelow secondBelow : List Handle}
    (firstEntries : first.stack.entries = firstHead :: firstBelow)
    (secondEntries : second.stack.entries = secondHead :: secondBelow)
    (linked : Linked first second firstChain secondChain) :
    Run.Agrees exact (Twinned exact)
      (firstInner.pushOperands evaluatesOperands firstLimit firstChain 0 >>=
        concludeWalk library firstInner firstHead)
      (secondInner.pushOperands evaluatesOperands secondLimit secondChain 0 >>=
        concludeWalk library secondInner secondHead)
      first second := by
  apply Run.Agrees.bind
    (pushOperands_agrees agree firstSafe secondSafe evaluatesOperands firstLimit secondLimit 0
      firstOrderly secondOrderly mirrors linked)
    (pushOperands_gathers firstSafe evaluatesOperands firstLimit 0 firstOrderly
      (linked.reached firstOrderly))
    (pushOperands_gathers secondSafe evaluatesOperands secondLimit 0 secondOrderly
      (linked.symm.reached secondOrderly))
  intro firstWalk firstAfter secondWalk secondAfter same firstGathers secondGathers
  obtain ⟨rfl, after, mirrorsAfter⟩ := same
  obtain ⟨firstOperands, firstSame, firstCounted⟩ := firstGathers.walked firstWalk rfl
  obtain ⟨secondOperands, secondSame, secondCounted⟩ := secondGathers.walked firstWalk rfl
  rw [firstEntries] at firstSame
  rw [secondEntries] at secondSame
  rw [Nat.zero_add] at firstCounted secondCounted
  have sameNumber : firstOperands.length = secondOperands.length := by
    have sameSize := mirrorsAfter.entries.length_eq
    have sameBelow := mirrors.entries.length_eq
    rw [firstSame, secondSame] at sameSize
    rw [firstEntries, secondEntries] at sameBelow
    simp only [List.length_append] at sameSize
    omega
  exact concludeWalk_agrees agree firstSafe secondSafe firstSettling secondSettling
    firstGathers.orderly secondGathers.orderly mirrorsAfter firstSame secondSame sameNumber
    firstCounted

theorem evaluatePair_agrees
    (firstOrderly : first.Orderly IsBuiltin)
    (secondOrderly : second.Orderly IsBuiltin)
    (mirrors : Mirrors exact twin first second)
    (firstLimit secondLimit : Nat)
    {firstPair firstCar firstCdr secondPair secondCar secondCdr : Handle}
    (linked : Linked first second firstPair secondPair)
    (firstFound : first.heap.get? firstPair = some (.pair firstCar firstCdr))
    (secondFound : second.heap.get? secondPair = some (.pair secondCar secondCdr)) :
    Run.Agrees exact (Twinned exact)
      (evaluatePair library firstInner firstLimit firstPair firstCar firstCdr)
      (evaluatePair library secondInner secondLimit secondPair secondCar secondCdr)
      first second := by
  have cars := Linked.car linked firstFound secondFound
  have cdrs := Linked.cdr linked firstFound secondFound
  rw [evaluatePair_eq, evaluatePair_eq]
  apply agree.bind firstSafe secondSafe firstOrderly secondOrderly mirrors cars
  intro firstHead firstAfter secondHead secondAfter twinned firstAnswers secondAnswers
  obtain ⟨after, mirrorsAfter, heads⟩ := twinned
  obtain ⟨firstObject, secondObject, firstHeadFound, secondHeadFound, alike⟩ :=
    mirrorsAfter.objects _ _ heads
  have sameCallable : firstObject.callable? = secondObject.callable? :=
    alike.same Object.callable? fun _ _ _ _ => rfl
  have pushed := mirrorsAfter.push heads
  cases isCallable : firstObject.callable? with
  | none =>
      have pairs :=
        linked.after_answers firstOrderly secondOrderly firstAnswers secondAnswers
      exact .of_answers (concludeHead_self firstLimit firstPair firstCdr firstHeadFound isCallable)
        (concludeHead_self secondLimit secondPair secondCdr secondHeadFound
          (sameCallable ▸ isCallable))
        (.returned ⟨after, mirrorsAfter, pairs.twins pushed⟩)
  | some callable =>
      apply Run.Agrees.of_eq
        (concludeHead_call firstLimit firstPair firstCdr firstHeadFound isCallable)
        (concludeHead_call secondLimit secondPair secondCdr secondHeadFound
          (sameCallable ▸ isCallable))
      exact operandsAndCall_agrees agree firstSafe secondSafe firstSettling secondSettling
        (firstAnswers.orderly.push (firstAnswers.value firstHead rfl).2)
        (secondAnswers.orderly.push (secondAnswers.value secondHead rfl).2) pushed
        callable.evaluatesOperands firstLimit secondLimit rfl rfl
        (cdrs.after_answers firstOrderly secondOrderly firstAnswers secondAnswers)

/-- One more level of each interpreter agrees. -/
theorem evaluateObject_agrees
    (firstOrderly : first.Orderly IsBuiltin)
    (secondOrderly : second.Orderly IsBuiltin)
    (mirrors : Mirrors exact twin first second)
    (firstLimit secondLimit : Nat)
    {firstExpression secondExpression : Handle}
    (linked : Linked first second firstExpression secondExpression) :
    Run.Agrees exact (Twinned exact)
      (evaluateObject library firstInner firstLimit firstExpression)
      (evaluateObject library secondInner secondLimit secondExpression) first second := by
  have expressions := linked.twins mirrors
  obtain ⟨firstObject, secondObject, firstFound, secondFound, alike⟩ :=
    mirrors.objects _ _ expressions
  have recorded := mirrors.record (.evaluating firstExpression) (.evaluating secondExpression)
  have firstRecorded := firstOrderly.record (.evaluating firstExpression)
  have secondRecorded := secondOrderly.record (.evaluating secondExpression)
  have firstStepped := @evaluateObject_eq library firstInner first firstLimit _ _ firstFound
  have secondStepped := @evaluateObject_eq library secondInner second secondLimit _ _ secondFound
  cases alike with
  | leaf noHandles =>
      cases firstObject with
      | symbol name =>
          exact .of_answers firstStepped secondStepped
            (evaluateSymbol_agrees firstRecorded secondRecorded recorded name)
      | pair car cdr =>
          simp [Object.handles] at noHandles
      | nil | void | integer | boolean | function | specialForm =>
          exact .of_answers firstStepped secondStepped (.returned ⟨twin, recorded, expressions⟩)
  | pair cars cdrs =>
      have stillLinked :
          Linked (first.record (.evaluating firstExpression))
            (second.record (.evaluating secondExpression)) firstExpression secondExpression :=
        linked.record _ _
      exact .of_eq firstStepped secondStepped
        (evaluatePair_agrees agree firstSafe secondSafe firstSettling secondSettling
          firstRecorded secondRecorded recorded firstLimit secondLimit stillLinked firstFound
          secondFound)

end Calls

end Evaluator

namespace Machine

variable
  {exact : Prop}
  {twin : Handle → Handle → Prop}
  {first second : Machine}

/-- The interpreter agrees with itself at any two nesting limits. -/
theorem evaluator_agrees
    (exact : Prop)
    (library : Library)
    (firstLimit secondLimit : Nat) :
    (evaluator library firstLimit).Agree exact (evaluator library secondLimit) := by
  have disciplined := disciplined_builtins library
  induction firstLimit generalizing secondLimit with
  | zero =>
      intro twin first second firstExpression secondExpression _ _ _ _
      exact .exhausted_left
  | succ firstLimit inductionHypothesis =>
      cases secondLimit with
      | zero =>
          intro twin first second firstExpression secondExpression _ _ _ _
          exact .exhausted_right
      | succ secondLimit =>
          intro twin first second firstExpression secondExpression firstOrderly secondOrderly
            mirrors linked
          exact Evaluator.evaluateObject_agrees (inductionHypothesis secondLimit)
            (evaluator_safe disciplined firstLimit) (evaluator_safe disciplined secondLimit)
            (disciplined firstLimit) (disciplined secondLimit) firstOrderly secondOrderly mirrors
            firstLimit secondLimit linked

theorem evaluateTopLevel_agrees
    (library : Library)
    (firstLimit secondLimit : Nat)
    (firstOrderly : first.Orderly IsBuiltin)
    (secondOrderly : second.Orderly IsBuiltin)
    (mirrors : Mirrors exact twin first second)
    {firstExpression secondExpression : Handle}
    (expressions : twin firstExpression secondExpression) :
    Run.Agrees exact (Twinned exact)
      (evaluateTopLevel (evaluator library firstLimit) firstExpression)
      (evaluateTopLevel (evaluator library secondLimit) secondExpression) first second := by
  have disciplined := disciplined_builtins library
  have pushed := mirrors.push expressions
  have occupied := mirrors.isOccupied expressions
  have linked :
      Linked (first.withEntries (firstExpression :: first.stack.entries))
        (second.withEntries (secondExpression :: second.stack.entries))
        firstExpression secondExpression := by
    apply Linked.entry
    exact List.mem_cons_self
  apply Run.Agrees.of_eq (evaluateTopLevel_eq _ firstExpression first)
    (evaluateTopLevel_eq _ secondExpression second)
  apply (evaluator_agrees exact library firstLimit secondLimit).bind
    (evaluator_safe disciplined firstLimit) (evaluator_safe disciplined secondLimit)
    (firstOrderly.push occupied.1) (secondOrderly.push occupied.2) pushed linked
  intro firstValue firstAfter secondValue secondAfter twinned firstAnswers secondAnswers
  obtain ⟨after, mirrorsAfter, values⟩ := twinned
  have firstSame := (firstAnswers.value firstValue rfl).1
  have secondSame := (secondAnswers.value secondValue rfl).1
  obtain ⟨_, popped⟩ :=
    @Mirrors.popped _ _ _ _ mirrorsAfter [firstExpression] [secondExpression] _ _
      firstSame secondSame rfl
  exact .of_answers (concludeTopLevel_balanced firstValue firstSame rfl)
    (concludeTopLevel_balanced secondValue secondSame rfl)
    (.returned ⟨after, popped, values⟩)

end Machine

end ArenaLisp
