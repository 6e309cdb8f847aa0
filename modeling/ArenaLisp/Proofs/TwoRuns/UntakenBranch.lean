import ArenaLisp.Proofs.EvaluationSafety
import ArenaLisp.Proofs.TwoRuns.BuriedEntries

namespace ArenaLisp

/-!
# The branch that is not taken

A conditional leaves both of its branches on the stack while it evaluates its condition
and the branch that this selects.  The evaluation never gets as far down as the other
branch, so what that is makes no difference, as long as the entries below the operands
reach it anyway: then its slots survive each collection with either.
-/

namespace Machine

variable {first second : List Handle} {one other : Machine}

/--
Two machines with builtin operations that differ in nothing but the entries at the
bottom of their stacks, which reach the same.
-/
structure AlikeAbove (first second : List Handle) (one other : Machine) : Prop where
  orderly : one.Orderly IsBuiltin
  alike : one.heap.ReachAlike first second
  same : SameAbove first second one other

namespace AlikeAbove

theorem counted (alikeAbove : AlikeAbove first second one other) : one.heap.Counted :=
  alikeAbove.orderly.consistent.toCounted

theorem of_bottom
    (orderly : one.Orderly IsBuiltin)
    (alike : one.heap.ReachAlike first second)
    (entries : one.stack.entries = first) :
    AlikeAbove first second one (one.withEntries second) :=
  ⟨orderly, alike, [], entries, rfl⟩

theorem exists_upper
    (alikeAbove : AlikeAbove first second one other) :
    ∃ upper, one.stack.entries = upper ++ first :=
  let ⟨upper, entries, _⟩ := alikeAbove.same
  ⟨upper, entries⟩

/-- What keeps the slots that the buried entries reach keeps two machines alike. -/
theorem after
    (alikeAbove : AlikeAbove first second one other)
    {after otherAfter : Machine}
    {upper : List Handle}
    (keeps : Heap.Keeps (upper ++ first) one.heap after.heap)
    (orderly : after.Orderly IsBuiltin)
    (same : SameAbove first second after otherAfter) :
    AlikeAbove first second after otherAfter :=
  ⟨orderly, alikeAbove.alike.keeps alikeAbove.orderly.closed keeps.below, same⟩

/-- The same of what keeps the slots that all entries reach. -/
theorem after_entries
    (alikeAbove : AlikeAbove first second one other)
    {after otherAfter : Machine}
    (keeps : Heap.Keeps one.stack.entries one.heap after.heap)
    (orderly : after.Orderly IsBuiltin)
    (same : SameAbove first second after otherAfter) :
    AlikeAbove first second after otherAfter := by
  obtain ⟨upper, entries⟩ := alikeAbove.exists_upper
  rw [entries] at keeps
  exact alikeAbove.after keeps orderly same

theorem push
    (alikeAbove : AlikeAbove first second one other)
    {handle : Handle}
    (occupied : one.heap.isOccupied handle = true) :
    AlikeAbove first second (one.withEntries (handle :: one.stack.entries))
      (other.withEntries (handle :: other.stack.entries)) :=
  ⟨alikeAbove.orderly.push occupied, alikeAbove.alike, alikeAbove.same.push handle⟩

theorem record
    (alikeAbove : AlikeAbove first second one other)
    (event : Event) :
    AlikeAbove first second (one.record event) (other.record event) :=
  ⟨alikeAbove.orderly.record event, alikeAbove.alike,
    alikeAbove.same.change (fun machine => machine.record event) rfl fun _ => rfl⟩

/-- Entries above the buried ones may be taken on both machines. -/
theorem popped
    (alikeAbove : AlikeAbove first second one other)
    {taken upper : List Handle}
    (entries : one.stack.entries = taken ++ (upper ++ first)) :
    other.stack.entries = taken ++ (upper ++ second) ∧
      AlikeAbove first second (one.withEntries (upper ++ first))
        (other.withEntries (upper ++ second)) :=
  have ⟨otherEntries, same⟩ := alikeAbove.same.popped entries
  ⟨otherEntries, alikeAbove.orderly.popped entries, alikeAbove.alike, same⟩

theorem allocate
    (alikeAbove : AlikeAbove first second one other)
    (object : Object) :
    Run.Repeats first second (liftM (Machine.allocate object)) one other :=
  .lift (alikeAbove.same.allocate alikeAbove.counted alikeAbove.alike object)

theorem recover
    (alikeAbove : AlikeAbove first second one other)
    (error : Error) :
    Run.Repeats first second (liftM (Machine.recover error)) one other :=
  .lift (alikeAbove.same.recover alikeAbove.counted alikeAbove.alike error)

end AlikeAbove

/-- Entries that are there are taken, and nothing else comes of it. -/
theorem discard_then
    {Result : Type}
    {machine : Machine}
    {taken below : List Handle}
    (entries : machine.stack.entries = taken ++ below)
    (run : Run Result) :
    ((liftM (discard taken.length) : Run (Option Handle)) >>= fun _ => run) machine =
      run (machine.withEntries below) := by
  obtain ⟨last, discarded⟩ := discard_append entries
  rw [Run.bind_apply, Run.liftM_apply, discarded]

end Machine

open Machine

/-- An evaluator that does the same above either list, wherever these reach alike. -/
def Evaluator.RepeatsAbove (first second : List Handle) (evaluator : Evaluator) : Prop :=
  ∀ one other expression,
    AlikeAbove first second one other →
    one.heap.Reaches one.stack.entries expression →
    (evaluator.evaluate expression).Repeats first second one other

namespace Builtin

variable {first second : List Handle} {one other : Machine}

theorem finish_repeats
    (alikeAbove : AlikeAbove first second one other)
    (answer : Except Error (Answer Handle)) :
    Run.Repeats first second (liftM (finish answer)) one other := by
  cases answer with
  | error error =>
      exact .lift ⟨rfl, alikeAbove.same⟩
  | ok answer =>
      cases answer with
      | integer value | boolean value =>
          exact alikeAbove.allocate _
      | part handle =>
          exact .lift ⟨rfl, alikeAbove.same⟩

section Forms

variable
  {evaluator : Evaluator}
  (safe : evaluator.Safe IsBuiltin)
  (repeats : evaluator.RepeatsAbove first second)
  (alikeAbove : AlikeAbove first second one other)
  {upper : List Handle}

include safe repeats alikeAbove

theorem concludeConditional_repeats
    {consequent otherwise condition outcome : Handle}
    (entries : one.stack.entries = [otherwise, consequent, condition] ++ (upper ++ first))
    (occupied : one.heap.isOccupied outcome = true) :
    (concludeConditional evaluator consequent otherwise outcome).Repeats first second
      one other := by
  obtain ⟨object, found⟩ := Heap.isOccupied_iff.mp occupied
  refine .bind_lift (look_found found) (look_found (alikeAbove.same.found found)) ?_
  have selectedReached :
      one.heap.Reaches one.stack.entries
        (if object.isTruthy then consequent else otherwise) := by
    refine alikeAbove.orderly.toWellFormed.reaches_entry ?_
    rw [entries]
    split <;> simp
  refine .bind (repeats one other _ alikeAbove selectedReached)
    (safe one _ alikeAbove.orderly selectedReached) ?_
  intro value after otherAfter answers same
  have afterEntries := (answers.value value rfl).1.trans entries
  obtain ⟨otherEntries, samePopped⟩ := same.popped afterEntries
  exact .of_eq (discard_then afterEntries _) (discard_then otherEntries _)
    (.pure value samePopped)

theorem conditionalForm_repeats
    {consequent otherwise condition : Handle}
    (entries : one.stack.entries = [otherwise, consequent, condition] ++ (upper ++ first)) :
    (conditionalForm evaluator 3).Repeats first second one other := by
  have otherEntries := (alikeAbove.popped entries).1
  have conditionReached : one.heap.Reaches one.stack.entries condition :=
    alikeAbove.orderly.toWellFormed.reaches_entry (by simp [entries])
  refine .of_eq (conditionalForm_eq evaluator entries)
    (conditionalForm_eq evaluator otherEntries) ?_
  refine .bind (repeats one other condition alikeAbove conditionReached)
    (safe one condition alikeAbove.orderly conditionReached) ?_
  intro outcome between otherBetween answers same
  obtain ⟨sameEntries, occupied⟩ := answers.value outcome rfl
  exact concludeConditional_repeats safe repeats
    (alikeAbove.after_entries answers.keeps answers.orderly same)
    (sameEntries.trans entries) occupied

omit safe repeats in
theorem concludeDefinition_repeats
    (name : String)
    (value : Handle)
    {taken : List Handle}
    (entries : one.stack.entries = taken ++ (upper ++ first))
    (two : taken.length = 2) :
    Run.Repeats first second (liftM (concludeDefinition name value)) one other := by
  have otherEntries := (alikeAbove.popped entries).1
  have bound : SameAbove first second (one.binding name value) (other.binding name value) :=
    alikeAbove.same.change (fun machine => machine.binding name value) rfl fun _ => rfl
  have boundEntries : (one.binding name value).stack.entries = taken ++ (upper ++ first) :=
    entries
  obtain ⟨_, samePopped⟩ := bound.popped boundEntries
  refine .lift ?_
  rw [concludeDefinition_eq entries two, concludeDefinition_eq otherEntries two]
  exact samePopped.allocate alikeAbove.counted alikeAbove.alike .void

theorem definitionForm_repeats
    {expression nameExpression : Handle}
    (entries : one.stack.entries = [expression, nameExpression] ++ (upper ++ first)) :
    (definitionForm evaluator 2).Repeats first second one other := by
  obtain ⟨otherEntries, popped⟩ := alikeAbove.popped entries
  have expressionReached : one.heap.Reaches one.stack.entries expression :=
    alikeAbove.orderly.toWellFormed.reaches_entry (by simp [entries])
  have nameReached : one.heap.Reaches one.stack.entries nameExpression :=
    alikeAbove.orderly.toWellFormed.reaches_entry (by simp [entries])
  obtain ⟨nameObject, nameFound⟩ := nameReached.exists_object
  have otherFound := alikeAbove.same.found nameFound
  cases named : nameObject.symbolName with
  | error error =>
      exact .of_answers (definitionForm_unnamed evaluator entries nameFound named)
        (definitionForm_unnamed evaluator otherEntries otherFound named) ⟨rfl, popped.same⟩
  | ok name =>
      have sameEager : other.eagerDefinitions = one.eagerDefinitions :=
        alikeAbove.same.eagerDefinitions
      cases eager : one.eagerDefinitions with
      | false =>
          have concludes := concludeDefinition_repeats alikeAbove name expression entries rfl
          refine .of_eq ?_ ?_ concludes
          · exact definitionForm_lazy evaluator entries nameFound named eager
          · exact definitionForm_lazy evaluator otherEntries otherFound named
              (sameEager.trans eager)
      | true =>
          refine .of_eq (definitionForm_eager evaluator entries nameFound named eager)
            (definitionForm_eager evaluator otherEntries otherFound named
              (sameEager.trans eager)) ?_
          refine .bind (repeats one other expression alikeAbove expressionReached)
            (safe one expression alikeAbove.orderly expressionReached) ?_
          intro value after otherAfter answers same
          exact concludeDefinition_repeats
            (alikeAbove.after_entries answers.keeps answers.orderly same) name value
            ((answers.value value rfl).1.trans entries) rfl

/-- No builtin operation looks below its operands. -/
theorem procedure_repeats
    (builtin : Builtin)
    {taken : List Handle}
    (entries : one.stack.entries = taken ++ (upper ++ first)) :
    (builtin.procedure evaluator taken.length).Repeats first second one other := by
  obtain ⟨otherEntries, popped⟩ := alikeAbove.popped entries
  cases builtin with
  | conditional =>
      by_cases three : taken.length = 3
      · obtain ⟨otherwise, consequent, condition, rfl⟩ := List.length_eq_three.mp three
        exact conditionalForm_repeats safe repeats alikeAbove entries
      · exact .of_answers (conditionalForm_refused evaluator entries three)
          (conditionalForm_refused evaluator otherEntries three) ⟨rfl, popped.same⟩
  | definition =>
      by_cases two : taken.length = 2
      · obtain ⟨expression, nameExpression, rfl⟩ := List.length_eq_two.mp two
        exact definitionForm_repeats safe repeats alikeAbove entries
      · exact .of_answers (definitionForm_refused evaluator entries two)
          (definitionForm_refused evaluator otherEntries two) ⟨rfl, popped.same⟩
  | _ =>
      obtain ⟨operands, names⟩ := exists_operands alikeAbove.orderly entries
      have otherNames : Names other taken operands := by
        rwa [Names, alikeAbove.same.heap]
      exact .of_eq (procedure_eq_finish entries names rfl evaluator)
        (procedure_eq_finish otherEntries otherNames rfl evaluator) (finish_repeats popped _)

end Forms

end Builtin

namespace Evaluator

variable
  {library : Library}
  {inner : Evaluator}
  {first second : List Handle}
  {one other : Machine}
  (repeats : inner.RepeatsAbove first second)
  (alikeAbove : AlikeAbove first second one other)

theorem evaluateSymbol_same
    (alikeAbove : AlikeAbove first second one other)
    (name : String) :
    (evaluateSymbol name other).1 = (evaluateSymbol name one).1 ∧
      SameAbove first second (evaluateSymbol name one).2 (evaluateSymbol name other).2 := by
  cases bound : one.environment.get? name with
  | some value =>
      have otherBound : other.environment.get? name = some value := by
        rw [alikeAbove.same.environment, bound]
      rw [evaluateSymbol_bound bound, evaluateSymbol_bound otherBound]
      exact ⟨rfl, alikeAbove.same⟩
  | none =>
      have otherBound : other.environment.get? name = none := by
        rw [alikeAbove.same.environment, bound]
      rw [evaluateSymbol_unbound bound, evaluateSymbol_unbound otherBound]
      exact alikeAbove.same.recover alikeAbove.counted alikeAbove.alike _

section Operands

variable (safe : inner.Safe IsBuiltin)

include repeats alikeAbove in
theorem operand_repeats
    (evaluatesOperands : Bool)
    {expression : Handle}
    (reached : one.heap.Reaches one.stack.entries expression) :
    (inner.operand evaluatesOperands expression).Repeats first second one other := by
  cases evaluatesOperands with
  | true =>
      exact repeats one other expression alikeAbove reached
  | false =>
      exact .pure expression alikeAbove.same

include repeats safe alikeAbove in
theorem pushOperands_repeats
    (evaluatesOperands : Bool)
    (limit : Nat)
    {chain : Handle}
    (count : Nat)
    (reached : one.heap.Reaches one.stack.entries chain) :
    (inner.pushOperands evaluatesOperands limit chain count).Repeats first second one other := by
  induction limit generalizing one other chain count with
  | zero =>
      exact .exhausted
  | succ limit inductionHypothesis =>
      obtain ⟨cell, found⟩ := reached.exists_object
      have otherFound := alikeAbove.same.found found
      cases parts : cell.children? with
      | none =>
          exact .of_answers (pushOperands_end evaluatesOperands limit count found parts)
            (pushOperands_end evaluatesOperands limit count otherFound parts)
            ⟨rfl, alikeAbove.same⟩
      | some children =>
          obtain ⟨car, cdr⟩ := children
          obtain rfl := Object.children?_eq_some_iff.mp parts
          obtain ⟨carReached, cdrReached⟩ :=
            alikeAbove.orderly.closed.reaches_parts reached found
          refine .of_eq (pushOperands_pair evaluatesOperands limit count found)
            (pushOperands_pair evaluatesOperands limit count otherFound) ?_
          refine .bind (operand_repeats repeats alikeAbove evaluatesOperands carReached)
            (operand_answers safe evaluatesOperands alikeAbove.orderly carReached) ?_
          intro operand between otherBetween answers same
          obtain ⟨_, occupied⟩ := answers.value operand rfl
          have alikeBetween := alikeAbove.after_entries answers.keeps answers.orderly same
          exact .of_eq (pushAndGoOn_eq ..) (pushAndGoOn_eq ..)
            (inductionHypothesis (alikeBetween.push occupied) (count + 1)
              (answers.reaches_above cdrReached))

end Operands

section Calls

variable
  (safe : inner.Safe IsBuiltin)
  (settling : Settling library IsBuiltin inner)

include repeats alikeAbove safe settling

/-- A call takes its operands and looks at nothing below them. -/
theorem call_repeats
    {callee : Handle}
    {operands upper : List Handle}
    (entries : one.stack.entries = operands ++ (upper ++ first))
    (occupied : one.heap.isOccupied callee = true) :
    (call library inner callee operands.length).Repeats first second one other := by
  obtain ⟨object, found⟩ := Heap.isOccupied_iff.mp occupied
  have otherFound := alikeAbove.same.found found
  obtain ⟨otherEntries, popped⟩ := alikeAbove.popped entries
  cases isCallable : object.callable? with
  | some callable =>
      have known := alikeAbove.orderly.runsOnly callee object callable found isCallable
      have settles := settling.of_entries known alikeAbove.orderly entries
      obtain ⟨builtin, isOperation⟩ := known
      refine .of_eq (call_callable operands.length found isCallable)
        (call_callable operands.length otherFound isCallable) ?_
      rw [isOperation] at settles ⊢
      refine .tryCatch (builtin.procedure_repeats safe repeats alikeAbove entries) settles ?_
      intro error after otherAfter settled same
      exact (alikeAbove.after settled.keeps settled.orderly same).recover error
  | none =>
      exact .of_answers (call_other found isCallable entries)
        (call_other otherFound isCallable otherEntries)
        (popped.same.recover popped.counted popped.alike _)

theorem concludeWalk_repeats
    {callee : Handle}
    {operands upper : List Handle}
    {walk : OperandWalk}
    (entries : one.stack.entries = operands ++ (callee :: upper ++ first))
    (counted : walk = .complete operands.length ∨ walk = .malformed operands.length) :
    (concludeWalk library inner callee walk).Repeats first second one other := by
  rcases counted with rfl | rfl
  · have occupied : one.heap.isOccupied callee = true :=
      alikeAbove.orderly.entriesOccupied callee (by simp [entries])
    refine .bind (call_repeats repeats alikeAbove safe settling entries occupied)
      (call_answers settling alikeAbove.orderly entries occupied) ?_
    intro value after otherAfter answers same
    have afterEntries : after.stack.entries = [callee] ++ (upper ++ first) :=
      (answers.value value rfl).1
    obtain ⟨otherEntries, samePopped⟩ := same.popped afterEntries
    exact .bind_lift (pop_cons afterEntries) (pop_cons otherEntries) (.pure value samePopped)
  · have allEntries : one.stack.entries = (operands ++ [callee]) ++ (upper ++ first) := by
      rw [entries, List.append_assoc, List.singleton_append, List.cons_append]
    obtain ⟨_, popped⟩ := alikeAbove.popped allEntries
    have otherEntries := (alikeAbove.popped entries).1
    exact .of_answers (concludeWalk_malformed entries) (concludeWalk_malformed otherEntries)
      (popped.same.recover popped.counted popped.alike .malformedList)

theorem evaluatePair_repeats
    (limit : Nat)
    {pair car cdr : Handle}
    (found : one.heap.get? pair = some (.pair car cdr))
    (reached : one.heap.Reaches one.stack.entries pair) :
    (evaluatePair library inner limit pair car cdr).Repeats first second one other := by
  obtain ⟨carReached, cdrReached⟩ := alikeAbove.orderly.closed.reaches_parts reached found
  rw [evaluatePair_eq]
  refine .bind (repeats one other car alikeAbove carReached)
    (safe one car alikeAbove.orderly carReached) ?_
  intro head between otherBetween answers same
  obtain ⟨sameEntries, occupied⟩ := answers.value head rfl
  obtain ⟨object, headFound⟩ := Heap.isOccupied_iff.mp occupied
  have otherHeadFound := same.found headFound
  cases isCallable : object.callable? with
  | none =>
      exact .of_answers (concludeHead_self limit pair cdr headFound isCallable)
        (concludeHead_self limit pair cdr otherHeadFound isCallable) ⟨rfl, same⟩
  | some callable =>
      have pushed :=
        (alikeAbove.after_entries answers.keeps answers.orderly same).push occupied
      have chainReached := answers.reaches_above cdrReached
      refine .of_eq (concludeHead_call limit pair cdr headFound isCallable)
        (concludeHead_call limit pair cdr otherHeadFound isCallable) ?_
      refine .bind
        (pushOperands_repeats repeats pushed safe callable.evaluatesOperands limit 0 chainReached)
        (pushOperands_gathers safe callable.evaluatesOperands limit 0 pushed.orderly
          chainReached) ?_
      intro walk gathered otherGathered gathers sameGathered
      obtain ⟨operands, gatheredEntries, counted⟩ := gathers.walked walk rfl
      obtain ⟨upper, entries⟩ := alikeAbove.exists_upper
      rw [entries_withEntries, sameEntries, entries] at gatheredEntries
      rw [Nat.zero_add] at counted
      exact concludeWalk_repeats repeats
        (pushed.after_entries gathers.keeps gathers.orderly sameGathered) safe settling
        gatheredEntries counted

theorem evaluateObject_repeats
    (limit : Nat)
    {expression : Handle}
    (reached : one.heap.Reaches one.stack.entries expression) :
    (evaluateObject library inner limit expression).Repeats first second one other := by
  obtain ⟨object, found⟩ := reached.exists_object
  have recorded := alikeAbove.record (.evaluating expression)
  have stepped := @evaluateObject_eq library inner one limit expression object found
  have otherStepped := @evaluateObject_eq library inner other limit expression object
    (alikeAbove.same.found found)
  cases object with
  | symbol name =>
      exact .of_answers stepped otherStepped (evaluateSymbol_same recorded name)
  | pair car cdr =>
      exact .of_eq stepped otherStepped
        (evaluatePair_repeats repeats recorded safe settling limit found reached)
  | nil | void | integer | boolean | function | specialForm =>
      exact .of_answers stepped otherStepped ⟨rfl, recorded.same⟩

end Calls

end Evaluator

namespace Machine

variable {first second : List Handle} {machine : Machine}

theorem evaluator_repeats
    (library : Library)
    (first second : List Handle)
    (limit : Nat) :
    (evaluator library limit).RepeatsAbove first second := by
  have disciplined := disciplined_builtins library
  induction limit with
  | zero =>
      intro one other expression alikeAbove reached
      exact .exhausted
  | succ limit inductionHypothesis =>
      intro one other expression alikeAbove reached
      exact Evaluator.evaluateObject_repeats inductionHypothesis alikeAbove
        (evaluator_safe disciplined limit) (disciplined limit) limit reached

/-- Two machines that differ in nothing but their stacks. -/
def SameButStack (first second : Machine) : Prop :=
  second = first.withEntries second.stack.entries

theorem SameAbove.sameButStack
    {one other : Machine}
    (same : SameAbove first second one other) :
    one.SameButStack other := by
  obtain ⟨_, _, rfl⟩ := same
  rfl

/-- Whether a condition is evaluated to a value that is true, or to one that is not. -/
def Decides (evaluator : Evaluator) (machine : Machine) (condition : Handle) (truthy : Bool) :
    Prop :=
  ∃ outcome between object,
    evaluator.evaluate condition machine = some (.ok outcome, between) ∧
      between.heap.get? outcome = some object ∧
      object.isTruthy = truthy

/--
An answer with the same result, on a machine that differs in its stack at most; with a
value it does not differ at all.
-/
def SameUpToStack
    (otherAnswer : Option (Except Error Handle × Machine))
    (result : Except Error Handle)
    (after : Machine) :
    Prop :=
  ∃ otherAfter,
    otherAnswer = some (result, otherAfter) ∧
      SameButStack after otherAfter ∧
      ∀ value, result = .ok value → otherAfter = after

/-- Evaluates the selected branch of a conditional, and takes its operands. -/
def evaluateBranch (evaluator : Evaluator) (selected : Handle) : Run Handle := do
  let value ← evaluator.evaluate selected
  let _ ← discard 3
  return value

theorem concludeConditional_found
    (evaluator : Evaluator)
    (consequent otherwise : Handle)
    {outcome : Handle}
    {object : Object}
    (found : machine.heap.get? outcome = some object) :
    Builtin.concludeConditional evaluator consequent otherwise outcome machine =
      evaluateBranch evaluator (if object.isTruthy then consequent else otherwise) machine := by
  rw [Builtin.concludeConditional, Run.bind_apply, Run.liftM_apply, look_found found]
  rfl

/-- The operands leave the stack in the end, so what they were is forgotten. -/
theorem evaluateBranch_forgets
    {library : Library}
    {limit : Nat}
    {taken otherTaken below : List Handle}
    {one other : Machine}
    (alikeAbove : AlikeAbove (taken ++ below) (otherTaken ++ below) one other)
    (entries : one.stack.entries = taken ++ below)
    (three : taken.length = 3)
    (otherThree : otherTaken.length = 3)
    {selected : Handle}
    (reached : one.heap.Reaches one.stack.entries selected) :
    (evaluateBranch (evaluator library limit) selected).Ensures one
      (SameUpToStack (evaluateBranch (evaluator library limit) selected other)) := by
  have takes
      (value : Handle)
      {last : Machine}
      {operands : List Handle}
      (entries : last.stack.entries = operands ++ below)
      (three : operands.length = 3) :
      ((liftM (discard 3) : Run (Option Handle)) >>= fun _ => pure value) last =
        some (.ok value, last.withEntries below) := by
    have taken := discard_then entries (pure value)
    rwa [three] at taken
  have repeats := evaluator_repeats library _ _ limit one other selected alikeAbove reached
  have safe :=
    evaluator_safe (disciplined_builtins library) limit one selected alikeAbove.orderly reached
  refine .bind (Run.Ensures.and repeats safe) ?_ ?_
  · rintro value after ⟨⟨otherAfter, otherStep, same⟩, answers⟩
    have afterEntries := (answers.value value rfl).1.trans entries
    obtain rfl := same.eq_withEntries_bottom afterEntries
    have otherEntries := @entries_withEntries after (otherTaken ++ below)
    refine .of_answer (takes value afterEntries three)
      ⟨after.withEntries below, ?_, rfl, fun _ _ => rfl⟩
    rw [evaluateBranch, Run.bind_apply, otherStep]
    exact takes value otherEntries otherThree
  · rintro error after ⟨⟨otherAfter, otherStep, same⟩, _⟩
    refine ⟨otherAfter, ?_, same.sameButStack, by rintro _ ⟨⟩⟩
    rw [evaluateBranch, Run.bind_apply, otherStep]

/-- A conditional with other branches, the selected one apart, comes to the same. -/
theorem conditionalForm_selects
    {library : Library}
    {limit : Nat}
    (orderly : machine.Orderly IsBuiltin)
    {condition : Handle}
    {consequent otherwise otherConsequent otherOtherwise : Handle}
    {below : List Handle}
    (entries : machine.stack.entries = [otherwise, consequent, condition] ++ below)
    (alike :
      machine.heap.ReachAlike ([otherwise, consequent, condition] ++ below)
        ([otherOtherwise, otherConsequent, condition] ++ below))
    {truthy : Bool}
    (decides : Decides (evaluator library limit) machine condition truthy)
    (sameSelected :
      (if truthy then otherConsequent else otherOtherwise) =
        if truthy then consequent else otherwise) :
    (Builtin.conditionalForm (evaluator library limit) 3).Ensures machine
      (SameUpToStack
        (Builtin.conditionalForm (evaluator library limit) 3
          (machine.withEntries ([otherOtherwise, otherConsequent, condition] ++ below)))) := by
  have alikeAbove := AlikeAbove.of_bottom orderly alike entries
  have conditionReached : machine.heap.Reaches machine.stack.entries condition :=
    orderly.toWellFormed.reaches_entry (by simp [entries])
  obtain ⟨outcome, between, object, evaluated, found, rfl⟩ := decides
  have answers :=
    evaluator_safe (disciplined_builtins library) limit machine condition orderly
      conditionReached _ _ evaluated
  obtain ⟨otherBetween, otherEvaluated, same⟩ :=
    evaluator_repeats library _ _ limit machine _ condition alikeAbove conditionReached
      _ _ evaluated
  have betweenEntries := (answers.value outcome rfl).1.trans entries
  have selectedReached :
      between.heap.Reaches between.stack.entries
        (if object.isTruthy then consequent else otherwise) := by
    refine answers.orderly.toWellFormed.reaches_entry ?_
    rw [betweenEntries]
    split <;> simp
  have forgets :=
    @evaluateBranch_forgets library limit _ _ _ _ _
      (alikeAbove.after_entries answers.keeps answers.orderly same) betweenEntries rfl rfl _
      selectedReached
  have selects :
      Builtin.conditionalForm (evaluator library limit) 3 machine =
        evaluateBranch (evaluator library limit)
          (if object.isTruthy then consequent else otherwise) between := by
    rw [Builtin.conditionalForm_eq _ entries, Run.bind_apply, evaluated]
    exact concludeConditional_found _ consequent otherwise found
  have otherSelects :
      Builtin.conditionalForm (evaluator library limit) 3
          (machine.withEntries ([otherOtherwise, otherConsequent, condition] ++ below)) =
        evaluateBranch (evaluator library limit)
          (if object.isTruthy then consequent else otherwise) otherBetween := by
    rw [Builtin.conditionalForm_eq _ rfl, Run.bind_apply, otherEvaluated, ← sameSelected]
    exact concludeConditional_found _ otherConsequent otherOtherwise (same.found found)
  rw [otherSelects]
  exact .of_eq selects forgets

/--
The branch of a conditional that is not taken makes no difference.

On a well-formed machine with builtin operations only, let a conditional return whose
condition is true.  With any other expression in place of its last operand it returns
the same value or fails with the same error, on a machine with the same heap, bindings,
diagnostics, journal and number of collections, if the entries below the operands reach
both expressions.  The same holds of the second operand if the condition is false.
-/
theorem untaken_branch_ignored
    (library : Library)
    (limit : Nat)
    (orderly : machine.Orderly IsBuiltin)
    {otherwise consequent condition : Handle}
    {below : List Handle}
    (entries : machine.stack.entries = [otherwise, consequent, condition] ++ below)
    {other : Handle}
    (otherReached : machine.heap.Reaches below other) :
    (machine.heap.Reaches below otherwise →
      Decides (evaluator library limit) machine condition true →
      (Builtin.conditional.procedure (evaluator library limit) 3).Ensures machine
        (SameUpToStack
          (Builtin.conditional.procedure (evaluator library limit) 3
            (machine.withEntries ([other, consequent, condition] ++ below))))) ∧
    (machine.heap.Reaches below consequent →
      Decides (evaluator library limit) machine condition false →
      (Builtin.conditional.procedure (evaluator library limit) 3).Ensures machine
        (SameUpToStack
          (Builtin.conditional.procedure (evaluator library limit) 3
            (machine.withEntries ([otherwise, other, condition] ++ below))))) := by
  have occupied :
      ∀ handle ∈ [otherwise, consequent, condition] ++ below,
        machine.heap.isOccupied handle = true := by
    rw [← entries]
    exact orderly.entriesOccupied
  constructor
  · intro reached decides
    have more : ∀ root ∈ below, root ∈ [consequent, condition] ++ below :=
      fun _ inBelow => List.mem_append_right _ inBelow
    have alike :=
      @Heap.ReachAlike.of_reached machine.heap _ _ [] _ occupied (reached.of_subset more)
        (otherReached.of_subset more)
    exact conditionalForm_selects orderly entries alike decides rfl
  · intro reached decides
    have more : ∀ root ∈ below, root ∈ [condition] ++ below :=
      fun _ inBelow => List.mem_append_right _ inBelow
    have alike :=
      @Heap.ReachAlike.of_reached machine.heap _ _ [otherwise] _ occupied
        (reached.of_subset more) (otherReached.of_subset more)
    exact conditionalForm_selects orderly entries alike decides rfl

/--
A full machine with the operands of `(if T (+ 1 1) (1))` on its stack, where the last
operand is part of the second one.  The only slot that can be emptied is the last one.
-/
def choosing : Machine where
  heap :=
    { slots :=
        #[some ⟨.function "+" (.builtin .add), false⟩, some ⟨.integer 1, false⟩,
          some ⟨.nil, false⟩,
          some ⟨.pair (Handle.ofIndex 1) (Handle.ofIndex 2), false⟩,
          some ⟨.pair (Handle.ofIndex 1) (Handle.ofIndex 3), false⟩,
          some ⟨.pair (Handle.ofIndex 0) (Handle.ofIndex 4), false⟩,
          some ⟨.boolean true, false⟩, some ⟨.integer 7, false⟩]
      last := none
      live := 8
      initialThreshold := 1
      threshold := 8 }
  environment := Environment.empty
  stack :=
    ⟨[Handle.ofIndex 3, Handle.ofIndex 5, Handle.ofIndex 6, Handle.ofIndex 5]⟩
  eagerDefinitions := false
  diagnostics := []
  collections := 0
  journal := []

/-- With another last operand the sum is placed in the same slot, after a collection. -/
theorem untaken_branch_ignored_choosing :
    choosing.Orderly IsBuiltin ∧
      ∃ after,
        Builtin.conditional.procedure (evaluator Library.empty 5) 3 choosing =
            some (.ok (Handle.ofIndex 7), after) ∧
          after.collections = 1 ∧
          Builtin.conditional.procedure (evaluator Library.empty 5) 3
              (choosing.withEntries
                [Handle.ofIndex 4, Handle.ofIndex 5, Handle.ofIndex 6, Handle.ofIndex 5]) =
            some (.ok (Handle.ofIndex 7), after) := by
  have orderly : choosing.Orderly IsBuiltin :=
    .of_slots ⟨⟨by decide, by decide, by decide, by decide⟩, by decide, by decide⟩ (by decide)
      (by decide)
  have callReached : choosing.heap.Reaches [Handle.ofIndex 5] (Handle.ofIndex 5) :=
    .root (by decide) (by decide)
  have otherReached : choosing.heap.Reaches [Handle.ofIndex 5] (Handle.ofIndex 4) :=
    .step callReached rfl (by decide) (by decide)
  have reached : choosing.heap.Reaches [Handle.ofIndex 5] (Handle.ofIndex 3) :=
    .step otherReached rfl (by decide) (by decide)
  have decides : Decides (evaluator Library.empty 5) choosing (Handle.ofIndex 6) true :=
    ⟨_, _, _, rfl, rfl, rfl⟩
  obtain ⟨after, answered, collected⟩ :
      ∃ after,
        Builtin.conditional.procedure (evaluator Library.empty 5) 3 choosing =
            some (.ok (Handle.ofIndex 7), after) ∧
          after.collections = 1 :=
    Run.exists_value_of_any (by decide +kernel)
  have ignored :=
    (untaken_branch_ignored Library.empty 5 orderly rfl otherReached).1 reached decides
  obtain ⟨otherAfter, otherAnswered, _, same⟩ := ignored _ _ answered
  rw [same _ rfl] at otherAnswered
  exact ⟨orderly, after, answered, collected, otherAnswered⟩

end Machine

end ArenaLisp
