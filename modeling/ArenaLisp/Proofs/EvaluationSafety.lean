import ArenaLisp.Proofs.BuiltinDiscipline
import ArenaLisp.Proofs.EvaluatorSteps

namespace ArenaLisp

/-!
# Evaluation is safe and keeps the stack balanced

If the operations that a machine's callables run are disciplined, so is the
interpreter itself.  The expression under evaluation is always reached from a stack
entry, the callee lies below its operands, and every operand is pushed before
anything else is allocated; so whatever is collected meanwhile is no longer needed.
-/

namespace Evaluator

open Machine

variable
  {operations : Operation → Prop}
  {library : Library}
  {inner : Evaluator}
  {machine : Machine}

/--
What a walk along a chain of operands owes to the entries on the stack: it pushes
the operands that it counts on top of these, or runs out of memory above them.
-/
structure Gathers
    (operations : Operation → Prop)
    (before : Heap)
    (below : List Handle)
    (count : Nat)
    (result : Except Error OperandWalk)
    (after : Machine) :
    Prop where
  orderly : after.Orderly operations
  keeps : Heap.Keeps below before after.heap
  walked :
    ∀ walk,
      result = .ok walk →
      ∃ operands,
        after.stack.entries = operands ++ below ∧
          (walk = .complete (count + operands.length) ∨
            walk = .malformed (count + operands.length))
  failure :
    ∀ error,
      result = .error error →
      error = .outOfMemory ∧ below <:+ after.stack.entries

/-- An operand that was pushed before the rest of the walk is one more that it counts. -/
theorem Gathers.of_pushed
    {before between : Heap}
    {below : List Handle}
    {operand : Handle}
    {count : Nat}
    {result : Except Error OperandWalk}
    {after : Machine}
    (gathers : Gathers operations between (operand :: below) (count + 1) result after)
    (keeps : Heap.Keeps below before between) :
    Gathers operations before below count result after where
  orderly := gathers.orderly
  keeps := keeps.trans (@Heap.Keeps.below _ _ _ [operand] gathers.keeps)
  walked := by
    intro walk isWalk
    obtain ⟨operands, entries, counted⟩ := gathers.walked walk isWalk
    refine ⟨operands ++ [operand], by rw [entries, List.append_assoc, List.singleton_append], ?_⟩
    have oneMore : count + (operands ++ [operand]).length = count + 1 + operands.length := by
      rw [List.length_append, List.length_singleton]
      omega
    rwa [oneMore]
  failure := by
    intro error failed
    obtain ⟨isOutOfMemory, still⟩ := gathers.failure error failed
    exact ⟨isOutOfMemory, (List.suffix_cons operand below).trans still⟩

/-- An operand is a value, or the expression itself; either way it is occupied. -/
theorem operand_answers
    (safe : inner.Safe operations)
    (evaluatesOperands : Bool)
    (orderly : machine.Orderly operations)
    {expression : Handle}
    (reached : machine.heap.Reaches machine.stack.entries expression) :
    (inner.operand evaluatesOperands expression).Ensures machine
      (Answers operations machine.heap machine.stack.entries) := by
  cases evaluatesOperands with
  | true =>
      exact safe machine expression orderly reached
  | false =>
      exact .pure (.unchanged orderly reached.isOccupied)

theorem pushOperands_gathers
    (safe : inner.Safe operations)
    (evaluatesOperands : Bool)
    (limit : Nat)
    {chain : Handle}
    (count : Nat)
    (orderly : machine.Orderly operations)
    (reached : machine.heap.Reaches machine.stack.entries chain) :
    (inner.pushOperands evaluatesOperands limit chain count).Ensures machine
      (Gathers operations machine.heap machine.stack.entries count) := by
  induction limit generalizing machine chain count with
  | zero =>
      exact .exhausted
  | succ limit inductionHypothesis =>
      obtain ⟨cell, found⟩ := reached.exists_object
      cases parts : cell.children? with
      | none =>
          refine .of_answer (pushOperands_end evaluatesOperands limit count found parts) ?_
          refine ⟨orderly, .refl _ _, ?_, by rintro _ ⟨⟩⟩
          intro _ same
          cases same
          exact ⟨[], rfl, walkEnd_counts cell count⟩
      | some children =>
          obtain ⟨car, cdr⟩ := children
          obtain rfl := Object.children?_eq_some_iff.mp parts
          obtain ⟨carReached, cdrReached⟩ := orderly.closed.reaches_parts reached found
          refine .of_eq (pushOperands_pair evaluatesOperands limit count found) ?_
          refine .bind (operand_answers safe evaluatesOperands orderly carReached) ?_ ?_
          · intro operand between answers
            obtain ⟨entries, occupied⟩ := answers.value operand rfl
            -- What the chain goes on with is still reached from the old entries.
            have restReached := answers.reaches_above cdrReached
            have gathers :=
              inductionHypothesis (count + 1) (answers.orderly.push occupied) restReached
            refine .of_eq (pushAndGoOn_eq ..) (gathers.mono fun result after gathered => ?_)
            rw [entries_withEntries, entries] at gathered
            exact gathered.of_pushed answers.keeps
          · intro error after answers
            refine ⟨answers.orderly, answers.keeps, by rintro _ ⟨⟩, ?_⟩
            intro _ same
            cases same
            exact answers.failure error rfl

/-- A call answers: an error of the operation is recovered once its operands are gone. -/
theorem call_answers
    (settling : Settling library operations inner)
    (orderly : machine.Orderly operations)
    {callee : Handle}
    {operands below : List Handle}
    (entries : machine.stack.entries = operands ++ below)
    (occupied : machine.heap.isOccupied callee = true) :
    (call library inner callee operands.length).Ensures machine
      (Answers operations machine.heap below) := by
  obtain ⟨object, found⟩ := Heap.isOccupied_iff.mp occupied
  cases isCallable : object.callable? with
  | some callable =>
      have known := orderly.runsOnly callee object callable found isCallable
      have settles := settling.of_entries known orderly entries
      refine .of_eq (call_callable operands.length found isCallable) (.tryCatch settles ?_ ?_)
      · intro value after settled
        exact ⟨settled.orderly, settled.keeps, settled.value, by rintro _ ⟨⟩⟩
      · intro error after settled
        refine .lift ?_
        cases severity : error.isFatal with
        | false =>
            have answers := recover_answers settled.orderly severity
            rw [settled.recoverable error rfl severity] at answers
            exact answers.after_keeps settled.keeps
        | true =>
            rw [recover_fatal severity]
            refine ⟨settled.orderly, settled.keeps, by rintro _ ⟨⟩, ?_⟩
            intro _ same
            cases same
            exact settled.fatal error rfl severity
  | none =>
      exact .of_answer (call_other found isCallable entries)
        (recover_answers (orderly.popped entries) rfl)

theorem evaluateSymbol_answers
    (orderly : machine.Orderly operations)
    (name : String) :
    Answers operations machine.heap machine.stack.entries
      (evaluateSymbol name machine).1 (evaluateSymbol name machine).2 := by
  cases bound : machine.environment.get? name with
  | some value =>
      have reached := orderly.toWellFormed.reachable_binding bound
      rw [evaluateSymbol_bound bound]
      exact .unchanged orderly reached.isOccupied
  | none =>
      rw [evaluateSymbol_unbound bound]
      exact recover_answers orderly rfl

section Pairs

variable
  (safe : inner.Safe operations)
  (settling : Settling library operations inner)

include settling

/-- What follows the walk along the operands of a call takes the callee off the stack. -/
theorem concludeWalk_answers
    (orderly : machine.Orderly operations)
    {callee : Handle}
    {operands below : List Handle}
    {walk : OperandWalk}
    (entries : machine.stack.entries = operands ++ callee :: below)
    (counted : walk = .complete operands.length ∨ walk = .malformed operands.length) :
    (concludeWalk library inner callee walk).Ensures machine
      (Answers operations machine.heap below) := by
  rcases counted with rfl | rfl
  · have occupied : machine.heap.isOccupied callee = true :=
      orderly.entriesOccupied callee (by simp [entries])
    refine .bind (call_answers settling orderly entries occupied) ?_ ?_
    · intro value called answers
      refine .bind_lift (pop_cons (answers.value value rfl).1) (.pure ?_)
      exact @Answers.value_below _ _ [callee] below _ _ answers
    · intro error called answers
      exact @Answers.failure_below _ _ [callee] below _ _ answers
  · have popped : (machine.withEntries below).Orderly operations := by
      refine orderly.withFewerEntries fun handle member => ?_
      simp [entries, member]
    exact .of_answer (concludeWalk_malformed entries) (recover_answers popped rfl)

include safe

/-- A call whose callee is on the stack gathers its operands above it. -/
theorem operandsAndCall_answers
    (orderly : machine.Orderly operations)
    (limit : Nat)
    (evaluatesOperands : Bool)
    {head chain : Handle}
    {below : List Handle}
    (entries : machine.stack.entries = head :: below)
    (reached : machine.heap.Reaches machine.stack.entries chain) :
    (inner.pushOperands evaluatesOperands limit chain 0 >>=
        concludeWalk library inner head).Ensures machine
      (Answers operations machine.heap below) := by
  refine .bind (pushOperands_gathers safe evaluatesOperands limit 0 orderly reached) ?_ ?_
  · intro walk gathered gathers
    obtain ⟨operands, operandEntries, counted⟩ := gathers.walked walk rfl
    have keeps := gathers.keeps
    rw [entries] at operandEntries keeps
    rw [Nat.zero_add] at counted
    have concluded := concludeWalk_answers settling gathers.orderly operandEntries counted
    exact concluded.mono fun result after answers =>
      answers.after_keeps (@Heap.Keeps.below _ _ _ [head] keeps)
  · intro error gathered gathers
    have keeps := gathers.keeps
    rw [entries] at keeps
    refine ⟨gathers.orderly, @Heap.Keeps.below _ _ _ [head] keeps, by rintro _ ⟨⟩, ?_⟩
    intro _ same
    cases same
    obtain ⟨isOutOfMemory, still⟩ := gathers.failure error rfl
    rw [entries] at still
    exact ⟨isOutOfMemory, (List.suffix_cons head below).trans still⟩

theorem evaluatePair_answers
    (orderly : machine.Orderly operations)
    (limit : Nat)
    {pair car cdr : Handle}
    (found : machine.heap.get? pair = some (.pair car cdr))
    (reached : machine.heap.Reaches machine.stack.entries pair) :
    (evaluatePair library inner limit pair car cdr).Ensures machine
      (Answers operations machine.heap machine.stack.entries) := by
  obtain ⟨carReached, cdrReached⟩ := orderly.closed.reaches_parts reached found
  rw [evaluatePair_eq]
  refine .bind (safe machine car orderly carReached) ?_ ?_
  · intro head between answers
    obtain ⟨entries, occupied⟩ := answers.value head rfl
    obtain ⟨object, headFound⟩ := Heap.isOccupied_iff.mp occupied
    cases isCallable : object.callable? with
    | none =>
        have pairOccupied := (answers.keeps.reaches reached).isOccupied
        refine .of_answer (concludeHead_self limit pair cdr headFound isCallable) ?_
        exact answers.trans (.unchanged answers.orderly pairOccupied)
    | some callable =>
        have chainReached := answers.reaches_above cdrReached
        have calls :=
          operandsAndCall_answers safe settling (answers.orderly.push occupied) limit
            callable.evaluatesOperands rfl chainReached
        refine .of_eq (concludeHead_call limit pair cdr headFound isCallable) ?_
        exact calls.mono fun result after called => answers.trans called
  · intro error after answers
    exact answers

/-- One level of the interpreter answers if the level below does. -/
theorem evaluateObject_answers
    (orderly : machine.Orderly operations)
    (limit : Nat)
    {expression : Handle}
    (reached : machine.heap.Reaches machine.stack.entries expression) :
    (evaluateObject library inner limit expression).Ensures machine
      (Answers operations machine.heap machine.stack.entries) := by
  obtain ⟨object, found⟩ := reached.exists_object
  have recorded := orderly.record (.evaluating expression)
  have stepped := @evaluateObject_eq library inner machine limit expression object found
  cases object with
  | symbol name =>
      exact .of_answer stepped (evaluateSymbol_answers recorded name)
  | pair car cdr =>
      exact .of_eq stepped (evaluatePair_answers safe settling recorded limit found reached)
  | nil | void | integer | boolean | function | specialForm =>
      exact .of_answer stepped (.unchanged recorded reached.isOccupied)

end Pairs

end Evaluator

namespace Machine

variable
  {operations : Operation → Prop}
  {library : Library}
  {machine : Machine}

/-- The interpreter is safe at the next nesting limit if its operations settle at this one. -/
theorem evaluator_safe_succ
    {limit : Nat}
    (safe : (evaluator library limit).Safe operations)
    (settling : Settling library operations (evaluator library limit)) :
    (evaluator library (limit + 1)).Safe operations := by
  intro machine expression orderly reached
  exact Evaluator.evaluateObject_answers safe settling orderly limit reached

theorem evaluator_safe
    (disciplined : Disciplined library operations)
    (limit : Nat) :
    (evaluator library limit).Safe operations := by
  induction limit with
  | zero =>
      intro machine expression orderly reached
      exact .exhausted
  | succ limit inductionHypothesis =>
      exact evaluator_safe_succ inductionHypothesis (disciplined limit)

/--
The builtin operations never break the discipline: a set of operations is
disciplined if its custom operations settle with every safe interpreter.
-/
theorem disciplined_of_customs
    (customsSettle :
      ∀ limit key given machine,
        (evaluator library limit).Safe operations →
        operations (.custom key) →
        Orderly operations machine →
        given ≤ machine.stack.size →
        (library key (evaluator library limit) given).Ensures machine
          (Settles operations machine.heap (machine.stack.entries.drop given))) :
    Disciplined library operations := by
  have settling_of_safe
      (limit : Nat)
      (safe : (evaluator library limit).Safe operations) :
      Settling library operations (evaluator library limit) := by
    intro operation given machine known orderly enough
    cases operation with
    | builtin builtin =>
        exact builtin.procedure_settles safe orderly enough
    | custom key =>
        exact customsSettle limit key given machine safe known orderly enough
  have safe
      (limit : Nat) :
      (evaluator library limit).Safe operations := by
    induction limit with
    | zero =>
        intro machine expression orderly reached
        exact .exhausted
    | succ limit inductionHypothesis =>
        exact evaluator_safe_succ inductionHypothesis (settling_of_safe limit inductionHypothesis)
  exact fun limit => settling_of_safe limit (safe limit)

/-- The builtin operations are disciplined, whatever the library. -/
theorem disciplined_builtins (library : Library) : Disciplined library IsBuiltin :=
  disciplined_of_customs fun _ _ _ _ _ isBuiltin => by
    obtain ⟨builtin, impossible⟩ := isBuiltin
    cases impossible

/-- At the top level the expression itself is pushed, so it only has to be occupied. -/
theorem evaluateTopLevel_answers
    {evaluator : Evaluator}
    (safe : evaluator.Safe operations)
    (orderly : machine.Orderly operations)
    {expression : Handle}
    (occupied : machine.heap.isOccupied expression = true) :
    (evaluateTopLevel evaluator expression).Ensures machine
      (Answers operations machine.heap machine.stack.entries) := by
  have pushed := orderly.push occupied
  have reached := pushed.toWellFormed.reaches_entry List.mem_cons_self
  refine .of_eq (evaluateTopLevel_eq evaluator expression machine) ?_
  refine .bind (safe _ expression pushed reached) ?_ ?_
  · intro value after answers
    have entries := (answers.value value rfl).1
    refine .of_answer (concludeTopLevel_balanced value entries rfl) ?_
    exact @Answers.value_below _ _ [expression] _ _ _ answers
  · intro error after answers
    exact @Answers.failure_below _ _ [expression] _ _ _ answers

/-- A call from outside takes its operands and answers, whatever the callee is. -/
theorem apply_answers
    (disciplined : Disciplined library operations)
    (orderly : machine.Orderly operations)
    (limit : Nat)
    {callee : Handle}
    {given : Nat}
    (occupied : machine.heap.isOccupied callee = true)
    (enough : given ≤ machine.stack.size) :
    ((evaluator library limit).apply callee given).Ensures machine
      (Answers operations machine.heap (machine.stack.entries.drop given)) := by
  cases limit with
  | zero =>
      exact .exhausted
  | succ limit =>
      have entries := (List.take_append_drop given machine.stack.entries).symm
      have answers :=
        Evaluator.call_answers (disciplined limit) orderly entries occupied
      rwa [List.length_take_of_le enough] at answers

/--
Evaluation with disciplined operations is safe, whenever collections happen: on an
orderly machine, whatever is evaluated, called or recovered leaves an orderly
machine, the entries below it as they were, and unchanged what these entries reach.
Its value is occupied, and it fails in no other way than by running out of memory.
-/
theorem evaluation_safe
    (disciplined : Disciplined library operations)
    (orderly : machine.Orderly operations)
    (limit : Nat) :
    (∀ expression,
      machine.heap.isOccupied expression = true →
      (evaluateTopLevel (evaluator library limit) expression).Ensures machine
        (Answers operations machine.heap machine.stack.entries)) ∧
    (∀ expression,
      machine.heap.Reaches machine.stack.entries expression →
      ((evaluator library limit).evaluate expression).Ensures machine
        (Answers operations machine.heap machine.stack.entries)) ∧
    (∀ callee given,
      machine.heap.isOccupied callee = true →
      given ≤ machine.stack.size →
      ((evaluator library limit).apply callee given).Ensures machine
        (Answers operations machine.heap (machine.stack.entries.drop given))) ∧
    ∀ error,
      error.isFatal = false →
      Answers operations machine.heap machine.stack.entries
        (recover error machine).1 (recover error machine).2 := by
  have safe := evaluator_safe disciplined limit
  refine ⟨?_, ?_, ?_, ?_⟩
  · intro expression occupied
    exact evaluateTopLevel_answers safe orderly occupied
  · intro expression reached
    exact safe machine expression orderly reached
  · intro callee given occupied enough
    exact apply_answers disciplined orderly limit occupied enough
  · intro error recoverable
    exact recover_answers orderly recoverable

/-- Answers with its one operand, which stays an expression if the callable is a special form. -/
def quotation : Procedure := fun _ given => do
  match ← popMany given with
  | [operand] => return operand
  | _ => throw (.arityMismatch "quote" "1" given)

theorem quotation_settles
    (inner : Evaluator)
    (orderly : machine.Orderly operations)
    {given : Nat}
    (enough : given ≤ machine.stack.size) :
    (quotation inner given).Ensures machine
      (Settles operations machine.heap (machine.stack.entries.drop given)) := by
  have entries := (List.take_append_drop given machine.stack.entries).symm
  have popped := popMany_append entries
  rw [List.length_take_of_le enough] at popped
  have orderlyBelow := orderly.popped entries
  refine .bind_lift popped ?_
  split
  · rename_i operand taken
    have occupied : machine.heap.isOccupied operand = true := by
      refine orderly.entriesOccupied operand (List.mem_of_mem_take (i := given) ?_)
      rw [taken]
      exact List.mem_singleton_self operand
    exact .pure (Answers.unchanged orderlyBelow occupied).settles
  · exact .throw (Builtin.settles_error orderlyBelow rfl)

theorem disciplined_quotation : Disciplined (fun _ => quotation) fun _ => True :=
  disciplined_of_customs fun _ _ _ _ _ _ orderly enough =>
    quotation_settles _ orderly enough

/-- A full machine on which slot four holds the expression `(quote x)`. -/
def quoting : Machine where
  heap :=
    { slots :=
        #[some ⟨.specialForm "quote" (.custom "quote"), false⟩,
          some ⟨.symbol "x", false⟩, some ⟨.nil, false⟩,
          some ⟨.pair (Handle.ofIndex 1) (Handle.ofIndex 2), false⟩,
          some ⟨.pair (Handle.ofIndex 0) (Handle.ofIndex 3), false⟩]
      last := some 4
      live := 5
      initialThreshold := 1
      threshold := 5 }
  environment := Environment.empty.define "quote" (Handle.ofIndex 0)
  stack := OperandStack.empty
  eagerDefinitions := false
  diagnostics := []
  collections := 0
  journal := []

theorem quoting_orderly : quoting.Orderly fun _ => True :=
  .of_slots ⟨⟨by decide, by decide, by decide, by decide⟩, by decide, by decide⟩ (by decide)
    (by decide)

theorem evaluation_safe_quoting :
    Disciplined (fun _ => quotation) (fun _ => True) ∧
      quoting.Orderly (fun _ => True) ∧
      ∃ after,
        evaluateTopLevel (evaluator (fun _ => quotation) 4) (Handle.ofIndex 4) quoting =
            some (.ok (Handle.ofIndex 1), after) ∧
          after.stack.entries = [] ∧
          after.heap.isOccupied (Handle.ofIndex 1) = true := by
  refine ⟨disciplined_quotation, quoting_orderly, _, rfl, ?_⟩
  have safe := evaluation_safe disciplined_quotation quoting_orderly 4
  exact (safe.1 (Handle.ofIndex 4) (by decide) _ _ rfl).value _ rfl

end Machine

end ArenaLisp
