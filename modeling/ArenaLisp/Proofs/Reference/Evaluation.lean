import ArenaLisp.Proofs.EvaluationSafety
import ArenaLisp.Proofs.Reference.Operations

namespace ArenaLisp

/-!
# Evaluation refines the reference

A limit above the height of an expression is enough to evaluate it: only parts of
the expression are ever evaluated, never the values that come out.  The interpreter
then ends with the tree and the world of the reference, unless memory runs out.
-/

open Machine

namespace Evaluator

variable
  {capacity limit : Nat}
  {library : Library}
  {inner : Evaluator}
  {machine : Machine}
  {world : World}

/-- What a walk has left on the stack against what the reference has gathered. -/
def Collects
    (capacity : Nat)
    (below : List Handle)
    (count : Nat)
    (chain : Tree)
    (gathered : List Tree × World)
    (result : Except Error OperandWalk)
    (after : Machine) :
    Prop :=
  result = .error .outOfMemory ∨
    ∃ operands,
      after.stack.entries = operands ++ below ∧
        List.Forall₂ after.heap.Unfolds operands gathered.1.reverse ∧
        result =
          .ok (if chain.isProper then
              .complete (count + operands.length)
            else
              .malformed (count + operands.length)) ∧
        Represents capacity after gathered.2

section Walk

variable
  (follows : inner.Follows capacity limit)
  (safe : inner.Safe IsBuiltin)

include follows safe

theorem operand_refines
    (evaluatesOperands : Bool)
    (orderly : machine.Orderly IsBuiltin)
    (represents : Represents capacity machine world)
    {expression : Handle}
    {tree : Tree}
    (reached : machine.heap.Reaches machine.stack.entries expression)
    (unfolds : machine.heap.Unfolds expression tree)
    (low : tree.height < limit) :
    (inner.operand evaluatesOperands expression).Yields machine fun result after =>
      RefinesValue capacity
          (if evaluatesOperands then Reference.evaluate tree world else (tree, world))
          result after ∧
        Answers IsBuiltin machine.heap machine.stack.entries result after := by
  cases evaluatesOperands with
  | true =>
      exact follows.and_safe safe orderly represents reached unfolds low
  | false =>
      exact .pure ⟨.inr ⟨.value unfolds, represents⟩, .unchanged orderly reached.isOccupied⟩

/-- The walk along a chain pushes what the reference gathers of it. -/
theorem pushOperands_refines
    (evaluatesOperands : Bool)
    (budget count : Nat)
    (orderly : machine.Orderly IsBuiltin)
    (represents : Represents capacity machine world)
    {chain : Handle}
    {tree : Tree}
    (reached : machine.heap.Reaches machine.stack.entries chain)
    (unfolds : machine.heap.Unfolds chain tree)
    (low : tree.height < limit)
    (affordable : tree.height < budget) :
    (inner.pushOperands evaluatesOperands budget chain count).Yields machine
      (Collects capacity machine.stack.entries count tree
        (Reference.gather evaluatesOperands (Reference.operands tree) world)) := by
  induction budget generalizing machine world chain tree count with
  | zero =>
      exact absurd affordable (Nat.not_lt_zero _)
  | succ budget inductionHypothesis =>
      obtain ⟨cell, found⟩ := unfolds.exists_object
      cases parts : cell.children? with
      | none =>
          obtain ⟨sameEnd, noOperands⟩ := unfolds.isListEnd_eq found parts
          refine .of_answer (pushOperands_end evaluatesOperands budget count found parts) ?_
          rw [noOperands, walkEnd, sameEnd]
          exact .inr ⟨[], rfl, .nil, rfl, represents⟩
      | some children =>
          obtain ⟨carHandle, cdrHandle⟩ := children
          obtain rfl := Object.children?_eq_some_iff.mp parts
          obtain ⟨car, cdr, rfl, carUnfolds, cdrUnfolds⟩ := unfolds.of_pair found
          simp only [Tree.height] at low affordable
          obtain ⟨carReached, cdrReached⟩ := orderly.closed.reaches_parts reached found
          refine .of_eq (pushOperands_pair evaluatesOperands budget count found) ?_
          refine .bind (operand_refines follows safe evaluatesOperands orderly represents carReached
            carUnfolds (by omega)) ?_ ?_
          · intro operand between holds
            obtain ⟨refines, answers⟩ := holds
            obtain ⟨operandUnfolds, representsBetween⟩ := refines.unfolds
            obtain ⟨entries, occupied⟩ := answers.value operand rfl
            have pushed := answers.orderly.push occupied
            have restReached := answers.reaches_above cdrReached
            have operandReached : between.heap.Reaches (operand :: between.stack.entries) operand :=
              .root List.mem_cons_self occupied
            have walks :=
              (inductionHypothesis (count + 1) pushed
                (representsBetween.withEntries (operand :: between.stack.entries)) restReached
                (cdrUnfolds.of_keeps answers.keeps cdrReached) (by omega) (by omega)).and_ensures
                (pushOperands_gathers safe evaluatesOperands budget (count + 1) pushed restReached)
            refine .of_eq (pushAndGoOn_eq ..) (walks.mono ?_)
            rintro result after ⟨failed | ⟨operands, operandEntries, allUnfold, walked, represents⟩,
              gathers⟩
            · exact .inl failed
            · refine .inr ⟨operands ++ [operand], ?_, ?_, ?_, represents⟩
              · rw [operandEntries, entries_withEntries, entries, List.append_assoc,
                  List.singleton_append]
              · -- The operand was on the stack during the rest of the walk.
                have still := operandUnfolds.of_keeps gathers.keeps operandReached
                simp only [Reference.operands, Reference.gather, List.reverse_cons]
                exact List.rel_append allUnfold (.cons still .nil)
              · have oneMore :
                    count + 1 + operands.length = count + (operands ++ [operand]).length := by
                  rw [List.length_append, List.length_singleton]
                  omega
                rw [walked, oneMore]
                rfl
          · intro error after holds
            obtain ⟨refines, _⟩ := holds
            exact .inl (congrArg Except.error refines.outOfMemory)

end Walk

theorem evaluateSymbol_refines
    (orderly : machine.Orderly IsBuiltin)
    (represents : Represents capacity machine world)
    (name : String) :
    RefinesValue capacity (Reference.evaluateSymbol name world)
      (evaluateSymbol name machine).1 (evaluateSymbol name machine).2 := by
  have related := represents.bindings name
  cases bound : machine.environment.get? name with
  | some value =>
      obtain ⟨tree, isTree, unfolds⟩ := represents.unfolds_binding bound
      rw [evaluateSymbol_bound bound, Reference.evaluateSymbol, isTree]
      exact .inr ⟨.value unfolds, represents⟩
  | none =>
      have unbound : world.bindings name = none := by
        rw [bound] at related
        generalize world.bindings name = binding at related
        cases related
        rfl
      rw [evaluateSymbol_unbound bound, Reference.evaluateSymbol, unbound]
      exact recover_refines orderly represents rfl

section Calls

variable
  (follows : inner.Follows capacity limit)
  (safe : inner.Safe IsBuiltin)
  (settling : Settling library IsBuiltin inner)

include follows safe settling

/-- A call refines the operation that the reference performs, and recovers as it does. -/
theorem call_refines
    (orderly : machine.Orderly IsBuiltin)
    (represents : Represents capacity machine world)
    {callee : Handle}
    {builtin : Builtin}
    {operands below : List Handle}
    (entries : machine.stack.entries = operands ++ below)
    (calleeUnfolds : machine.heap.Unfolds callee (.builtin builtin))
    {expressions values : List Tree}
    (allUnfold : List.Forall₂ machine.heap.Unfolds operands values.reverse)
    (raw : builtin.evaluatesOperands = false → values = expressions)
    (low : ∀ expression ∈ expressions, expression.height < limit) :
    (call library inner callee operands.length).Yields machine
      (RefinesValue capacity
        (Reference.recovering
          (Reference.perform builtin (expressions.map .ofExpression) values world))) := by
  obtain ⟨object, found⟩ := calleeUnfolds.exists_object
  have isCallable : object.callable? = some builtin.callable := by
    rcases calleeUnfolds.callable_cases found with ⟨_, notBuiltin⟩ | ⟨operation, same, isCallable⟩
    · exact absurd rfl (notBuiltin builtin)
    · cases same
      exact isCallable
  have known : IsBuiltin (.builtin builtin) :=
    ⟨builtin, rfl⟩
  have settles := settling.of_entries known orderly entries
  have performs :=
    (builtin.procedure_refines follows safe orderly represents entries allUnfold raw
      low).and_ensures settles
  refine .of_eq (call_callable operands.length found isCallable) (.tryCatch performs ?_ ?_)
  · intro value after holds
    rcases holds with ⟨failed | ⟨isMatch, representsAfter⟩, _⟩
    · cases failed
    · generalize Reference.perform builtin (expressions.map .ofExpression) values world = reference
        at isMatch representsAfter ⊢
      obtain ⟨outcome, worldAfter⟩ := reference
      cases isMatch with
      | value unfolds =>
          exact .inr ⟨.value unfolds, representsAfter⟩
  · intro error after holds
    rcases holds with ⟨failed | ⟨isMatch, representsAfter⟩, settled⟩
    · cases failed
      refine .lift ?_
      rw [recover_fatal rfl]
      exact .inl rfl
    · generalize Reference.perform builtin (expressions.map .ofExpression) values world = reference
        at isMatch representsAfter ⊢
      obtain ⟨outcome, worldAfter⟩ := reference
      cases isMatch with
      | error recoverable =>
          exact .lift (recover_refines settled.orderly representsAfter recoverable)

/-- After the walk along its operands a call does what the reference does with them. -/
theorem concludeWalk_refines
    (orderly : machine.Orderly IsBuiltin)
    (represents : Represents capacity machine world)
    {callee : Handle}
    {builtin : Builtin}
    {operands below : List Handle}
    (entries : machine.stack.entries = operands ++ callee :: below)
    (calleeUnfolds : machine.heap.Unfolds callee (.builtin builtin))
    {expressions values : List Tree}
    (allUnfold : List.Forall₂ machine.heap.Unfolds operands values.reverse)
    (raw : builtin.evaluatesOperands = false → values = expressions)
    (low : ∀ expression ∈ expressions, expression.height < limit)
    (isProper : Bool) :
    (concludeWalk library inner callee
        (if isProper then .complete operands.length else .malformed operands.length)).Yields machine
      (RefinesValue capacity
        (if isProper then
          Reference.recovering
            (Reference.perform builtin (expressions.map .ofExpression) values world)
        else
          world.recover .malformedList)) := by
  cases isProper with
  | true =>
      have occupied : machine.heap.isOccupied callee = true :=
        orderly.entriesOccupied callee (by simp [entries])
      have calls :=
        (call_refines follows safe settling orderly represents entries calleeUnfolds allUnfold raw
          low).and_ensures (call_answers settling orderly entries occupied)
      refine .bind calls ?_ ?_
      · intro value after holds
        obtain ⟨refines, answers⟩ := holds
        obtain ⟨valueUnfolds, representsAfter⟩ := refines.unfolds
        refine .bind_lift (pop_cons (answers.value value rfl).1) (.pure ?_)
        exact .inr ⟨.value valueUnfolds, representsAfter.withEntries below⟩
      · intro error after holds
        obtain ⟨refines, _⟩ := holds
        exact .inl (congrArg Except.error refines.outOfMemory)
  | false =>
      have popped : (machine.withEntries below).Orderly IsBuiltin := by
        refine orderly.withFewerEntries fun handle member => ?_
        simp [entries, member]
      exact .of_answer (concludeWalk_malformed entries)
        (recover_refines popped (represents.withEntries below) rfl)

/-- A call whose callee is on the stack gathers its operands and does what the reference does. -/
theorem operandsAndCall_refines
    (orderly : machine.Orderly IsBuiltin)
    (represents : Represents capacity machine world)
    {builtin : Builtin}
    {head chainHandle : Handle}
    {chain : Tree}
    {below : List Handle}
    (entries : machine.stack.entries = head :: below)
    (headUnfolds : machine.heap.Unfolds head (.builtin builtin))
    (reached : machine.heap.Reaches machine.stack.entries chainHandle)
    (chainUnfolds : machine.heap.Unfolds chainHandle chain)
    (low : chain.height < limit) :
    (inner.pushOperands builtin.evaluatesOperands limit chainHandle 0 >>=
        concludeWalk library inner head).Yields machine
      (RefinesValue capacity
        (Reference.call builtin (Reference.operands chain) chain.isProper world)) := by
  have headReached : machine.heap.Reaches machine.stack.entries head :=
    orderly.toWellFormed.reaches_entry (by simp [entries])
  have walks :=
    (pushOperands_refines follows safe builtin.evaluatesOperands limit 0 orderly represents
      reached chainUnfolds low low).and_ensures
      (pushOperands_gathers safe builtin.evaluatesOperands limit 0 orderly reached)
  rw [Reference.call]
  rw [Reference.operands_eq] at walks ⊢
  apply Run.Yields.bind walks
  · intro walk gathered holds
    rcases holds with
      ⟨failed | ⟨operands, operandEntries, allUnfold, walked, representsAfter⟩, gathers⟩
    · cases failed
    · cases walked
      rw [Nat.zero_add]
      rw [entries] at operandEntries
      refine concludeWalk_refines follows safe settling gathers.orderly representsAfter
        operandEntries (headUnfolds.of_keeps gathers.keeps headReached) allUnfold ?_ ?_
        chain.isProper
      · intro raw
        rw [raw, Reference.gather_expressions]
      · intro expression member
        exact Nat.lt_trans (Tree.height_lt_of_mem_items member) low
  · intro error gathered holds
    rcases holds with ⟨failed | ⟨_, _, _, walked, _⟩, _⟩
    · cases failed
      exact .inl rfl
    · cases walked

theorem evaluatePair_refines
    (orderly : machine.Orderly IsBuiltin)
    (represents : Represents capacity machine world)
    {pair carHandle cdrHandle : Handle}
    {car cdr : Tree}
    (found : machine.heap.get? pair = some (.pair carHandle cdrHandle))
    (reached : machine.heap.Reaches machine.stack.entries pair)
    (carUnfolds : machine.heap.Unfolds carHandle car)
    (cdrUnfolds : machine.heap.Unfolds cdrHandle cdr)
    (carLow : car.height < limit)
    (cdrLow : cdr.height < limit) :
    (evaluatePair library inner limit pair carHandle cdrHandle).Yields machine
      (RefinesValue capacity (Reference.evaluate (.pair car cdr) world)) := by
  obtain ⟨carReached, cdrReached⟩ := orderly.closed.reaches_parts reached found
  rw [evaluatePair_eq]
  apply follows.bind safe orderly represents carReached carUnfolds carLow
  intro head between headUnfolds representsBetween answers
  have occupied := (answers.value head rfl).2
  obtain ⟨object, headFound⟩ := headUnfolds.exists_object
  rcases headUnfolds.callable_cases headFound with
    ⟨notCallable, notBuiltin⟩ | ⟨builtin, isBuiltin, isCallable⟩
  · have pairStill :=
      (Heap.Unfolds.pair found carUnfolds cdrUnfolds).of_keeps answers.keeps reached
    rw [Reference.evaluate_self notBuiltin]
    apply Run.Yields.of_answer (concludeHead_self limit pair cdrHandle headFound notCallable)
    exact .inr ⟨.value pairStill, representsBetween⟩
  · rw [isBuiltin] at headUnfolds
    rw [Reference.evaluate_call isBuiltin]
    apply Run.Yields.of_eq (concludeHead_call limit pair cdrHandle headFound isCallable)
    exact operandsAndCall_refines follows safe settling (answers.orderly.push occupied)
      (representsBetween.withEntries _) rfl headUnfolds (answers.reaches_above cdrReached)
      (cdrUnfolds.of_keeps answers.keeps cdrReached) cdrLow

/-- One more level of the interpreter refines the reference on trees that are higher by one. -/
theorem evaluateObject_refines
    (orderly : machine.Orderly IsBuiltin)
    (represents : Represents capacity machine world)
    {expression : Handle}
    {tree : Tree}
    (reached : machine.heap.Reaches machine.stack.entries expression)
    (unfolds : machine.heap.Unfolds expression tree)
    (low : tree.height < limit + 1) :
    (evaluateObject library inner limit expression).Yields machine
      (RefinesValue capacity (Reference.evaluate tree world)) := by
  obtain ⟨object, found⟩ := unfolds.exists_object
  have recorded := orderly.record (.evaluating expression)
  have still : Represents capacity (machine.record (.evaluating expression)) world :=
    ⟨represents.capacity, represents.bindings, represents.diagnostics,
      represents.eagerDefinitions⟩
  have stepped := @evaluateObject_eq library inner machine limit expression object found
  rcases unfolds.cases_found found with
    stored | ⟨carHandle, cdrHandle, car, cdr, rfl, rfl, carUnfolds, cdrUnfolds⟩
  · cases tree with
    | symbol name =>
        cases stored
        exact .of_answer stepped (evaluateSymbol_refines recorded still name)
    | pair car cdr =>
        simp [Tree.leafObject?] at stored
    | nil | void | integer | boolean =>
        cases stored
        exact .of_answer stepped (.inr ⟨.value unfolds, still⟩)
    | builtin operation =>
        cases stored
        cases operation <;> exact .of_answer stepped (.inr ⟨.value unfolds, still⟩)
  · simp only [Tree.height] at low
    exact .of_eq stepped (evaluatePair_refines follows safe settling recorded still found reached
      carUnfolds cdrUnfolds (by omega) (by omega))

end Calls

end Evaluator

namespace Machine

/-- The interpreter refines the reference on expressions whose height is below its limit. -/
theorem evaluator_follows
    (library : Library)
    (capacity limit : Nat) :
    (evaluator library limit).Follows capacity limit := by
  have disciplined := disciplined_builtins library
  induction limit with
  | zero =>
      intro machine world expression tree _ _ _ _ low
      exact absurd low (Nat.not_lt_zero _)
  | succ limit inductionHypothesis =>
      intro machine world expression tree orderly represents reached unfolds low
      exact Evaluator.evaluateObject_refines inductionHypothesis (evaluator_safe disciplined limit)
        (disciplined limit) orderly represents reached unfolds low

end Machine

end ArenaLisp
