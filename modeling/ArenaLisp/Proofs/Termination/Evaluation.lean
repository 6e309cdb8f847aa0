import ArenaLisp.Proofs.EvaluationSafety
import ArenaLisp.Proofs.NestingLimit
import ArenaLisp.Proofs.Termination.Expansion
import ArenaLisp.Proofs.Termination.Visits

namespace ArenaLisp

/-!
# Evaluation ends on acyclic expressions

Only parts of the expression are ever evaluated, each of them at most once, and never
what comes out as a value.  So the tree of the expression at the start bounds the
evaluation, whatever is bound, placed or collected on the way: the tree stays in place
because it is reached from the stack until its last part has been evaluated.
-/

open Machine

/-- An interpreter that ends on all expressions of a bounded height, part by part. -/
def Evaluator.Finishes (bound : Nat) (evaluator : Evaluator) : Prop :=
  ∀ (machine : Machine) (expansion : Expansion),
    machine.Orderly IsBuiltin →
    machine.StandardCallables →
    machine.heap.Reaches machine.stack.entries expansion.root →
    expansion.LiesIn machine.heap →
    expansion.height ≤ bound →
    (evaluator.evaluate expansion.root).Yields machine fun _ after =>
      Visits expansion.nodes machine after

/-- What the evaluation of one expression gives to those who go on with its value. -/
theorem Evaluator.Finishes.and_safe
    {bound : Nat}
    {evaluator : Evaluator}
    (finishes : evaluator.Finishes bound)
    (safe : evaluator.Safe IsBuiltin)
    {machine : Machine}
    (orderly : machine.Orderly IsBuiltin)
    (standard : machine.StandardCallables)
    {expansion : Expansion}
    (reached : machine.heap.Reaches machine.stack.entries expansion.root)
    (lies : expansion.LiesIn machine.heap)
    (low : expansion.height ≤ bound) :
    (evaluator.evaluate expansion.root).Yields machine fun result after =>
      Visits expansion.nodes machine after ∧
        Answers IsBuiltin machine.heap machine.stack.entries result after :=
  (finishes machine expansion orderly standard reached lies low).and_ensures
    (safe machine expansion.root orderly reached)

variable
  {bound : Nat}
  {library : Library}
  {inner : Evaluator}
  {machine : Machine}
  {below : List Handle}

section

variable
  (finishes : inner.Finishes bound)
  (safe : inner.Safe IsBuiltin)
  (orderly : machine.Orderly IsBuiltin)
  (standard : machine.StandardCallables)

namespace Builtin

include finishes orderly standard

/-- One of the two branches is evaluated, whichever it is. -/
theorem concludeConditional_visits
    {consequent otherwise : Expansion}
    {condition outcome : Handle}
    (entries :
      machine.stack.entries = [otherwise.root, consequent.root, condition] ++ below)
    (occupied : machine.heap.isOccupied outcome = true)
    (consequentLies : consequent.LiesIn machine.heap)
    (otherwiseLies : otherwise.LiesIn machine.heap)
    (consequentLow : consequent.height ≤ bound)
    (otherwiseLow : otherwise.height ≤ bound) :
    (concludeConditional inner consequent.root otherwise.root outcome).Yields machine
      fun _ after => Visits (consequent.nodes ++ otherwise.nodes) machine after := by
  obtain ⟨object, found⟩ := Heap.isOccupied_iff.mp occupied
  have evaluates
      {selected : Expansion}
      (member : selected.root ∈ machine.stack.entries)
      (lies : selected.LiesIn machine.heap)
      (low : selected.height ≤ bound)
      (isPart : selected.nodes.Sublist (consequent.nodes ++ otherwise.nodes)) :
      (inner.evaluate selected.root >>= fun value => do
          let _ ← Machine.discard 3
          return value : Run Handle).Yields machine fun _ after =>
        Visits (consequent.nodes ++ otherwise.nodes) machine after := by
    have reached := orderly.toWellFormed.reaches_entry member
    refine .bind (finishes machine selected orderly standard reached lies low) ?_ ?_
    · intro value after visits
      exact .keeping fun _ => (visits.mono isPart).discarded 3
    · intro error after visits
      exact visits.mono isPart
  refine .bind_lift (look_found found) ?_
  cases object.isTruthy with
  | true =>
      exact evaluates (by simp [entries]) consequentLies consequentLow
        (List.sublist_append_left _ _)
  | false =>
      exact evaluates (by simp [entries]) otherwiseLies otherwiseLow
        (List.sublist_append_right _ _)

include safe

theorem conditionalForm_visits
    {condition consequent otherwise : Expansion}
    (entries :
      machine.stack.entries = [otherwise.root, consequent.root, condition.root] ++ below)
    (lie : ∀ item ∈ [condition, consequent, otherwise], item.LiesIn machine.heap)
    (low : ∀ item ∈ [condition, consequent, otherwise], item.height ≤ bound) :
    (conditionalForm inner 3).Yields machine fun _ after =>
      Visits (condition.nodes ++ (consequent.nodes ++ otherwise.nodes)) machine after := by
  have reached
      {item : Expansion}
      (member : item ∈ [condition, consequent, otherwise]) :
      machine.heap.Reaches machine.stack.entries item.root := by
    refine orderly.toWellFormed.reaches_entry ?_
    rw [entries]
    simp only [List.mem_cons, List.not_mem_nil, or_false] at member
    rcases member with rfl | rfl | rfl <;> simp
  have evaluates :=
    finishes.and_safe safe orderly standard (reached List.mem_cons_self) (lie _ (by simp))
      (low _ (by simp))
  refine .of_eq (conditionalForm_eq inner entries) (.bind evaluates ?_ ?_)
  · intro outcome between holds
    obtain ⟨visits, answers⟩ := holds
    obtain ⟨sameEntries, occupied⟩ := answers.value outcome rfl
    -- The branches have been on the stack while the condition was evaluated.
    have still
        {item : Expansion}
        (member : item ∈ [condition, consequent, otherwise]) :
        item.LiesIn between.heap :=
      (lie item member).of_keeps answers.keeps (reached member)
    rw [entries] at sameEntries
    have concludes :=
      concludeConditional_visits finishes answers.orderly (visits.standard standard) sameEntries
        occupied (still (by simp)) (still (by simp)) (low _ (by simp)) (low _ (by simp))
    exact concludes.mono fun _ _ later => visits.trans later
  · intro error after holds
    exact holds.1.mono (List.sublist_append_left _ _)

theorem definitionForm_visits
    {name expression : Expansion}
    (entries : machine.stack.entries = [expression.root, name.root] ++ below)
    (nameLies : name.LiesIn machine.heap)
    (expressionLies : expression.LiesIn machine.heap)
    (expressionLow : expression.height ≤ bound) :
    (definitionForm inner 2).Yields machine fun _ after =>
      Visits expression.nodes machine after := by
  obtain ⟨nameObject, nameFound⟩ := nameLies.exists_object
  have consistent := orderly.consistent
  cases named : nameObject.symbolName with
  | error error =>
      refine .of_answer (definitionForm_unnamed inner entries nameFound named) ?_
      exact ((Visits.refl machine).withEntries below).mono (List.nil_sublist _)
  | ok symbol =>
      cases eager : machine.eagerDefinitions with
      | false =>
          refine .of_answer (definitionForm_lazy inner entries nameFound named eager) ?_
          exact (concludeDefinition_visits consistent symbol _ entries rfl).mono
            (List.nil_sublist _)
      | true =>
          have reached : machine.heap.Reaches machine.stack.entries expression.root :=
            orderly.toWellFormed.reaches_entry (by simp [entries])
          have evaluates :=
            finishes.and_safe safe orderly standard reached expressionLies expressionLow
          refine .of_eq (definitionForm_eager inner entries nameFound named eager)
            (.bind evaluates ?_ ?_)
          · intro value between holds
            obtain ⟨visits, answers⟩ := holds
            have sameEntries := (answers.value value rfl).1
            rw [entries] at sameEntries
            have concludes :=
              concludeDefinition_visits answers.orderly.consistent symbol value sameEntries rfl
            exact .lift ((visits.trans concludes).mono (by simp))
          · intro error after holds
            exact holds.1

/-- A special form evaluates some of its operands, the first ones first. -/
theorem form_visits
    {builtin : Builtin}
    (isForm : builtin.evaluatesOperands = false)
    {items : List Expansion}
    (entries : machine.stack.entries = (items.map Expansion.root).reverse ++ below)
    (lie : ∀ item ∈ items, item.LiesIn machine.heap)
    (low : ∀ item ∈ items, item.height ≤ bound) :
    (builtin.procedure inner items.length).Yields machine fun _ after =>
      Visits (items.flatMap Expansion.nodes) machine after := by
  have count : (items.map Expansion.root).reverse.length = items.length := by
    simp
  by_cases accepted : builtin.arity.Accepts items.length
  · cases builtin with
    | conditional =>
        obtain ⟨condition, consequent, otherwise, rfl⟩ :=
          List.length_eq_three.mp (accepted.exactly rfl)
        have concludes :=
          conditionalForm_visits finishes safe orderly standard entries lie low
        exact concludes.mono fun _ _ visits => visits.mono (by simp)
    | definition =>
        obtain ⟨name, expression, rfl⟩ := List.length_eq_two.mp (accepted.exactly rfl)
        have concludes :=
          definitionForm_visits finishes safe orderly standard entries (lie _ (by simp))
            (lie _ (by simp)) (low _ (by simp))
        exact concludes.mono fun _ _ visits => visits.mono (by simp)
    | _ =>
        cases isForm
  · have refused := procedure_unaccepted orderly entries (count ▸ accepted) inner
    rw [count] at refused
    refine .of_answer refused ?_
    exact ((Visits.refl machine).withEntries below).mono (List.nil_sublist _)

omit finishes safe standard in
/-- A strict operation evaluates nothing. -/
theorem strict_visits
    {builtin : Builtin}
    (strict : builtin.evaluatesOperands = true)
    {operands : List Handle}
    (entries : machine.stack.entries = operands ++ below)
    (inner : Evaluator) :
    (builtin.procedure inner operands.length).Yields machine fun _ after =>
      Visits [] machine after := by
  obtain ⟨objects, names⟩ := exists_operands orderly entries
  have popped : (machine.withEntries below).heap.Consistent :=
    orderly.consistent
  refine .of_answer (procedure_eq_finish entries names strict inner) ?_
  exact (finish_visits popped _).of_withEntries

end Builtin

namespace Evaluator

/-- A walk along operands that are not evaluated pushes them as they are. -/
theorem pushOperands_raw
    (inner : Evaluator)
    {chain : Expansion}
    (lies : chain.LiesIn machine.heap)
    {budget : Nat}
    (affordable : chain.height ≤ budget)
    (count : Nat) :
    ∃ walk,
      inner.pushOperands false budget chain.root count machine =
          some (.ok walk,
            machine.withEntries
              ((chain.items.map Expansion.root).reverse ++ machine.stack.entries)) ∧
        (walk = .complete (count + chain.items.length) ∨
          walk = .malformed (count + chain.items.length)) := by
  induction chain generalizing machine budget count with
  | leaf handle =>
      obtain ⟨cell, found, noPair⟩ := lies
      cases budget with
      | zero =>
          exact absurd affordable (Nat.not_succ_le_zero _)
      | succ budget =>
          exact ⟨_, pushOperands_end false budget count found noPair, walkEnd_counts cell count⟩
  | pair handle car cdr _ inductionHypothesis =>
      obtain ⟨found, carLies, cdrLies⟩ := lies
      cases budget with
      | zero =>
          exact absurd affordable (Nat.not_succ_le_zero _)
      | succ budget =>
          simp only [Expansion.height] at affordable
          let pushed := machine.withEntries (car.root :: machine.stack.entries)
          have cdrLiesStill : cdr.LiesIn pushed.heap :=
            cdrLies
          have affordableRest : cdr.height ≤ budget := by
            omega
          obtain ⟨walk, walked, counted⟩ :=
            inductionHypothesis cdrLiesStill affordableRest (count + 1)
          refine ⟨walk, ?_, ?_⟩
          · have goesOn :
                inner.pushOperands false (budget + 1) handle count machine =
                  inner.pushOperands false budget cdr.root (count + 1) pushed :=
              (pushOperands_pair false budget count found).trans (pushAndGoOn_eq ..)
            rw [Expansion.root, goesOn, walked]
            simp [Expansion.items, pushed, withEntries]
          · rw [Expansion.items, List.length_cons]
            rwa [Nat.add_assoc, Nat.add_comm 1] at counted

include finishes safe orderly standard

/-- A walk along operands that are evaluated evaluates one item after the other. -/
theorem pushOperands_visits
    {chain : Expansion}
    (reached : machine.heap.Reaches machine.stack.entries chain.root)
    (lies : chain.LiesIn machine.heap)
    (low : chain.height ≤ bound)
    {budget : Nat}
    (affordable : chain.height ≤ budget)
    (count : Nat) :
    (inner.pushOperands true budget chain.root count).Yields machine fun _ after =>
      Visits (chain.items.flatMap Expansion.nodes) machine after := by
  induction chain generalizing machine budget count with
  | leaf handle =>
      obtain ⟨cell, found, noPair⟩ := lies
      cases budget with
      | zero =>
          exact absurd affordable (Nat.not_succ_le_zero _)
      | succ budget =>
          exact .of_answer (pushOperands_end true budget count found noPair) (.refl machine)
  | pair handle car cdr _ inductionHypothesis =>
      obtain ⟨found, carLies, cdrLies⟩ := lies
      cases budget with
      | zero =>
          exact absurd affordable (Nat.not_succ_le_zero _)
      | succ budget =>
          simp only [Expansion.height] at affordable low
          have carLow : car.height ≤ bound := by
            omega
          have cdrLow : cdr.height ≤ bound := by
            omega
          have affordableRest : cdr.height ≤ budget := by
            omega
          obtain ⟨carReached, cdrReached⟩ := orderly.closed.reaches_parts reached found
          have evaluates := finishes.and_safe safe orderly standard carReached carLies carLow
          refine .of_eq (pushOperands_pair true budget count found) (.bind evaluates ?_ ?_)
          · intro operand between holds
            obtain ⟨visits, answers⟩ := holds
            have occupied := (answers.value operand rfl).2
            have goesOn :=
              inductionHypothesis (answers.orderly.push occupied) (visits.standard standard)
                (answers.reaches_above cdrReached)
                (cdrLies.of_keeps answers.keeps cdrReached) cdrLow affordableRest (count + 1)
            refine .of_eq (pushAndGoOn_eq ..) (goesOn.mono fun _ _ later => ?_)
            exact visits.trans later.of_withEntries
          · intro error after holds
            exact holds.1.mono (List.sublist_append_left _ _)

omit finishes standard in
/-- A call comes to no other expressions than the operation that it calls. -/
theorem call_visits
    (library : Library)
    {nodes : List Handle}
    {callee : Handle}
    {object : Object}
    {callable : Callable}
    {builtin : Builtin}
    {operands : List Handle}
    (found : machine.heap.get? callee = some object)
    (isCallable : object.callable? = some callable)
    (isOperation : callable.operation = .builtin builtin)
    (entries : machine.stack.entries = operands ++ below)
    (visits :
      (builtin.procedure inner operands.length).Yields machine fun _ after =>
        Visits nodes machine after) :
    (call library inner callee operands.length).Yields machine fun _ after =>
      Visits nodes machine after := by
  have enough : operands.length ≤ machine.stack.size := by
    simp [OperandStack.size, entries]
  have answered := visits.and_ensures (builtin.procedure_settles safe orderly enough)
  have sameOperation :
      callable.operation.procedure library inner operands.length =
        builtin.procedure inner operands.length := by
    rw [isOperation]
    rfl
  refine .of_eq (call_callable operands.length found isCallable) ?_
  rw [sameOperation]
  refine .tryCatch answered ?_ ?_
  · intro value after holds
    exact holds.1
  · intro error after holds
    obtain ⟨visited, settled⟩ := holds
    have recovers := recover_visits settled.orderly.consistent error
    exact .lift ((visited.trans recovers).mono (by simp))

omit finishes standard in
theorem concludeWalk_visits
    (library : Library)
    {nodes : List Handle}
    {callee : Handle}
    {object : Object}
    {callable : Callable}
    {builtin : Builtin}
    {operands : List Handle}
    {walk : OperandWalk}
    (found : machine.heap.get? callee = some object)
    (isCallable : object.callable? = some callable)
    (isOperation : callable.operation = .builtin builtin)
    (entries : machine.stack.entries = operands ++ callee :: below)
    (counted : walk = .complete operands.length ∨ walk = .malformed operands.length)
    (visits :
      (builtin.procedure inner operands.length).Yields machine fun _ after =>
        Visits nodes machine after) :
    (concludeWalk library inner callee walk).Yields machine fun _ after =>
      Visits nodes machine after := by
  rcases counted with rfl | rfl
  · have calls := call_visits safe orderly library found isCallable isOperation entries visits
    refine .bind calls ?_ fun _ _ visited => visited
    intro value after visited
    exact .keeping fun _ => visited.popped
  · have popped : (machine.withEntries below).heap.Consistent :=
      orderly.consistent
    refine .of_answer (concludeWalk_malformed entries) ?_
    exact (recover_visits popped _).of_withEntries.mono (List.nil_sublist _)

/-- The items of a strict call are evaluated before the operation runs. -/
theorem strictCall_visits
    (library : Library)
    {callee : Handle}
    {object : Object}
    {callable : Callable}
    {builtin : Builtin}
    {chain : Expansion}
    (found : machine.heap.get? callee = some object)
    (isCallable : object.callable? = some callable)
    (isOperation : callable.operation = .builtin builtin)
    (strict : builtin.evaluatesOperands = true)
    (entries : machine.stack.entries = callee :: below)
    (reached : machine.heap.Reaches machine.stack.entries chain.root)
    (lies : chain.LiesIn machine.heap)
    (low : chain.height ≤ bound) :
    (inner.pushOperands true bound chain.root 0 >>=
        concludeWalk library inner callee).Yields machine fun _ after =>
      Visits (chain.items.flatMap Expansion.nodes) machine after := by
  have calleeReached : machine.heap.Reaches machine.stack.entries callee :=
    orderly.toWellFormed.reaches_entry (by simp [entries])
  have walks :=
    (pushOperands_visits finishes safe orderly standard reached lies low low 0).and_ensures
      (pushOperands_gathers safe true bound 0 orderly reached)
  refine .bind walks ?_ fun _ _ holds => holds.1
  intro walk between holds
  obtain ⟨visited, gathered⟩ := holds
  obtain ⟨operands, operandEntries, counted⟩ := gathered.walked walk rfl
  rw [entries] at operandEntries
  rw [Nat.zero_add] at counted
  have stillFound := (gathered.keeps callee calleeReached).trans found
  have answers := Builtin.strict_visits gathered.orderly strict operandEntries inner
  have concludes :=
    concludeWalk_visits safe gathered.orderly library stillFound isCallable isOperation
      operandEntries counted answers
  exact concludes.mono fun _ _ later => (visited.trans later).mono (by simp)

/-- The items of a special form are operands as they are, and it evaluates some of them. -/
theorem formCall_visits
    (library : Library)
    {callee : Handle}
    {object : Object}
    {callable : Callable}
    {builtin : Builtin}
    {chain : Expansion}
    (found : machine.heap.get? callee = some object)
    (isCallable : object.callable? = some callable)
    (isOperation : callable.operation = .builtin builtin)
    (isForm : builtin.evaluatesOperands = false)
    (entries : machine.stack.entries = callee :: below)
    (reached : machine.heap.Reaches machine.stack.entries chain.root)
    (lies : chain.LiesIn machine.heap)
    (low : chain.height ≤ bound) :
    (inner.pushOperands false bound chain.root 0 >>=
        concludeWalk library inner callee).Yields machine fun _ after =>
      Visits (chain.items.flatMap Expansion.nodes) machine after := by
  obtain ⟨walk, walked, counted⟩ := pushOperands_raw inner lies low 0
  have gathered := pushOperands_gathers safe false bound 0 orderly reached _ _ walked
  let operands := (chain.items.map Expansion.root).reverse
  have operandCount : operands.length = chain.items.length := by
    simp [operands]
  have operandEntries :
      (machine.withEntries (operands ++ machine.stack.entries)).stack.entries =
        operands ++ callee :: below := by
    rw [← entries]
    rfl
  have lowItems : ∀ item ∈ chain.items, item.height ≤ bound :=
    fun item member => (Expansion.height_lt_of_mem_items member).le.trans low
  have answers :=
    Builtin.form_visits finishes safe gathered.orderly standard isForm operandEntries
      (fun item member => lies.item member) lowItems
  rw [Nat.zero_add, ← operandCount] at counted
  rw [← operandCount] at answers
  have concludes :=
    concludeWalk_visits safe gathered.orderly library found isCallable isOperation
      operandEntries counted answers
  refine .of_eq ?_ (concludes.mono fun _ _ later => later.of_withEntries)
  rw [Run.bind_apply, walked]

/-- The items of the operand chain are evaluated on the way to the operation or by it. -/
theorem operandsAndCall_visits
    (library : Library)
    {callee : Handle}
    {object : Object}
    {callable : Callable}
    {chain : Expansion}
    (found : machine.heap.get? callee = some object)
    (isCallable : object.callable? = some callable)
    (entries : machine.stack.entries = callee :: below)
    (reached : machine.heap.Reaches machine.stack.entries chain.root)
    (lies : chain.LiesIn machine.heap)
    (low : chain.height ≤ bound) :
    (inner.pushOperands callable.evaluatesOperands bound chain.root 0 >>=
        concludeWalk library inner callee).Yields machine fun _ after =>
      Visits (chain.items.flatMap Expansion.nodes) machine after := by
  obtain ⟨builtin, isOperation, kind⟩ := standard callee object callable found isCallable
  rw [kind]
  cases evaluatesOperands : builtin.evaluatesOperands with
  | true =>
      exact strictCall_visits finishes safe orderly standard library found isCallable isOperation
        evaluatesOperands entries reached lies low
  | false =>
      exact formCall_visits finishes safe orderly standard library found isCallable isOperation
        evaluatesOperands entries reached lies low

theorem evaluatePair_visits
    {pair : Handle}
    {car cdr : Expansion}
    (found : machine.heap.get? pair = some (.pair car.root cdr.root))
    (reached : machine.heap.Reaches machine.stack.entries pair)
    (carLies : car.LiesIn machine.heap)
    (cdrLies : cdr.LiesIn machine.heap)
    (carLow : car.height ≤ bound)
    (cdrLow : cdr.height ≤ bound) :
    (evaluatePair library inner bound pair car.root cdr.root).Yields machine fun _ after =>
      Visits (car.nodes ++ cdr.nodes) machine after := by
  obtain ⟨carReached, cdrReached⟩ := orderly.closed.reaches_parts reached found
  have evaluates := finishes.and_safe safe orderly standard carReached carLies carLow
  rw [evaluatePair_eq]
  refine .bind evaluates ?_ ?_
  · intro head between holds
    obtain ⟨visits, answers⟩ := holds
    have occupied := (answers.value head rfl).2
    obtain ⟨object, headFound⟩ := Heap.isOccupied_iff.mp occupied
    cases isCallable : object.callable? with
    | none =>
        refine .of_answer (concludeHead_self bound pair cdr.root headFound isCallable) ?_
        exact visits.mono (List.sublist_append_left _ _)
    | some callable =>
        let pushed := between.withEntries (head :: between.stack.entries)
        have foundAbove : pushed.heap.get? head = some object :=
          headFound
        have cdrLiesStill : cdr.LiesIn pushed.heap :=
          cdrLies.of_keeps answers.keeps cdrReached
        have calls :=
          operandsAndCall_visits finishes safe (answers.orderly.push occupied)
            (visits.standard standard) library foundAbove isCallable rfl
            (answers.reaches_above cdrReached) cdrLiesStill cdrLow
        refine .of_eq (concludeHead_call bound pair cdr.root headFound isCallable) ?_
        refine calls.mono fun _ _ later => ?_
        exact (visits.trans later.of_withEntries).mono
          (cdr.nodes_items.append_left car.nodes)
  · intro error after holds
    exact holds.1.mono (List.sublist_append_left _ _)

/-- One level of the interpreter ends on expressions one level higher. -/
theorem evaluateObject_visits
    {expansion : Expansion}
    (reached : machine.heap.Reaches machine.stack.entries expansion.root)
    (lies : expansion.LiesIn machine.heap)
    (low : expansion.height ≤ bound + 1) :
    (evaluateObject library inner bound expansion.root).Yields machine fun _ after =>
      Visits expansion.nodes machine after := by
  have begins := Visits.evaluating machine expansion.root
  have recorded := orderly.record (.evaluating expansion.root)
  cases expansion with
  | leaf handle =>
      obtain ⟨object, found, noPair⟩ := lies
      have stepped := @evaluateObject_eq library inner machine bound handle object found
      cases object with
      | symbol name =>
          refine .of_answer stepped ?_
          exact begins.trans (evaluateSymbol_visits recorded.consistent name)
      | pair car cdr =>
          cases noPair
      | nil | void | integer | boolean | function | specialForm =>
          exact .of_answer stepped begins
  | pair handle car cdr =>
      obtain ⟨found, carLies, cdrLies⟩ := lies
      simp only [Expansion.height] at low
      have carLow : car.height ≤ bound := by
        omega
      have cdrLow : cdr.height ≤ bound := by
        omega
      have visits :=
        @evaluatePair_visits bound library inner _ finishes safe recorded standard handle car cdr
          found reached carLies cdrLies carLow cdrLow
      refine .of_eq (evaluateObject_eq bound found) (visits.mono fun _ _ later => ?_)
      exact begins.trans later

end Evaluator

end

namespace Machine

/-- The interpreter ends on the expressions that are no higher than its limit. -/
theorem evaluator_finishes
    (library : Library)
    (limit : Nat) :
    (evaluator library limit).Finishes limit := by
  induction limit with
  | zero =>
      intro machine expansion orderly standard reached lies low
      exact absurd low (Nat.not_le_of_gt expansion.height_positive)
  | succ limit inductionHypothesis =>
      intro machine expansion orderly standard reached lies low
      have safe := evaluator_safe (disciplined_builtins library) limit
      exact Evaluator.evaluateObject_visits inductionHypothesis safe orderly standard reached
        lies low

/-- At the top level the expression itself is pushed, so it only has to be in place. -/
theorem evaluateTopLevel_visits
    (library : Library)
    (orderly : machine.Orderly IsBuiltin)
    (standard : machine.StandardCallables)
    {expansion : Expansion}
    (lies : expansion.LiesIn machine.heap) :
    (evaluateTopLevel (evaluator library expansion.height) expansion.root).Yields machine
      fun _ after => Visits expansion.nodes machine after := by
  have pushed := orderly.push lies.isOccupied
  have reached := pushed.toWellFormed.reaches_entry List.mem_cons_self
  have safe := evaluator_safe (disciplined_builtins library) expansion.height
  have finishes := evaluator_finishes library expansion.height
  have evaluates := finishes.and_safe safe pushed standard reached lies le_rfl
  refine .of_eq (evaluateTopLevel_eq _ expansion.root machine) (.bind evaluates ?_ ?_)
  · intro value after holds
    obtain ⟨visits, answers⟩ := holds
    have entries := (answers.value value rfl).1
    refine .of_answer (concludeTopLevel_balanced value entries rfl) ?_
    exact visits.of_withEntries.withEntries _
  · intro error after holds
    exact holds.1.of_withEntries

/--
Evaluation ends on acyclic expressions, whatever cycles there are elsewhere.

Such an expression is unfolded to a single tree.  Any nesting limit is large enough that
is no less than the height of the tree, and all of them lead to the same answer.  On the
way to it an evaluation begins at most once for every node of the tree, in their order.
-/
theorem evaluation_terminates
    (library : Library)
    (wellFormed : machine.WellFormed)
    (standard : machine.StandardCallables)
    {expression : Handle}
    (occupied : machine.heap.isOccupied expression = true)
    (acyclic : machine.heap.Acyclic expression) :
    ∃ expansion : Expansion,
      expansion.root = expression ∧
        expansion.LiesIn machine.heap ∧
          ∃ result after events,
            (∀ limit ≥ expansion.height,
              evaluateTopLevel (evaluator library limit) expression machine =
                some (result, after)) ∧
              after.journal = events ++ machine.journal ∧
                (evaluated events).Sublist expansion.nodes := by
  obtain ⟨expansion, rfl, lies⟩ := acyclic.exists_expansion wellFormed.closed occupied
  have orderly : machine.Orderly IsBuiltin := ⟨wellFormed, standard.runsOnly⟩
  obtain ⟨result, after, answered, visits⟩ :=
    evaluateTopLevel_visits library orderly standard lies
  obtain ⟨events, journal, order⟩ := visits.journal
  refine ⟨expansion, rfl, lies, result, after, events, fun limit enough => ?_, journal, order⟩
  have extended := (evaluator_extendedBy library enough).evaluateTopLevel expansion.root
  exact extended.answered orderly.tame answered

/-- A full machine with the expression `(define define x)`, where `x` is a list without end. -/
def redefining : Machine where
  heap :=
    { slots :=
        #[some ⟨.specialForm "define" (.builtin .definition), false⟩,
          some ⟨.symbol "define", false⟩, some ⟨.symbol "x", false⟩, some ⟨.nil, false⟩,
          some ⟨.pair (Handle.ofIndex 2) (Handle.ofIndex 3), false⟩,
          some ⟨.pair (Handle.ofIndex 1) (Handle.ofIndex 4), false⟩,
          some ⟨.pair (Handle.ofIndex 1) (Handle.ofIndex 5), false⟩,
          some ⟨.pair (Handle.ofIndex 2) (Handle.ofIndex 7), false⟩,
          some ⟨.integer 0, false⟩]
      last := some 8
      live := 9
      initialThreshold := 1
      threshold := 9 }
  environment :=
    (Environment.empty.define "define" (Handle.ofIndex 0)).define "x" (Handle.ofIndex 7)
  stack := OperandStack.empty
  eagerDefinitions := true
  diagnostics := []
  collections := 0
  journal := []

theorem redefining_orderly : redefining.Orderly IsBuiltin :=
  .of_slots ⟨⟨by decide, by decide, by decide, by decide⟩, by decide, by decide⟩ (by decide)
    (by decide)

/-- The tree of `(define define x)`, in which the name occurs twice. -/
def redefinition : Expansion :=
  .pair (Handle.ofIndex 6) (.leaf (Handle.ofIndex 1))
    (.pair (Handle.ofIndex 5) (.leaf (Handle.ofIndex 1))
      (.pair (Handle.ofIndex 4) (.leaf (Handle.ofIndex 2)) (.leaf (Handle.ofIndex 3))))

theorem redefinition_liesIn : redefinition.LiesIn redefining.heap :=
  ⟨rfl, ⟨_, rfl, rfl⟩, rfl, ⟨_, rfl, rfl⟩, rfl, ⟨_, rfl, rfl⟩, _, rfl, rfl⟩

/-- The list without end is bound, never evaluated, and the void goes where nothing is needed. -/
theorem evaluation_terminates_redefining :
    redefining.WellFormed ∧
      redefining.StandardCallables ∧
      redefining.heap.Acyclic (Handle.ofIndex 6) ∧
      ∃ after events,
        (∀ limit ≥ 4,
          evaluateTopLevel (evaluator Library.empty limit) (Handle.ofIndex 6) redefining =
            some (.ok (Handle.ofIndex 8), after)) ∧
          after.environment.get? "define" = some (Handle.ofIndex 7) ∧
          after.collections = 1 ∧
          after.journal = events ∧
          (evaluated events).Sublist redefinition.nodes := by
  have wellFormed := redefining_orderly.toWellFormed
  have standard : redefining.StandardCallables := .of_slots (by decide)
  have acyclic := Heap.acyclic_of_liesIn redefinition_liesIn
  obtain ⟨expansion, isRoot, lies, result, after, events, answers, journal, order⟩ :=
    evaluation_terminates Library.empty wellFormed standard (by decide) acyclic
  obtain rfl := lies.unique redefinition_liesIn isRoot
  obtain ⟨final, ran, bound, collected⟩ :
      ∃ final,
        evaluateTopLevel (evaluator Library.empty 4) (Handle.ofIndex 6) redefining =
            some (.ok (Handle.ofIndex 8), final) ∧
          final.environment.get? "define" = some (Handle.ofIndex 7) ∧
          final.collections = 1 :=
    Run.exists_value_of_any (by decide +kernel)
  cases (answers 4 (by decide)).symm.trans ran
  exact ⟨wellFormed, standard, acyclic, _, events, answers, bound, collected,
    journal.trans (List.append_nil events), order⟩

end Machine

end ArenaLisp
