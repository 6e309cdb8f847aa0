import ArenaLisp.Proofs.Creation
import ArenaLisp.Proofs.Reference.Evaluation
import ArenaLisp.Proofs.Reading.Building
import ArenaLisp.Proofs.Reference.Representation

namespace ArenaLisp

/-!
# Sessions refine the reference

A fresh machine represents the world in which the builtin operations are bound.
From there each expression of a text is read and evaluated as the reference does it,
until the text ends, an expression cannot be read, or memory runs out.
-/

namespace Machine

variable
  {capacity : Nat}
  {machine : Machine}
  {world : World}

theorem installAll_refines
    {builtins : List Builtin}
    {after : Machine}
    (orderly : machine.Orderly IsBuiltin)
    (represents : Represents capacity machine world)
    (installed : installAll builtins machine = (.ok (), after)) :
    after.Orderly IsBuiltin ∧
      Represents capacity after
        (builtins.foldl (fun world builtin => world.define builtin.name (.builtin builtin))
          world) := by
  induction builtins generalizing machine world with
  | nil =>
      cases installed
      exact ⟨orderly, represents⟩
  | cons builtin rest inductionHypothesis =>
      rw [installAll_cons, Transition.bind_apply] at installed
      rcases @install_cases IsBuiltin machine orderly builtin.callable ⟨builtin, rfl⟩ with
        ⟨failed, _⟩ | ⟨handle, placed, succeeded, isPlaced, _, placedOrderly, _⟩
      · rw [failed] at installed
        cases installed
      · rw [succeeded] at installed
        have wellFormed := orderly.toWellFormed
        have still := represents.of_sameSurroundings wellFormed
          (isPlaced.sameSurroundings wellFormed.consistent.toCounted)
        have unfolds : placed.heap.Unfolds handle (.builtin builtin) :=
          .leaf isPlaced.found rfl
        exact inductionHypothesis
          (placedOrderly.binding builtin.name (Heap.isOccupied_of_get? isPlaced.found))
          (still.binding builtin.name unfolds) installed

theorem create_represents
    {configuration : Configuration}
    (capacityBound : configuration.capacity ≤ Handle.bound)
    (created : create configuration = .ok machine) :
    machine.Orderly IsBuiltin ∧
      Represents (max configuration.capacity 1) machine
        (World.initial configuration.eagerDefinitions) := by
  have blankRepresents :
      Represents (max configuration.capacity 1)
        (blank configuration.capacity configuration.initialThreshold
          configuration.eagerDefinitions)
        { bindings := fun _ => none
          diagnostics := []
          eagerDefinitions := configuration.eagerDefinitions } :=
    ⟨Heap.capacity_create _ _, fun _ => .none, rfl, rfl⟩
  exact installAll_refines (blank_orderly capacityBound _ _) blankRepresents
    (installAll_of_create created)

theorem evaluateTopLevel_refines
    (library : Library)
    {limit : Nat}
    (enough : capacity ≤ limit)
    (orderly : machine.Orderly IsBuiltin)
    (represents : Represents capacity machine world)
    {expression : Handle}
    {tree : Tree}
    (unfolds : machine.heap.Unfolds expression tree) :
    (evaluateTopLevel (evaluator library limit) expression).Yields machine fun result after =>
      RefinesValue capacity (Reference.evaluate tree world) result after ∧
        Answers IsBuiltin machine.heap machine.stack.entries result after := by
  have disciplined := disciplined_builtins library
  have safe := evaluator_safe disciplined limit
  obtain ⟨object, found⟩ := unfolds.exists_object
  have occupied := Heap.isOccupied_of_get? found
  have pushed := orderly.push occupied
  have reached := pushed.toWellFormed.reaches_entry List.mem_cons_self
  have low : tree.height < limit := by
    have belowCapacity := unfolds.height_lt_capacity
    rw [represents.capacity] at belowCapacity
    omega
  have evaluates :
      (evaluateTopLevel (evaluator library limit) expression).Yields machine
        (RefinesValue capacity (Reference.evaluate tree world)) := by
    refine .of_eq (evaluateTopLevel_eq _ expression machine) ?_
    apply (evaluator_follows library capacity limit).bind safe pushed (represents.withEntries _)
      reached unfolds low
    intro value after valueUnfolds representsAfter answers
    apply Run.Yields.of_answer
      (concludeTopLevel_balanced value (answers.value value rfl).1 rfl)
    exact .inr ⟨.value valueUnfolds, representsAfter.withEntries _⟩
  exact evaluates.and_ensures (evaluateTopLevel_answers safe orderly occupied)

/-- The result of a text against the result of the reference. -/
def RefinesTexts
    (capacity : Nat)
    (reference : Except ReadFault (List String) × World)
    (result : Except Error (List String))
    (after : Machine) :
    Prop :=
  result = .error .outOfMemory ∨
    result = reference.1.mapError .unreadable ∧ Represents capacity after reference.2

/-- The text of the first value goes in front of those of the rest, unless these fail. -/
theorem concludeFirst_refines
    {evaluator : Evaluator}
    {rest : Reader}
    {others : Except ReadFault (List String) × World}
    (rests : (evaluateRest evaluator rest).Yields machine (RefinesTexts capacity others))
    {value : Handle}
    {text : String}
    (sameText : machine.heap.render value = text) :
    (concludeFirst evaluator rest value).Yields machine
      (RefinesTexts capacity (Reference.inFront text others)) := by
  obtain ⟨reference, worldAfter⟩ := others
  apply Run.Yields.of_eq (concludeFirst_eq evaluator rest value machine)
  apply Run.Yields.bind rests
  · intro texts final refines
    rcases refines with failed | ⟨isResult, representsFinal⟩
    · cases failed
    · cases reference with
      | ok others =>
          cases isResult
          rw [sameText]
          exact .pure (.inr ⟨rfl, representsFinal⟩)
      | error fault =>
          cases isResult
  · intro error final refines
    rcases refines with failed | ⟨isResult, representsFinal⟩
    · cases failed
      exact .inl rfl
    · cases reference with
      | ok others =>
          cases isResult
      | error fault =>
          cases isResult
          exact .inr ⟨rfl, representsFinal⟩

theorem evaluateRest_refines
    (library : Library)
    {limit : Nat}
    (enough : capacity ≤ limit)
    {reader : Reader}
    (orderly : machine.Orderly IsBuiltin)
    (represents : Represents capacity machine world) :
    (evaluateRest (evaluator library limit) reader).Yields machine
      (RefinesTexts capacity (Reference.run reader.text world)) := by
  induction size : reader.text.length using Nat.strongRecOn
    generalizing reader machine world with
  | ind size inductionHypothesis =>
      subst size
      obtain ⟨holds, delivers⟩ := Reader.read_delivers orderly reader
      have representsAfter :=
        represents.of_sameSurroundings orderly.toWellFormed
          (holds.allocates.sameSurroundings orderly.tame)
      have orderlyAfter := holds.orderly
      generalize isNext : Reference.readNext reader.text = next at delivers
      generalize answered : reader.read machine = answer at delivers representsAfter orderlyAfter
      obtain ⟨given, after⟩ := answer
      cases delivers with
      | exhausted =>
          exact .of_answer (evaluateRest_unreadable answered) (.inl rfl)
      | atEnd =>
          refine .of_answer (evaluateRest_done answered) ?_
          rw [Reference.run_done (Reference.skip_of_readNext isNext)]
          exact .inr ⟨rfl, representsAfter⟩
      | unreadable fault rest =>
          obtain ⟨notEmpty, isRead⟩ := Reference.readOn_of_readNext_error isNext
          refine .of_answer (evaluateRest_unreadable answered) ?_
          rw [Reference.run_unreadable notEmpty isRead]
          exact .inr ⟨rfl, representsAfter⟩
      | @object tree rest handle unfolds =>
          obtain ⟨notEmpty, isRead⟩ := Reference.readOn_of_readNext_some isNext
          refine .of_eq (evaluateRest_expression answered) ?_
          rw [Reference.run_expression notEmpty isRead]
          have shorter : rest.length < reader.text.length :=
            Reader.length_lt_of_read answered
          apply Run.Yields.bind
            (evaluateTopLevel_refines library enough orderlyAfter representsAfter unfolds)
          · intro value between holdsBetween
            obtain ⟨refines, answers⟩ := holdsBetween
            obtain ⟨valueUnfolds, representsBetween⟩ := refines.unfolds
            have rests :=
              @inductionHypothesis _ shorter _ _ ⟨rest⟩ answers.orderly representsBetween rfl
            exact concludeFirst_refines rests valueUnfolds.render_eq
          · intro error final holdsBetween
            exact .inl (congrArg Except.error holdsBetween.1.outOfMemory)

/--
The interpreter refines the reference.  On a fresh machine of any size, with any
threshold, every text has an answer.  Unless memory runs out it is the one that the
reference gives: the texts of the values in order, or the fault of the first
expression that cannot be read.  The diagnostics are then the newest ones of the
reference, and the same names are bound, each to a handle that unfolds into its tree.
-/
theorem evaluateText_refines
    (library : Library)
    {configuration : Configuration}
    (capacityBound : configuration.capacity ≤ Handle.bound)
    (created : create configuration = .ok machine)
    (text : String)
    {limit : Nat}
    (enough : machine.nestingLimit ≤ limit) :
    ∃ result after,
      evaluateText (evaluator library limit) text machine = some (result, after) ∧
        (result = .error .outOfMemory ∨
          let reference :=
            Reference.run text.toList (World.initial configuration.eagerDefinitions)
          result = reference.1.mapError .unreadable ∧
            after.takeDiagnostics.1 = recent reference.2.diagnostics ∧
            ∀ name,
              Option.Rel after.heap.Unfolds (after.environment.get? name)
                (reference.2.bindings name)) := by
  obtain ⟨orderly, represents⟩ := create_represents capacityBound created
  have enoughSlots : max configuration.capacity 1 ≤ limit := by
    rw [← represents.capacity]
    exact Nat.le_of_succ_le enough
  obtain ⟨result, after, answered, refines⟩ :=
    @evaluateRest_refines _ _ _ library _ enoughSlots (Reader.ofString text) orderly represents
  refine ⟨result, after, answered, ?_⟩
  rcases refines with failed | ⟨isResult, representsAfter⟩
  · exact .inl failed
  · exact .inr ⟨isResult, representsAfter.diagnostics, representsAfter.bindings⟩

/-- A configuration with room for the builtin operations and a few more objects. -/
def cramped : Configuration where
  capacity := 16
  initialThreshold := 12
  eagerDefinitions := true

theorem exists_create_cramped : ∃ machine, create cramped = .ok machine := by
  have succeeds : (create cramped).isOk = true := by
    decide +kernel
  cases created : create cramped with
  | ok machine =>
      exact ⟨machine, rfl⟩
  | error error =>
      rw [created] at succeeds
      cases succeeds

theorem evaluateText_refines_cramped :
    ∃ machine,
      cramped.capacity ≤ Handle.bound ∧
        create cramped = .ok machine ∧
        machine.nestingLimit ≤ 17 ∧
        ∃ result after,
          evaluateText (evaluator Library.empty 17) "x" machine = some (result, after) ∧
            (result = .error .outOfMemory ∨
              result = .ok [""] ∧ after.takeDiagnostics.1 = [.unboundVariable "x"]) := by
  have isRead : Reference.readOn [] ['x'] = .ok (.symbol "x", []) := by
    have found : Token.next? ['x'] = some (.word ['x'], []) :=
      rfl
    rw [Reference.readOn_some found]
    rfl
  have reference :
      Reference.run "x".toList (World.initial true) =
        (.ok [""], ((World.initial true).recover (.unboundVariable "x")).2) := by
    have skipped : Token.skip "x".toList = ['x'] :=
      rfl
    rw [Reference.run_expression (by rw [skipped]; simp) (by rw [skipped]; exact isRead),
      Reference.run_done rfl]
    rfl
  obtain ⟨machine, created⟩ := exists_create_cramped
  have bounded : cramped.capacity ≤ Handle.bound := by
    decide
  have nesting : machine.nestingLimit ≤ 17 := by
    have sameCapacity := (create_represents bounded created).2.capacity
    rw [nestingLimit, sameCapacity]
    decide
  refine ⟨machine, bounded, created, nesting, ?_⟩
  obtain ⟨result, after, answered, refines⟩ :=
    evaluateText_refines Library.empty bounded created "x" nesting
  refine ⟨result, after, answered, refines.imp_right ?_⟩
  rintro ⟨isResult, isDiagnostics, _⟩
  have isEager : cramped.eagerDefinitions = true :=
    rfl
  rw [isEager, reference] at isResult isDiagnostics
  exact ⟨isResult, isDiagnostics⟩

end Machine

end ArenaLisp
