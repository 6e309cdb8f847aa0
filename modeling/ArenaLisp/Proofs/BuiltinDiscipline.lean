import ArenaLisp.Proofs.Arity
import ArenaLisp.Proofs.Discipline

namespace ArenaLisp

/-!
# Every builtin operation settles

The strict operations take their operands before anything is allocated.  The
special forms leave theirs on the stack while they evaluate some of them, so what
they evaluate is reached from there.
-/

namespace Builtin

open Machine

variable {operations : Operation → Prop} {machine : Machine}

/-- Occupied handles name some objects. -/
theorem exists_names
    {handles : List Handle}
    (occupied : ∀ handle ∈ handles, machine.heap.isOccupied handle = true) :
    ∃ objects, Names machine handles objects := by
  induction handles with
  | nil =>
      exact ⟨[], .nil⟩
  | cons handle rest inductionHypothesis =>
      obtain ⟨object, found⟩ := Heap.isOccupied_iff.mp (occupied handle (by simp))
      obtain ⟨objects, names⟩ :=
        inductionHypothesis fun later member => occupied later (List.mem_cons_of_mem _ member)
      exact ⟨object :: objects, .cons found names⟩

/-- The operands on the stack of an orderly machine name some objects. -/
theorem exists_operands
    (orderly : machine.Orderly operations)
    {taken below : List Handle}
    (entries : machine.stack.entries = taken ++ below) :
    ∃ operands, Names machine taken operands := by
  apply exists_names
  intro handle member
  apply orderly.entriesOccupied
  rw [entries]
  exact List.mem_append_left _ member

/-- What the operands of a well-formed machine hold is occupied. -/
theorem Names.held_occupied
    {handles : List Handle}
    {objects : List Object}
    (names : Names machine handles objects)
    (closed : machine.heap.Closed)
    {object : Object}
    {child : Handle}
    (member : object ∈ objects)
    (held : child ∈ object.handles) :
    machine.heap.isOccupied child = true := by
  induction names with
  | nil =>
      simp at member
  | @cons handle first handles rest found _ inductionHypothesis =>
      rcases List.mem_cons.mp member with rfl | inRest
      · exact closed handle object child found held
      · exact inductionHypothesis inRest

/-- A refusal settles once the operands have been taken. -/
theorem settles_error
    (orderly : machine.Orderly operations)
    {error : Error}
    (recoverable : error.isFatal = false) :
    Settles operations machine.heap machine.stack.entries (.error error) machine where
  orderly := orderly
  keeps := Heap.Keeps.refl _ _
  value := by
    intro _ same
    cases same
  recoverable := by
    rintro _ ⟨⟩ _
    rfl
  fatal := by
    rintro _ ⟨⟩ fatal
    simp [recoverable] at fatal

/--
What a builtin operation comes to with as many operands as given: it answers to the
entries below them, or it has taken them and refuses them.
-/
inductive Concludes
    (operations : Operation → Prop)
    (builtin : Builtin)
    (given : Nat)
    (before : Heap)
    (below : List Handle) :
    Except Error Handle → Machine → Prop where
  | answered
      {result : Except Error Handle}
      {after : Machine}
      (answers : Answers operations before below result after) :
      Concludes operations builtin given before below result after
  | refused
      {error : Error}
      {after : Machine}
      (orderly : after.Orderly operations)
      (sameHeap : after.heap = before)
      (entries : after.stack.entries = below)
      (refuses : builtin.Refuses given error) :
      Concludes operations builtin given before below (.error error) after

namespace Concludes

variable
  {builtin : Builtin}
  {given : Nat}
  {before : Heap}
  {below : List Handle}
  {result : Except Error Handle}
  {after : Machine}

theorem settles
    (concludes : Concludes operations builtin given before below result after) :
    Settles operations before below result after := by
  cases concludes with
  | answered answers =>
      exact answers.settles
  | refused orderly sameHeap entries refuses =>
      subst sameHeap entries
      exact settles_error orderly refuses.recoverable

/-- A builtin operation fails for want of memory, or it refuses its operands. -/
theorem fails
    (concludes : Concludes operations builtin given before below result after) :
    FailsOnly (fun error => error = .outOfMemory ∨ builtin.Refuses given error) result := by
  rintro error rfl
  cases concludes with
  | answered answers =>
      exact .inl (answers.failure error rfl).1
  | refused _ _ _ refuses =>
      exact .inr refuses

end Concludes

/-- A strict operation that has taken its operands concludes. -/
theorem finish_concludes
    (orderly : machine.Orderly operations)
    {taken : List Handle}
    {operands : List Object}
    (names : Names machine taken operands)
    {builtin : Builtin}
    (strict : builtin.evaluatesOperands = true) :
    Concludes operations builtin taken.length machine.heap machine.stack.entries
      (finish (builtin.answer (views operands)) machine).1
      (finish (builtin.answer (views operands)) machine).2 := by
  have sensible := answer_sensible builtin operands
  have refuses := answer_refuses strict (views operands)
  rw [views, List.length_map, ← names.length_eq, ← views] at refuses
  generalize builtin.answer (views operands) = answer at sensible refuses
  cases sensible with
  | error recoverable =>
      exact .refused orderly rfl rfl (refuses _ rfl)
  | integer value =>
      exact .answered (allocate_answers orderly rfl rfl)
  | boolean value =>
      exact .answered (allocate_answers orderly rfl rfl)
  | part parts =>
      obtain ⟨_, operand, member, held⟩ := parts
      exact .answered (.unchanged orderly (names.held_occupied orderly.closed member held))

/-- Operands that are too few or too many are taken and refused, and nothing else happens. -/
theorem procedure_unaccepted
    (orderly : machine.Orderly operations)
    {taken below : List Handle}
    (entries : machine.stack.entries = taken ++ below)
    {builtin : Builtin}
    (unaccepted : ¬builtin.arity.Accepts taken.length)
    (evaluator : Evaluator) :
    builtin.procedure evaluator taken.length machine =
      some (.error (.arityMismatch builtin.name builtin.arity.text taken.length),
        machine.withEntries below) := by
  cases isStrict : builtin.evaluatesOperands with
  | true =>
      obtain ⟨operands, names⟩ := exists_operands orderly entries
      have sameLength : (views operands).length = taken.length := by
        rw [views, List.length_map, names.length_eq]
      rw [procedure_eq_finish entries names isStrict evaluator,
        answer_unaccepted (sameLength ▸ unaccepted), refusal, sameLength]
      rfl
  | false =>
      cases builtin with
      | conditional =>
          refine conditionalForm_refused evaluator entries fun three => unaccepted ?_
          rw [three]
          decide
      | definition =>
          refine definitionForm_refused evaluator entries fun two => unaccepted ?_
          rw [two]
          decide
      | _ =>
          cases isStrict

section Forms

variable
  {evaluator : Evaluator}
  (safe : evaluator.Safe operations)
  (orderly : machine.Orderly operations)
  {below : List Handle}

include safe orderly

/-- The branches are still on the stack, so the selected one is reached from there. -/
theorem concludeConditional_answers
    {consequent otherwise condition outcome : Handle}
    (entries : machine.stack.entries = [otherwise, consequent, condition] ++ below)
    (occupied : machine.heap.isOccupied outcome = true) :
    (concludeConditional evaluator consequent otherwise outcome).Ensures machine
      (Answers operations machine.heap below) := by
  obtain ⟨object, found⟩ := Heap.isOccupied_iff.mp occupied
  refine .bind_lift (look_found found) ?_
  have selectedReached :
      machine.heap.Reaches machine.stack.entries
        (if object.isTruthy then consequent else otherwise) := by
    refine orderly.toWellFormed.reaches_entry ?_
    rw [entries]
    split <;> simp
  refine .bind (safe machine _ orderly selectedReached) ?_ ?_
  · intro value after answers
    rw [entries] at answers
    obtain ⟨last, discarded⟩ := discard_append (answers.value value rfl).1
    exact .bind_lift discarded (.pure answers.value_below)
  · intro error after answers
    rw [entries] at answers
    exact answers.failure_below

theorem conditionalForm_answers
    {consequent otherwise condition : Handle}
    (entries : machine.stack.entries = [otherwise, consequent, condition] ++ below) :
    (conditionalForm evaluator 3).Ensures machine
      (Answers operations machine.heap below) := by
  have conditionReached : machine.heap.Reaches machine.stack.entries condition :=
    orderly.toWellFormed.reaches_entry (by simp [entries])
  refine .of_eq (conditionalForm_eq evaluator entries) ?_
  refine .bind (safe machine condition orderly conditionReached) ?_ ?_
  · intro outcome between answers
    obtain ⟨sameEntries, occupied⟩ := answers.value outcome rfl
    have keeps := answers.keeps
    rw [entries] at sameEntries keeps
    refine (concludeConditional_answers safe answers.orderly sameEntries occupied).mono ?_
    intro result after concluded
    exact concluded.after_keeps keeps.below
  · intro error after answers
    rw [entries] at answers
    exact answers.failure_below

omit safe in
theorem concludeDefinition_answers
    (name : String)
    {value : Handle}
    {taken : List Handle}
    (entries : machine.stack.entries = taken ++ below)
    (two : taken.length = 2)
    (occupied : machine.heap.isOccupied value = true) :
    Answers operations machine.heap below
      (concludeDefinition name value machine).1 (concludeDefinition name value machine).2 := by
  have bound := orderly.binding name occupied
  have boundEntries : (machine.binding name value).stack.entries = taken ++ below :=
    entries
  rw [concludeDefinition_eq entries two]
  exact allocate_answers (bound.popped boundEntries) rfl rfl

theorem definitionForm_concludes
    {expression nameExpression : Handle}
    (entries : machine.stack.entries = [expression, nameExpression] ++ below) :
    (definitionForm evaluator 2).Ensures machine
      (Concludes operations .definition 2 machine.heap below) := by
  have expressionReached : machine.heap.Reaches machine.stack.entries expression :=
    orderly.toWellFormed.reaches_entry (by simp [entries])
  have nameReached : machine.heap.Reaches machine.stack.entries nameExpression :=
    orderly.toWellFormed.reaches_entry (by simp [entries])
  obtain ⟨nameObject, nameFound⟩ := nameReached.exists_object
  cases named : nameObject.symbolName with
  | error error =>
      refine .of_answer (definitionForm_unnamed evaluator entries nameFound named) ?_
      obtain ⟨request, kind, rfl⟩ := symbolName_unsupported named
      exact .refused (orderly.popped entries) rfl rfl (.kind (by decide) request kind)
  | ok name =>
      cases eager : machine.eagerDefinitions with
      | false =>
          refine .of_answer (definitionForm_lazy evaluator entries nameFound named eager) ?_
          exact .answered (concludeDefinition_answers orderly name entries rfl
            expressionReached.isOccupied)
      | true =>
          refine .of_eq (definitionForm_eager evaluator entries nameFound named eager) ?_
          refine .bind (safe machine expression orderly expressionReached) ?_ ?_
          · intro value between answers
            obtain ⟨sameEntries, occupied⟩ := answers.value value rfl
            have keeps := answers.keeps
            rw [entries] at sameEntries keeps
            have concluded :=
              concludeDefinition_answers answers.orderly name sameEntries rfl occupied
            exact .lift (.answered (concluded.after_keeps keeps.below))
          · intro error after answers
            rw [entries] at answers
            exact .answered answers.failure_below

end Forms

/-- Every builtin operation concludes if the interpreter that it calls is safe. -/
theorem procedure_concludes
    (builtin : Builtin)
    {evaluator : Evaluator}
    (safe : evaluator.Safe operations)
    (orderly : machine.Orderly operations)
    {taken below : List Handle}
    (entries : machine.stack.entries = taken ++ below) :
    (builtin.procedure evaluator taken.length).Ensures machine
      (Concludes operations builtin taken.length machine.heap below) := by
  by_cases accepted : builtin.arity.Accepts taken.length
  · cases builtin with
    | conditional =>
        obtain ⟨otherwise, consequent, condition, rfl⟩ :=
          List.length_eq_three.mp (accepted.exactly rfl)
        exact (conditionalForm_answers safe orderly entries).mono fun _ _ => .answered
    | definition =>
        obtain ⟨expression, nameExpression, rfl⟩ :=
          List.length_eq_two.mp (accepted.exactly rfl)
        exact definitionForm_concludes safe orderly entries
    | _ =>
        obtain ⟨operands, names⟩ := exists_operands orderly entries
        refine .of_answer (procedure_eq_finish entries names rfl evaluator) ?_
        exact finish_concludes (orderly.popped entries) names rfl
  · refine .of_answer (procedure_unaccepted orderly entries accepted evaluator) ?_
    exact .refused (orderly.popped entries) rfl rfl (.number accepted)

/-- Every builtin operation settles if the interpreter that it calls is safe. -/
theorem procedure_settles
    (builtin : Builtin)
    {evaluator : Evaluator}
    (safe : evaluator.Safe operations)
    (orderly : machine.Orderly operations)
    {given : Nat}
    (enough : given ≤ machine.stack.size) :
    (builtin.procedure evaluator given).Ensures machine
      (Settles operations machine.heap (machine.stack.entries.drop given)) := by
  have entries := (List.take_append_drop given machine.stack.entries).symm
  have concludes := procedure_concludes builtin safe orderly entries
  rw [List.length_take_of_le enough] at concludes
  exact concludes.mono fun _ _ concluded => concluded.settles

end Builtin

end ArenaLisp
