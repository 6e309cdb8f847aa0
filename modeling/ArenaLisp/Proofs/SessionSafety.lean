import ArenaLisp.Proofs.EvaluationSafety
import ArenaLisp.Proofs.Reading.Building

namespace ArenaLisp

/-!
# Texts are safe

Between two expressions of a text nothing lies on the stack that was not there before
it, so what the text leaves behind is reachable from its bindings alone.
-/

namespace Machine

/-- What a text leaves of a machine: a text without an error leaves the entries alone. -/
structure Leaves
    (operations : Operation → Prop)
    (before : Machine)
    (result : Except Error (List String))
    (after : Machine) :
    Prop where
  orderly : after.Orderly operations
  keeps : Heap.Keeps before.stack.entries before.heap after.heap
  entries : ∀ texts, result = .ok texts → after.stack.entries = before.stack.entries

variable
  {operations : Operation → Prop}
  {library : Library}
  {machine : Machine}

/-- What entries reach that are the same in between is kept from the start to the end. -/
theorem keeps_through_entries
    {first second third : Machine}
    (earlier : Heap.Keeps first.stack.entries first.heap second.heap)
    (sameEntries : second.stack.entries = first.stack.entries)
    (later : Heap.Keeps second.stack.entries second.heap third.heap) :
    Heap.Keeps first.stack.entries first.heap third.heap := by
  rw [sameEntries] at later
  exact earlier.trans later

/-- Whatever came before and left the entries alone, the rest of a text may follow it. -/
theorem Leaves.after_entries
    {between after : Machine}
    {result : Except Error (List String)}
    (leaves : Leaves operations between result after)
    (keeps : Heap.Keeps machine.stack.entries machine.heap between.heap)
    (sameEntries : between.stack.entries = machine.stack.entries) :
    Leaves operations machine result after where
  orderly := leaves.orderly
  keeps := keeps_through_entries keeps sameEntries leaves.keeps
  entries := fun texts isOk => (leaves.entries texts isOk).trans sameEntries

theorem evaluateRest_leaves
    (disciplined : Disciplined library operations)
    (limit : Nat)
    (reader : Reader)
    (orderly : machine.Orderly operations) :
    (evaluateRest (evaluator library limit) reader).Ensures machine
      (Leaves operations machine) := by
  induction size : reader.text.length using Nat.strongRecOn generalizing reader machine with
  | ind size inductionHypothesis =>
      subst size
      obtain ⟨holds, delivers⟩ := reader.read_delivers orderly
      have sameEntries := holds.entries
      have orderlyAfter := holds.orderly
      have keeps := holds.keeps
      generalize Reference.readNext reader.text = next at delivers
      generalize answered : reader.read machine = answer at *
      obtain ⟨given, after⟩ := answer
      cases delivers with
      | exhausted | unreadable =>
          exact .of_answer (evaluateRest_unreadable answered)
            ⟨orderlyAfter, keeps, by rintro _ ⟨⟩⟩
      | atEnd =>
          exact .of_answer (evaluateRest_done answered)
            ⟨orderlyAfter, keeps, fun _ _ => sameEntries⟩
      | @object tree rest expression unfolds =>
          obtain ⟨object, found⟩ := unfolds.exists_object
          have shorter : rest.length < reader.text.length :=
            Reader.length_lt_of_read answered
          have safe := evaluator_safe disciplined limit
          refine .of_eq (evaluateRest_expression answered) ?_
          refine .bind (evaluateTopLevel_answers safe orderlyAfter
            (Heap.isOccupied_of_get? found)) ?_ ?_
          · intro value between answers
            have entriesBetween := (answers.value value rfl).1.trans sameEntries
            have keepsBetween := keeps_through_entries keeps sameEntries answers.keeps
            have rests := @inductionHypothesis _ shorter between ⟨rest⟩ answers.orderly rfl
            refine .of_eq (concludeFirst_eq _ ⟨rest⟩ value between) (.bind rests ?_ ?_)
            · intro texts final leaves
              have leavesAll := leaves.after_entries keepsBetween entriesBetween
              exact .pure ⟨leavesAll.orderly, leavesAll.keeps,
                fun _ _ => leavesAll.entries texts rfl⟩
            · intro error final leaves
              exact leaves.after_entries keepsBetween entriesBetween
          · intro error final answers
            exact ⟨answers.orderly, keeps_through_entries keeps sameEntries answers.keeps,
              by rintro _ ⟨⟩⟩

end Machine

end ArenaLisp
