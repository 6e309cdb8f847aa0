import ArenaLisp.Proofs.Discipline
import ArenaLisp.Proofs.ReaderSteps

namespace ArenaLisp

/-!
# Reading is safe

A list is put together from elements on the stack.  Until they are part of the list
these are protected by nothing but their entries, and whatever is collected meanwhile
is neither one of them nor anything below.
-/

open Machine

/-- A word stands for a leaf. -/
theorem Literal.object_leaf
    {word : List Char}
    {object : Object}
    (isObject : Literal.object word = .ok object) :
    object.handles = [] ∧ object.callable? = none := by
  unfold Literal.object at isObject
  split at isObject
  · split at isObject
    · cases isObject
      exact ⟨rfl, rfl⟩
    · cases isObject
  · cases isObject
    exact ⟨rfl, rfl⟩

namespace Reader

variable
  {operations : Operation → Prop}
  {machine : Machine}
  {elements below : List Handle}

/-- The object of a word is placed above a stack that stays as it was. -/
theorem placeWord_answers
    (orderly : machine.Orderly operations)
    {word : List Char}
    {handle : Handle}
    {after : Machine}
    (placed : placeWord word machine = (.ok handle, after)) :
    Answers operations machine.heap machine.stack.entries (.ok handle) after := by
  rcases isObject : Literal.object word with fault | object
  · have fails : placeWord word = throw (.unreadable fault) := by
      rw [placeWord, isObject]
    rw [fails] at placed
    cases placed
  · obtain ⟨noHandles, uncallable⟩ := Literal.object_leaf isObject
    have places : placeWord word = allocate object := by
      rw [placeWord, isObject]
    have answers := allocate_answers orderly noHandles uncallable
    rwa [← places, placed] at answers

/-- A list that is put together on the stack answers to the entries below its elements. -/
theorem consPushed_answers
    (orderly : machine.Orderly operations)
    (entries : machine.stack.entries = elements ++ below)
    {tail : Handle}
    (occupied : machine.heap.isOccupied tail = true) :
    Answers operations machine.heap below
      (consPushed elements.length tail machine).1
      (consPushed elements.length tail machine).2 := by
  induction elements generalizing machine tail with
  | nil =>
      obtain rfl : machine.stack.entries = below := entries
      exact .unchanged orderly occupied
  | cons element elements inductionHypothesis =>
      have pushedEntries :
          (machine.withEntries (tail :: machine.stack.entries)).stack.entries =
            tail :: element :: (elements ++ below) := by
        rw [entries_withEntries, entries]
        rfl
      have answers := consFromStack_answers (orderly.push occupied) pushedEntries
      rw [List.length_cons, consPushed_succ, Transition.bind_apply]
      generalize consFromStack (machine.withEntries (tail :: machine.stack.entries)) = consed
        at answers ⊢
      obtain ⟨result, between⟩ := consed
      cases result with
      | error error =>
          exact answers.failure_below
      | ok pair =>
          obtain ⟨restEntries, pairOccupied⟩ := answers.value pair rfl
          have rest := inductionHypothesis answers.orderly restEntries pairOccupied
          exact rest.after_keeps answers.keeps.below

theorem closeList_answers
    (orderly : machine.Orderly operations)
    (entries : machine.stack.entries = elements ++ below) :
    Answers operations machine.heap below
      (closeList elements.length machine).1 (closeList elements.length machine).2 := by
  have answers := @allocate_answers operations machine orderly .nil rfl rfl
  rw [entries] at answers
  rw [closeList, Transition.bind_apply]
  generalize allocate .nil machine = allocated at answers ⊢
  obtain ⟨result, between⟩ := allocated
  cases result with
  | error error =>
      exact answers.failure_below
  | ok empty =>
      obtain ⟨sameEntries, occupied⟩ := answers.value empty rfl
      have rest := consPushed_answers answers.orderly sameEntries occupied
      exact rest.after_keeps answers.keeps.below

end Reader

end ArenaLisp
