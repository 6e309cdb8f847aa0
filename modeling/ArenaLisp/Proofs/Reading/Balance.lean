import ArenaLisp.Proofs.ElementarySteps
import Mathlib.Algebra.GroupWithZero.Nat

namespace ArenaLisp

/-!
# Reading restores the stack

A read keeps the elements of the open lists above the entries that it finds, and no
step of it takes more entries than it has put there.  So whatever stops a read, be it
the text or the memory, the entries below are intact, and the read cleans up down to
these.

Nothing is assumed of the machine but consistent counters: its entries and bindings may
dangle.
-/

open Machine

/-- The ways in which a read may fail. -/
def Error.StopsReading (error : Error) : Prop :=
  error = .outOfMemory ∨ ∃ fault, error = .unreadable fault

namespace Reader

variable {machine : Machine} {elements below : List Handle} {First Result : Type}

/--
What a step of a read owes to the entries below the elements that it may take: these
entries are all that is left, or the step has failed above them.
-/
structure Balanced (below : List Handle) (answer : Except Error Result × Machine) : Prop where
  consistent : answer.2.heap.Consistent
  value : ∀ result, answer.1 = .ok result → answer.2.stack.entries = below
  failure :
    ∀ error,
      answer.1 = .error error →
      error.StopsReading ∧ below <:+ answer.2.stack.entries

/-- What a step owes that ends with certain entries, whether it fails or not. -/
structure EndsWith (entries : List Handle) (answer : Except Error Result × Machine) : Prop where
  consistent : answer.2.heap.Consistent
  entries : answer.2.stack.entries = entries
  failure : ∀ error, answer.1 = .error error → error.StopsReading

namespace EndsWith

theorem returned
    (consistent : machine.heap.Consistent)
    (result : Result)
    (entries : machine.stack.entries = below) :
    EndsWith below (.ok result, machine) :=
  ⟨consistent, entries, by rintro _ ⟨⟩⟩

theorem failed
    (consistent : machine.heap.Consistent)
    {error : Error}
    (stops : error.StopsReading)
    (entries : machine.stack.entries = below) :
    EndsWith below ((.error error, machine) : Except Error Result × Machine) := by
  refine ⟨consistent, entries, ?_⟩
  rintro _ ⟨⟩
  exact stops

theorem balanced
    {answer : Except Error Result × Machine}
    (ends : EndsWith below answer) :
    Balanced below answer := by
  refine ⟨ends.consistent, fun _ _ => ends.entries, fun error failed => ?_⟩
  rw [ends.entries]
  exact ⟨ends.failure error failed, List.suffix_refl _⟩

end EndsWith

namespace Balanced

theorem returned
    (consistent : machine.heap.Consistent)
    (result : Result)
    (entries : machine.stack.entries = below) :
    Balanced below (.ok result, machine) :=
  ⟨consistent, fun _ _ => entries, by rintro _ ⟨⟩⟩

theorem failed
    (consistent : machine.heap.Consistent)
    {error : Error}
    (stops : error.StopsReading)
    (above : below <:+ machine.stack.entries) :
    Balanced below ((.error error, machine) : Except Error Result × Machine) := by
  refine ⟨consistent, by rintro _ ⟨⟩, ?_⟩
  rintro _ ⟨⟩
  exact ⟨stops, above⟩

/-- A second step takes over where the first one has left its entries. -/
theorem bind
    {action : Action First}
    {continuation : First → Action Result}
    {between : List Handle}
    (first : Balanced between (action machine))
    (above : below <:+ between)
    (goesOn :
      ∀ value after,
        after.heap.Consistent →
        after.stack.entries = between →
        Balanced below (continuation value after)) :
    Balanced below ((action >>= continuation) machine) := by
  rw [Transition.bind_apply]
  generalize action machine = answer at first
  obtain ⟨error | value, after⟩ := answer
  · obtain ⟨stops, stillAbove⟩ := first.failure error rfl
    exact .failed first.consistent stops (above.trans stillAbove)
  · exact goesOn value after first.consistent (first.value value rfl)

end Balanced

theorem allocate_endsWith
    (consistent : machine.heap.Consistent)
    (object : Object) :
    EndsWith machine.stack.entries (allocate object machine) := by
  rcases allocate_cases consistent object with
    ⟨failed, _⟩ | ⟨handle, after, succeeded, placed, sameEntries, _⟩
  · have sameStack := (reserved_frame machine).2.1
    rw [failed]
    exact .failed (reserved_consistent consistent).1 (.inl rfl)
      (congrArg OperandStack.entries sameStack)
  · rw [succeeded]
    exact .returned placed.consistent handle sameEntries

/-- The two parts of a pair are gone even if there is no room for it. -/
theorem consFromStack_endsWith
    (consistent : machine.heap.Consistent)
    {car cdr : Handle}
    (entries : machine.stack.entries = cdr :: car :: below) :
    EndsWith below (consFromStack machine) := by
  rcases consFromStack_cases consistent entries with
    ⟨failed, _⟩ | ⟨handle, after, succeeded, placed, sameEntries, _⟩
  · have reservedConsistent : (machine.reserved.withEntries below).heap.Consistent :=
      (reserved_consistent consistent).1
    rw [failed]
    exact .failed reservedConsistent (.inl rfl) rfl
  · rw [succeeded]
    exact .returned placed.consistent handle sameEntries

theorem placeWord_endsWith
    (consistent : machine.heap.Consistent)
    (word : List Char) :
    EndsWith machine.stack.entries (placeWord word machine) := by
  rcases isObject : Literal.object word with fault | object
  · have fails : placeWord word machine = (.error (.unreadable fault), machine) := by
      rw [placeWord, isObject]
      rfl
    rw [fails]
    exact .failed consistent (.inr ⟨fault, rfl⟩) rfl
  · have places : placeWord word = allocate object := by
      rw [placeWord, isObject]
    rw [places]
    exact allocate_endsWith consistent object

/-- A list that is put together takes its elements, whichever pair there is no room for. -/
theorem consPushed_balanced
    (consistent : machine.heap.Consistent)
    (entries : machine.stack.entries = elements ++ below)
    (tail : Handle) :
    Balanced below (consPushed elements.length tail machine) := by
  induction elements generalizing machine tail with
  | nil =>
      exact .returned consistent tail entries
  | cons element elements inductionHypothesis =>
      let pushed := machine.withEntries (tail :: machine.stack.entries)
      have pushedConsistent : pushed.heap.Consistent :=
        consistent
      have pushedEntries : pushed.stack.entries = tail :: element :: (elements ++ below) := by
        rw [entries_withEntries, entries, List.cons_append]
      rw [List.length_cons, consPushed_succ]
      refine (consFromStack_endsWith pushedConsistent pushedEntries).balanced.bind
        (List.suffix_append elements below) ?_
      intro pair after consistentAfter entriesAfter
      exact inductionHypothesis consistentAfter entriesAfter pair

theorem closeList_balanced
    (consistent : machine.heap.Consistent)
    (entries : machine.stack.entries = elements ++ below) :
    Balanced below (closeList elements.length machine) := by
  refine (allocate_endsWith consistent .nil).balanced.bind ?_ ?_
  · rw [entries]
    exact List.suffix_append elements below
  · intro empty after consistentAfter sameEntries
    exact consPushed_balanced consistentAfter (sameEntries.trans entries) empty

/-- Some elements lie on the stack, as many as the open lists count. -/
def Open (counts : List Nat) (below entries : List Handle) : Prop :=
  ∃ elements, entries = elements ++ below ∧ elements.length = counts.sum

theorem handOver_balanced
    {rest : List Char}
    (readsOn :
      ∀ {machine : Machine} counts,
        machine.heap.Consistent →
        Open counts below machine.stack.entries →
        Balanced below (reading counts rest machine))
    (consistent : machine.heap.Consistent)
    {outer : List Nat}
    (isOpen : Open outer below machine.stack.entries)
    (handle : Handle) :
    Balanced below (handOver outer rest handle machine) := by
  obtain ⟨elements, entries, counted⟩ := isOpen
  cases outer with
  | nil =>
      obtain rfl := List.eq_nil_of_length_eq_zero counted
      exact .returned consistent _ entries
  | cons count outer =>
      rw [handOver, Transition.bind_apply, push_eq]
      refine readsOn _ consistent ⟨handle :: elements, ?_, ?_⟩
      · rw [entries_withEntries, entries]
        rfl
      · simp only [List.length_cons, counted, List.sum_cons]
        omega

/-- A read in progress, by induction on the length of the text that is left. -/
theorem reading_balanced
    (consistent : machine.heap.Consistent)
    {counts : List Nat}
    (isOpen : Open counts below machine.stack.entries)
    (text : List Char) :
    Balanced below (reading counts text machine) := by
  induction size : text.length using Nat.strongRecOn generalizing machine counts text with
  | ind size inductionHypothesis =>
      subst size
      have ⟨elements, entries, counted⟩ := isOpen
      have above : below <:+ machine.stack.entries := by
        rw [entries]
        exact List.suffix_append elements below
      cases found : Token.next? text with
      | none =>
          rw [reading_none found]
          exact .failed consistent (.inr ⟨_, rfl⟩) above
      | some step =>
          obtain ⟨token, rest⟩ := step
          have shorter := Token.length_lt_of_next? found
          have readsOn
              {machine : Machine}
              (counts : List Nat)
              (consistent : machine.heap.Consistent)
              (isOpen : Open counts below machine.stack.entries) :
              Balanced below (reading counts rest machine) :=
            inductionHypothesis _ shorter consistent isOpen rest rfl
          cases token with
          | opening =>
              rw [reading_opening found]
              exact readsOn (0 :: counts) consistent ⟨elements, entries, by simpa using counted⟩
          | closing =>
              cases counts with
              | nil =>
                  rw [reading_misplaced found]
                  exact .failed consistent (.inr ⟨_, rfl⟩) above
              | cons count outer =>
                  -- The elements of the list that is closed lie above those of the outer lists.
                  rw [List.sum_cons] at counted
                  have own : (elements.take count).length = count :=
                    List.length_take_of_le (by omega)
                  have others : (elements.drop count).length = outer.sum := by
                    rw [List.length_drop, counted, Nat.add_sub_cancel_left]
                  rw [← List.take_append_drop count elements, List.append_assoc] at entries
                  have closes := closeList_balanced consistent entries
                  rw [own] at closes
                  rw [reading_closed found]
                  refine closes.bind (List.suffix_append _ below) ?_
                  intro handle after consistentAfter entriesAfter
                  exact handOver_balanced readsOn consistentAfter ⟨_, entriesAfter, others⟩ handle
          | word characters =>
              rw [reading_word found]
              refine (placeWord_endsWith consistent characters).balanced.bind above ?_
              intro handle after consistentAfter sameEntries
              rw [← sameEntries] at isOpen
              exact handOver_balanced readsOn consistentAfter isOpen handle

/-- An answer whose machine has certain entries if it is a failure. -/
def cleaned (entries : List Handle) :
    Except Error Result × Machine → Except Error Result × Machine
  | (.ok result, after) => (.ok result, after)
  | (.error error, after) => (.error error, after.withEntries entries)

/-- What is cleaned up behind a failure is what the step has left above the old entries. -/
theorem Balanced.cleaningUp_eq
    {action : Action First}
    (balanced : Balanced machine.stack.entries (action machine))
    (result : First → Result) :
    cleaningUp result action machine =
      Prod.map (Except.map result) id (cleaned machine.stack.entries (action machine)) := by
  rw [cleaningUp]
  generalize action machine = answer at balanced
  obtain ⟨error | value, after⟩ := answer
  · obtain ⟨_, elements, entries⟩ := balanced.failure error rfl
    exact congrArg (Prod.mk _) (restoreStack_above entries.symm)
  · rfl

theorem nextExpression_endsWith
    (consistent : machine.heap.Consistent)
    (reader : Reader) :
    EndsWith machine.stack.entries (reader.nextExpression machine) := by
  by_cases isEmpty : Token.skip reader.text = []
  · rw [nextExpression_done isEmpty]
    exact .returned consistent none rfl
  · have nothingOpen : Open [] machine.stack.entries machine.stack.entries :=
      ⟨[], rfl, rfl⟩
    have balanced := reading_balanced consistent nothingOpen (Token.skip reader.text)
    rw [nextExpression_cleaningUp isEmpty, balanced.cleaningUp_eq]
    generalize reading [] (Token.skip reader.text) machine = answer at balanced
    obtain ⟨error | found, after⟩ := answer
    · have cleanedConsistent : (after.withEntries machine.stack.entries).heap.Consistent :=
        balanced.consistent
      exact .failed cleanedConsistent (balanced.failure error rfl).1 rfl
    · exact .returned balanced.consistent _ (balanced.value found rfl)

end Reader

end ArenaLisp
