import ArenaLisp.Proofs.Reading.Levels

namespace ArenaLisp

/-!
# One cleanup or many

The reader counts the elements of the open lists and cleans up once, behind a failure.
A reader that calls itself for every list cleans up at every level.

Both do the same, whatever the machine is like, but for what a failure leaves on the
stack.  On a machine with consistent counters that is the same, too.
-/

open Machine

namespace Reader

variable
  {machine : Machine}
  {below : List Handle}
  {Result : Type}
  {limit : Nat}
  {token : Token}
  {text rest : List Char}

/-- Puts the elements of a list in front of what is left of it, and hands the list over. -/
def closeBehind (count : Nat) (outer : List Nat) (list : Handle × List Char) :
    Action (Handle × Reader) :=
  consPushed count list.1 >>= handOver outer list.2

/-- Reading on in an open list is reading what is left of it and then closing it. -/
def ReadsOpen (below : List Handle) (limit : Nat) : Prop :=
  ∀ {machine : Machine} {text : List Char} count outer,
    text.length ≤ limit →
    cleaned below (reading (count :: outer) text machine) =
      cleaned below ((descendTail limit text >>= closeBehind count outer) machine)

/-- Reading an object is descending into it and handing it over. -/
theorem reading_descends
    (readsOpen : ReadsOpen below limit)
    (found : Token.next? text = some (token, rest))
    (short : rest.length ≤ limit)
    {counts : List Nat}
    (begins : token = .closing → counts = [])
    (machine : Machine) :
    cleaned below (reading counts text machine) =
      cleaned below
        ((descendFrom (descendTail limit) token rest >>= fun object =>
          handOver counts object.2 object.1) machine) := by
  cases token with
  | opening =>
      rw [reading_opening found, readsOpen 0 counts short]
      rfl
  | closing =>
      obtain rfl := begins rfl
      rw [reading_misplaced found]
      rfl
  | word characters =>
      rw [reading_word found]
      simp only [descendFrom, Transition.bind_apply]
      rcases placeWord characters machine with ⟨_ | _, _⟩ <;> rfl

/-- An element that has been read is handed over to the reader that goes on with its list. -/
theorem reading_behind
    (readsOpen : ReadsOpen below limit)
    (short : rest.length ≤ limit)
    (count : Nat)
    (outer : List Nat)
    (machine : Machine) :
    cleaned below
        ((descendFrom (descendTail limit) token rest >>= fun element =>
          handOver (count :: outer) element.2 element.1) machine) =
      cleaned below
        (((descendFrom (descendTail limit) token rest >>= fun element =>
          descendBehind (descendTail limit) element.1 element.2) >>=
            closeBehind count outer) machine) := by
  simp only [Transition.bind_apply]
  rcases element : descendFrom (descendTail limit) token rest machine with
    ⟨error | ⟨head, others⟩, between⟩
  · rfl
  · have shortOthers : others.length ≤ limit :=
      Nat.le_trans (descendFrom_suffix (descendTail_later limit) element).length_le short
    let pushed := between.withEntries (head :: between.stack.entries)
    have goesOn :
        handOver (count :: outer) others head between =
          reading ((count + 1) :: outer) others pushed := by
      simp only [handOver, Transition.bind_apply, push_eq, pushed]
    have spares := spares_descending.descendTail limit others pushed
    simp only
    rw [goesOn, readsOpen (count + 1) outer shortOthers, Transition.bind_apply]
    rcases isList : descendTail limit others pushed with ⟨error | ⟨list, remaining⟩, after⟩
    · rw [isList] at spares
      obtain ⟨top, left, entries, _⟩ := spares.exists_top
      rw [descendBehind_failed isList entries]
      rfl
    · rw [descendBehind_returned isList]
      simp only [closeBehind, Transition.bind_apply, consPushed_succ]
      rcases consFromStack (after.withEntries (list :: after.stack.entries)) with
        ⟨_ | _, _⟩ <;> rfl

/-- Whatever is left of a list, one may descend into it; by induction on the limit. -/
theorem readsOpen_of_limit
    (below : List Handle)
    (limit : Nat) :
    ReadsOpen below limit := by
  induction limit with
  | zero =>
      intro machine text count outer short
      obtain rfl := List.eq_nil_of_length_eq_zero (Nat.le_zero.mp short)
      rw [reading_none rfl]
      rfl
  | succ limit inductionHypothesis =>
      intro machine text count outer short
      cases found : Token.next? text with
      | none =>
          rw [reading_none found, descendTail_none found]
          rfl
      | some step =>
          obtain ⟨token, rest⟩ := step
          have shortRest : rest.length ≤ limit := by
            have shorter := Token.length_lt_of_next? found
            omega
          by_cases closes : token = .closing
          · subst closes
            rw [reading_closed found, descendTail_closing found]
            simp only [closeList, Transition.bind_apply, closeBehind]
            rcases allocate .nil machine with ⟨_ | _, _⟩ <;> rfl
          · rw [reading_descends inductionHypothesis found shortRest
              fun isClosing => absurd isClosing closes]
            rw [descendTail_element found closes]
            exact reading_behind inductionHypothesis shortRest count outer machine

/--
On any machine, the reader that cleans up once does the same as the reader that descends
into the lists, up to what is left on the stack behind a failure.
-/
theorem cleaned_nextExpression
    (below : List Handle)
    (reader : Reader)
    (machine : Machine) :
    cleaned below (reader.nextExpression machine) = cleaned below (reader.descend machine) := by
  by_cases isEmpty : Token.skip reader.text = []
  · rw [nextExpression_done isEmpty, descend, Token.next?_eq_none_iff.mpr isEmpty]
    rfl
  · obtain ⟨step, found⟩ :=
      Option.ne_none_iff_exists'.mp (mt Token.next?_eq_none_iff.mp isEmpty)
    obtain ⟨token, rest⟩ := step
    have foundBehind : Token.next? (Token.skip reader.text) = some (token, rest) := by
      rw [Token.next?_skip, found]
    have descends :=
      reading_descends (readsOpen_of_limit below rest.length) foundBehind le_rfl
        (fun _ => @rfl _ []) machine
    have forgets :
        cleaned below (reader.nextExpression machine) =
          Prod.map (Except.map some) id
            (cleaned below (reading [] (Token.skip reader.text) machine)) := by
      rw [nextExpression_eq isEmpty]
      rcases reading [] (Token.skip reader.text) machine with ⟨_ | _, _⟩ <;> rfl
    rw [forgets, descends, descend, found]
    simp only [Transition.bind_apply, handOver]
    rcases descendFrom (descendTail rest.length) token rest machine with ⟨_ | _, _⟩ <;> rfl

theorem EndsWith.cleaned_eq
    {answer : Except Error Result × Machine}
    (ends : EndsWith below answer) :
    cleaned below answer = answer := by
  obtain ⟨_ | _, after⟩ := answer
  · rw [← ends.entries]
    rfl
  · rfl

/--
The reader that cleans up once, behind a failure, does the same as the reader that
descends into the lists and takes off at every level what it has pushed there.
-/
theorem nextExpression_eq_descend
    (consistent : machine.heap.Consistent)
    (reader : Reader) :
    reader.nextExpression machine = reader.descend machine := by
  have ends := endsWith_descending.descend reader machine consistent
  have agree := cleaned_nextExpression machine.stack.entries reader machine
  rwa [(nextExpression_endsWith consistent reader).cleaned_eq, ends.cleaned_eq] at agree

/--
Reading never disturbs the roots of a machine.  Whatever the text is and wherever the
read fails, for want of memory too, it ends with the entries that it found on the
stack, the bindings and the diagnostics as they were.  It fails in no other ways than by
running out of memory and by a fault of the text.  All this is the same as for a reader
that descends into the lists and takes off at every level what it has pushed there.
-/
theorem read_balanced
    (consistent : machine.heap.Consistent)
    (reader : Reader) :
    (reader.read machine).2.stack.entries = machine.stack.entries ∧
      (reader.read machine).2.environment = machine.environment ∧
      (reader.read machine).2.diagnostics = machine.diagnostics ∧
      (∀ error,
        (reader.read machine).1.1 = .error error →
        error = .outOfMemory ∨ ∃ fault, error = .unreadable fault) ∧
      reader.nextExpression machine = reader.descend machine := by
  have tame : machine.Tame fun _ => True :=
    ⟨consistent, fun _ _ _ _ _ => trivial⟩
  have allocates := OnlyAllocates.compositional.nextExpression reader machine tame
  have same := allocates.sameSurroundings tame
  have ends := nextExpression_endsWith consistent reader
  rw [← nextExpression_machine]
  refine ⟨ends.entries, same.environment, same.diagnostics, fun error failed => ?_,
    nextExpression_eq_descend consistent reader⟩
  exact ends.failure error (nextExpression_error failed)

/-- Memory runs out within two open lists, on a machine with a dangling stack entry. -/
theorem read_balanced_tangled :
    tangled.heap.Consistent ∧
      ((ofString "(a (b c d").read tangled).1.1 = .error .outOfMemory ∧
      ((ofString "(a (b c d").read tangled).2.stack.entries =
        [Handle.ofIndex 0, Handle.ofIndex 3] := by
  have consistent : tangled.heap.Consistent :=
    ⟨⟨by decide, by decide, by decide, by decide⟩, by decide, by decide⟩
  refine ⟨consistent, by decide +kernel, ?_⟩
  exact (read_balanced consistent (ofString "(a (b c d")).1

end Reader

end ArenaLisp
