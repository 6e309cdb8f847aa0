import ArenaLisp.Proofs.Lists.Regularity
import ArenaLisp.Proofs.Plans.Session
import ArenaLisp.Proofs.ReadingSafety
import Mathlib.Algebra.GroupWithZero.Nat

namespace ArenaLisp

/-!
# Regularity throughout a read

The cdr of a pair that the reader makes is the list so far, and that starts with nil.
Elements and list are on the stack when the pair is made, so they are still there
whatever has been collected before.
-/

open Machine

namespace Reader

open Plan

variable
  {operations : Operation → Prop}
  {machine : Machine}
  {elements below : List Handle}

theorem throughout_consFromStack
    (orderly : machine.Orderly operations)
    (regular : machine.Regular)
    {car cdr : Handle}
    (entries : machine.stack.entries = cdr :: car :: below)
    (tail : machine.heap.GoesOn cdr) :
    Plan.consFromStack.Throughout Regular machine := by
  have counted := regular.consistent.toCounted
  have keeps := keeps_entries (keeps_reserved counted)
  have kept
      {entry : Handle}
      (member : entry ∈ machine.stack.entries) :
      machine.reserved.heap.get? entry = machine.heap.get? entry :=
    keeps entry (orderly.toWellFormed.reaches_entry member)
  have carMember : car ∈ machine.stack.entries := by
    simp [entries]
  have cdrMember : cdr ∈ machine.stack.entries := by
    simp [entries]
  have held :
      ∀ child ∈ (Object.pair car cdr).handles,
        machine.reserved.heap.isOccupied child = true := by
    intro child member
    simp only [Object.handles, List.mem_cons, List.not_mem_nil, or_false] at member
    rcases member with rfl | rfl
    · rw [Heap.isOccupied_congr (kept carMember)]
      exact orderly.entriesOccupied _ carMember
    · rw [Heap.isOccupied_congr (kept cdrMember)]
      exact orderly.entriesOccupied _ cdrMember
  have stillTail : machine.reserved.heap.GoesOn cdr := tail.congr (kept cdrMember)
  have reservedEntries : machine.reserved.stack.entries = cdr :: car :: below := by
    rw [(reserved_frame machine).2.1, entries]
  have popsCdr : pop machine.reserved = (.ok cdr, machine.reserved.withEntries (car :: below)) :=
    pop_cons reservedEntries
  have popsCar :
      pop (machine.reserved.withEntries (car :: below)) =
        (.ok car, machine.reserved.withEntries below) :=
    pop_cons rfl
  have reserves := Regular.preserves_reserve machine regular
  refine reserves.bind_action run_reserve fun _ between regularBetween reserved => ?_
  rw [reserve_eq counted] at reserved
  cases reserved
  have regularBelow := regularBetween.withEntries below
  refine regularBetween.throughout_pop.bind_value (congrArg some popsCdr) ?_
  refine (regularBetween.withEntries _).throughout_pop.bind_value (congrArg some popsCar) ?_
  refine .perform regularBelow (regularBelow.placed held ?_)
  rintro _ _ ⟨⟩
  exact stillTail

/-- A new pair goes on with a list wherever the next one is put in front of it. -/
theorem goesOn_of_consFromStack
    (orderly : machine.Orderly operations)
    {car cdr pair : Handle}
    {after : Machine}
    (entries : machine.stack.entries = cdr :: car :: below)
    (consed : consFromStack machine = (.ok pair, after)) :
    after.heap.GoesOn pair := by
  rcases consFromStack_cases orderly.consistent entries with
    ⟨failed, _⟩ | ⟨handle, placedAfter, succeeded, placed, _, _⟩
  · rw [failed] at consed
    cases consed
  · rw [succeeded] at consed
    cases consed
    exact .inr ⟨car, cdr, placed.found⟩

theorem throughout_consPushed
    (orderly : machine.Orderly operations)
    (regular : machine.Regular)
    (entries : machine.stack.entries = elements ++ below)
    {tail : Handle}
    (goesOn : machine.heap.GoesOn tail) :
    (Plan.consPushed elements.length tail).Throughout Regular machine := by
  induction elements generalizing machine tail with
  | nil =>
      exact .pure tail regular
  | cons element elements inductionHypothesis =>
      have orderlyPushed := orderly.push goesOn.isOccupied
      have pushedEntries :
          (machine.withEntries (tail :: machine.stack.entries)).stack.entries =
            tail :: element :: (elements ++ below) := by
        rw [entries_withEntries, entries]
        rfl
      have regularPushed := regular.withEntries (tail :: machine.stack.entries)
      have conses := throughout_consFromStack orderlyPushed regularPushed pushedEntries goesOn
      refine (regular.throughout_push tail).bind_value rfl ?_
      refine conses.bind_action run_consFromStack fun pair between regularBetween consed => ?_
      have answers := consFromStack_answers orderlyPushed pushedEntries
      have pairGoesOn := goesOn_of_consFromStack orderlyPushed pushedEntries consed
      rw [consed] at answers
      exact inductionHypothesis answers.orderly regularBetween (answers.value pair rfl).1
        pairGoesOn

theorem throughout_closeList
    (orderly : machine.Orderly operations)
    (regular : machine.Regular)
    (entries : machine.stack.entries = elements ++ below) :
    (Plan.closeList elements.length).Throughout Regular machine := by
  have allocates := @Regular.preserves_allocate .nil rfl machine regular
  refine allocates.bind_action (run_allocate .nil)
    fun empty between regularBetween allocated => ?_
  have answers := @allocate_answers operations machine orderly .nil rfl rfl
  have isNil : between.heap.GoesOn empty := by
    rcases allocate_cases orderly.consistent .nil with
      ⟨failed, _⟩ | ⟨handle, after, succeeded, placed, _, _⟩
    · rw [failed] at allocated
      cases allocated
    · rw [succeeded] at allocated
      cases allocated
      exact .inl placed.found
  rw [allocated, entries] at answers
  exact throughout_consPushed answers.orderly regularBetween (answers.value empty rfl).1 isNil

theorem preserves_placeWord (word : List Char) : (Plan.placeWord word).Preserves Regular := by
  unfold Plan.placeWord
  split
  · rename_i isObject
    exact Regular.preserves_allocate (Literal.object_leaf isObject).1
  · exact .throw _

/-- A read that hands an object over goes on with one more element on the stack. -/
theorem throughout_handOver
    {rest : List Char}
    (readsOn :
      ∀ {machine : Machine} counts,
        machine.Orderly operations →
        machine.Regular →
        counts.sum ≤ machine.stack.size →
        (Plan.reading counts rest).Throughout Regular machine)
    (orderly : machine.Orderly operations)
    (regular : machine.Regular)
    {outer : List Nat}
    (covered : outer.sum ≤ machine.stack.size)
    {handle : Handle}
    (occupied : machine.heap.isOccupied handle = true) :
    (Plan.handOver (fun counts => Plan.reading counts rest) rest outer handle).Throughout Regular
      machine := by
  cases outer with
  | nil =>
      exact .pure _ regular
  | cons count outer =>
      have regularPushed := regular.withEntries (handle :: machine.stack.entries)
      have stillCovered :
          ((count + 1) :: outer).sum ≤
            (machine.withEntries (handle :: machine.stack.entries)).stack.size := by
        rw [List.sum_cons] at covered ⊢
        simp only [OperandStack.size, entries_withEntries, List.length_cons] at covered ⊢
        omega
      exact (regular.throughout_push handle).bind_value rfl
        (readsOn _ (orderly.push occupied) regularPushed stillCovered)

/-- A read in progress, by induction on the length of the text that is left. -/
theorem throughout_reading
    (orderly : machine.Orderly operations)
    (regular : machine.Regular)
    {counts : List Nat}
    (covered : counts.sum ≤ machine.stack.size)
    (text : List Char) :
    (Plan.reading counts text).Throughout Regular machine := by
  induction size : text.length using Nat.strongRecOn generalizing machine counts text with
  | ind size inductionHypothesis =>
      subst size
      have readsOn
          {token : Token}
          {rest : List Char}
          (found : Token.next? text = some (token, rest))
          {machine : Machine}
          (counts : List Nat)
          (orderly : machine.Orderly operations)
          (regular : machine.Regular)
          (covered : counts.sum ≤ machine.stack.size) :
          (Plan.reading counts rest).Throughout Regular machine :=
        inductionHypothesis _ (Token.length_lt_of_next? found) orderly regular covered rest rfl
      rw [Plan.reading]
      split
      · exact .throw _ regular
      · rename_i rest found
        exact readsOn found (0 :: counts) orderly regular (by simpa using covered)
      · rename_i rest found
        cases counts with
        | nil =>
            exact .throw _ regular
        | cons count outer =>
            have split := (List.take_append_drop count machine.stack.entries).symm
            rw [List.sum_cons, OperandStack.size] at covered
            have taken : (machine.stack.entries.take count).length = count :=
              List.length_take_of_le (by omega)
            have answers := closeList_answers orderly split
            have closes := throughout_closeList orderly regular split
            rw [taken] at answers closes
            refine closes.bind_action (run_closeList count)
              fun handle between regularBetween closed => ?_
            rw [closed] at answers
            obtain ⟨entries, occupied⟩ := answers.value handle rfl
            refine throughout_handOver (readsOn found) answers.orderly regularBetween ?_ occupied
            rw [OperandStack.size, entries, List.length_drop]
            omega
      · rename_i characters rest found
        have places := preserves_placeWord characters machine regular
        refine places.bind_action (run_placeWord characters)
          fun handle between regularBetween placed => ?_
        have answers := placeWord_answers orderly placed
        obtain ⟨entries, occupied⟩ := answers.value handle rfl
        refine throughout_handOver (readsOn found) answers.orderly regularBetween ?_ occupied
        rwa [OperandStack.size, entries]

theorem throughout_nextExpression
    (orderly : machine.Orderly operations)
    (regular : machine.Regular)
    (reader : Reader) :
    (Plan.nextExpression reader).Throughout Regular machine := by
  unfold Plan.nextExpression
  split
  · exact .pure none regular
  · have reads :=
      @throughout_reading _ _ orderly regular [] (Nat.zero_le _) (Token.skip reader.text)
    have answers := reads.bind fun value after ran =>
      .pure (some value) (reads.after _ _ ran)
    refine (Throughout.observe _ regular).bind_value rfl ?_
    refine answers.tryCatch fun error after failed => ?_
    have restores := (answers.after _ _ failed).throughout_onStack fun stack =>
      (.ok (), stack.drop (stack.size - machine.stack.size))
    exact restores.bind fun _ final ran => .throw error (restores.after _ _ ran)

end Reader

end ArenaLisp
