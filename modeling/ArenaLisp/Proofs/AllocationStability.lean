import ArenaLisp.Proofs.ElementarySteps
import ArenaLisp.Proofs.EvaluationSafety
import ArenaLisp.Proofs.Reading.Building

namespace ArenaLisp

/-!
# Allocation stability

Objects never move.  Whatever allocates, however often it collects on the way, leaves
every object in its slot with its contents that a remaining stack entry reaches, or
the value of a name that it does not bind again.

For the entries this is part of what every operation owes to the stack.  For the
bindings it holds along every elementary step, so it holds along every run.
-/

namespace Machine

/-- The name that an event bound. -/
def boundName? : Event → Option String
  | .bound name _ => some name
  | _ => none

/-- Whether a name was bound in the course of some events. -/
def BoundIn (events : List Event) (name : String) : Prop :=
  name ∈ events.filterMap boundName?

/-- What some events did to the bindings: nothing to the names that they do not bind. -/
structure SparesBindings (events : List Event) (before after : Machine) : Prop where
  journal : after.journal = events ++ before.journal
  others :
    ∀ name, ¬BoundIn events name → after.environment.get? name = before.environment.get? name
  bound : ∀ name, BoundIn events name → (after.environment.get? name).isSome = true
  keeps :
    ∀ name value,
      ¬BoundIn events name →
      before.environment.get? name = some value →
      Heap.Keeps [value] before.heap after.heap

/--
What an operation leaves alone that rebinds some names and leaves some entries in
place: those entries, the other bindings, and every object that any of them reaches.
-/
structure LeavesAlone
    (before : Machine)
    (staying : List Handle)
    (rebound : String → Prop)
    (after : Machine) :
    Prop where
  entries : staying <:+ after.stack.entries
  bindings :
    ∀ name, ¬rebound name → after.environment.get? name = before.environment.get? name
  stillBound :
    ∀ name,
      (before.environment.get? name).isSome = true →
      (after.environment.get? name).isSome = true
  reachedFromEntries : Heap.Keeps staying before.heap after.heap
  reachedFromBindings :
    ∀ name value,
      ¬rebound name →
      before.environment.get? name = some value →
      Heap.Keeps [value] before.heap after.heap

/-- No name at all. -/
def NoName (_ : String) : Prop :=
  False

variable
  {operations : Operation → Prop}
  {machine before between after : Machine}

theorem boundIn_append_iff
    {later earlier : List Event}
    {name : String} :
    BoundIn (later ++ earlier) name ↔ BoundIn later name ∨ BoundIn earlier name := by
  rw [BoundIn, List.filterMap_append, List.mem_append]
  rfl

/-- Whether some events bind no name at all. -/
def BindsNothing (events : List Event) : Prop :=
  ∀ event ∈ events, boundName? event = none

theorem BindsNothing.not_boundIn
    {events : List Event}
    (bindsNothing : BindsNothing events)
    (name : String) :
    ¬BoundIn events name := by
  intro isBound
  obtain ⟨event, member, isName⟩ := List.mem_filterMap.mp isBound
  rw [bindsNothing event member] at isName
  cases isName

theorem bindsNothing_nil : BindsNothing [] := by
  rintro event ⟨⟩

theorem bindsNothing_singleton
    {event : Event}
    (noName : boundName? event = none) :
    BindsNothing [event] := by
  intro other member
  rwa [List.mem_singleton.mp member]

namespace SparesBindings

theorem trans
    {earlier later : List Event}
    (first : SparesBindings earlier before between)
    (second : SparesBindings later between after) :
    SparesBindings (later ++ earlier) before after where
  journal := by
    rw [second.journal, first.journal, List.append_assoc]
  others := by
    intro name notBound
    rw [boundIn_append_iff, not_or] at notBound
    exact (second.others name notBound.1).trans (first.others name notBound.2)
  bound := by
    intro name isBound
    by_cases boundLater : BoundIn later name
    · exact second.bound name boundLater
    · have boundEarlier := (boundIn_append_iff.mp isBound).resolve_left boundLater
      rw [second.others name boundLater]
      exact first.bound name boundEarlier
  keeps := by
    intro name value notBound found
    rw [boundIn_append_iff, not_or] at notBound
    have foundBetween := (first.others name notBound.2).trans found
    exact (first.keeps name value notBound.2 found).trans
      (second.keeps name value notBound.1 foundBetween)

/-- Steps that bind no name at all spare the bindings if they keep what these reach. -/
theorem of_same
    {events : List Event}
    (journal : after.journal = events ++ before.journal)
    (bindsNothing : BindsNothing events)
    (sameEnvironment : after.environment = before.environment)
    (keepsBound : Heap.Keeps before.environment.values before.heap after.heap) :
    SparesBindings events before after where
  journal := journal
  others := by
    intro name _
    rw [sameEnvironment]
  bound := fun name isBound => absurd isBound (bindsNothing.not_boundIn name)
  keeps := by
    intro name value _ found
    refine keepsBound.of_subset fun root member => ?_
    rw [List.mem_singleton.mp member]
    exact Environment.mem_values_of_get? found

end SparesBindings

theorem reserved_journal (machine : Machine) :
    ∃ events,
      machine.reserved.journal = events ++ machine.journal ∧ BindsNothing events := by
  rcases reserved_cases machine with same | ⟨same, _⟩
  · rw [same]
    exact ⟨[.collected machine.collectionSummary], rfl, bindsNothing_singleton rfl⟩
  · rw [same]
    exact ⟨[], rfl, bindsNothing_nil⟩

/-- Along one step only the name that it binds is touched. -/
theorem EvaluationStep.sparesBindings
    (tame : before.Tame operations)
    (step : EvaluationStep operations before after) :
    ∃ events, SparesBindings events before after := by
  cases step with
  | allocating step =>
      have same := step.sameSurroundings tame
      cases step with
      | entries =>
          exact ⟨[], .of_same rfl bindsNothing_nil rfl same.keepsBound⟩
      | reserving =>
          obtain ⟨events, journal, bindsNothing⟩ := reserved_journal before
          exact ⟨events, .of_same journal bindsNothing same.environment same.keepsBound⟩
      | placing =>
          exact ⟨[_], .of_same rfl (bindsNothing_singleton rfl) rfl same.keepsBound⟩
  | evaluating | remembering =>
      exact ⟨[_], .of_same rfl (bindsNothing_singleton rfl) rfl (.refl _ _)⟩
  | binding name value =>
      refine ⟨[.bound name value], rfl, ?_, ?_, fun _ _ _ _ => .refl _ _⟩
      · intro other notBound
        have distinct : other ≠ name := by
          rintro rfl
          exact notBound (List.mem_singleton_self _)
        exact (Environment.get?_define before.environment name other value).trans
          (if_neg distinct)
      · intro other isBound
        obtain rfl : other = name := List.mem_singleton.mp isBound
        have found : (before.binding other value).environment.get? other = some value :=
          (Environment.get?_define before.environment other other value).trans (if_pos rfl)
        rw [found]
        rfl

theorem EvaluationSteps.sparesBindings
    (steps : EvaluationSteps operations before after)
    (tame : before.Tame operations) :
    ∃ events, SparesBindings events before after := by
  refine (@along_steps operations before after _
    (fun first second => ∃ events, SparesBindings events first second) EvaluationStep.tame
    (fun _ => ⟨[], .of_same rfl bindsNothing_nil rfl (.refl _ _)⟩) ?_
    EvaluationStep.sparesBindings steps tame).1
  rintro first second third ⟨earlier, sparesFirst⟩ ⟨later, sparesSecond⟩
  exact ⟨later ++ earlier, sparesFirst.trans sparesSecond⟩

/-- Bindings are left alone by whatever changes nothing but heap, stack and journal. -/
theorem SameSurroundings.leavesAlone
    (same : SameSurroundings before after)
    {staying : List Handle}
    (entries : staying <:+ after.stack.entries)
    (keeps : Heap.Keeps staying before.heap after.heap) :
    LeavesAlone before staying NoName after where
  entries := entries
  bindings := by
    intro name _
    rw [same.environment]
  stillBound := by
    intro name isBound
    rwa [same.environment]
  reachedFromEntries := keeps
  reachedFromBindings := by
    intro name value _ found
    refine same.keepsBound.of_subset fun root member => ?_
    rw [List.mem_singleton.mp member]
    exact Environment.mem_values_of_get? found

/-- An answer that was reached by allocations leaves alone what the entries below it reach. -/
theorem Answers.leavesAlone
    {below : List Handle}
    {result : Except Error Handle}
    (answers : Answers operations before.heap below result after)
    (allocates : AllocationSteps operations before after)
    (tame : before.Tame operations) :
    LeavesAlone before below NoName after := by
  refine (allocates.sameSurroundings tame).leavesAlone ?_ answers.keeps
  cases result with
  | ok handle =>
      rw [(answers.value handle rfl).1]
  | error error =>
      exact (answers.failure error rfl).2

theorem allocate_leavesAlone
    (consistent : machine.heap.Consistent)
    (object : Object) :
    LeavesAlone machine machine.stack.entries NoName (allocate object machine).2 := by
  have counted := consistent.toCounted
  have anything : machine.Tame fun _ => True :=
    ⟨consistent, fun _ _ _ _ _ => trivial⟩
  have allocates : AllocationSteps (fun _ => True) machine (allocate object machine).2 :=
    OnlyAllocates.allocate (fun _ _ => trivial) machine anything
  have same := allocates.sameSurroundings anything
  rcases allocate_cases consistent object with
    ⟨failed, _⟩ | ⟨handle, after, succeeded, placed, sameEntries, _⟩
  · obtain ⟨_, sameStack, _⟩ := reserved_frame machine
    rw [failed] at same ⊢
    refine same.leavesAlone ?_ (keeps_entries (keeps_reserved counted))
    rw [sameStack]
  · rw [succeeded] at same ⊢
    refine same.leavesAlone ?_ (keeps_entries (placed.keeps counted))
    rw [sameEntries]

theorem collect_leavesAlone
    (counted : machine.heap.Counted) :
    LeavesAlone machine machine.stack.entries NoName (collect machine).2 := by
  rw [collect_eq counted]
  exact (sameSurroundings_collected counted).leavesAlone (List.suffix_refl _)
    (keeps_entries (keeps_sweptHeap counted))

theorem read_leavesAlone
    (orderly : machine.Orderly operations)
    (reader : Reader) :
    LeavesAlone machine machine.stack.entries NoName (reader.read machine).2 := by
  have holds := (reader.read_delivers orderly).1
  refine (holds.allocates.sameSurroundings orderly.tame).leavesAlone ?_ holds.keeps
  rw [holds.entries]

theorem pushAll_eq (handles : List Handle) (machine : Machine) :
    pushAll handles machine =
      (.ok (), machine.withEntries (handles.reverse ++ machine.stack.entries)) := by
  induction handles generalizing machine with
  | nil =>
      rfl
  | cons handle rest inductionHypothesis =>
      have unfolded : pushAll (handle :: rest) = (push handle >>= fun _ => pushAll rest) :=
        rfl
      rw [unfolded, Transition.bind_apply, push_eq]
      simp only [inductionHypothesis, entries_withEntries, List.reverse_cons, List.append_assoc,
        List.singleton_append]
      rfl

theorem WellFormed.pushedAll
    (wellFormed : machine.WellFormed)
    {items : List Handle}
    (occupied : ∀ item ∈ items, machine.heap.isOccupied item = true) :
    (machine.withEntries (items.reverse ++ machine.stack.entries)).WellFormed := by
  refine wellFormed.withEntries fun entry member => ?_
  rcases List.mem_append.mp member with isItem | isBelow
  · exact occupied entry (List.mem_reverse.mp isItem)
  · exact wellFormed.entriesOccupied entry isBelow

theorem consAll_onlyAllocates
    (tail : Handle)
    (items : List Handle) :
    OnlyAllocates operations (consAll tail items) := by
  induction items generalizing tail with
  | nil =>
      exact .pure tail
  | cons item earlier inductionHypothesis =>
      exact (OnlyAllocates.push item).bind fun _ => (OnlyAllocates.push tail).bind fun _ =>
        OnlyAllocates.consFromStack.bind fun pair => inductionHypothesis pair

/-- One turn of the loop: an item and the tail are pushed and become the next tail. -/
theorem consAll_cons
    (tail item : Handle)
    (earlier : List Handle)
    (machine : Machine) :
    consAll tail (item :: earlier) machine =
      (consFromStack >>= fun pair => consAll pair earlier : Action Handle)
        (machine.withEntries (tail :: item :: machine.stack.entries)) := by
  simp only [consAll, Transition.bind_apply, push_eq]
  rfl

/-- Pairs that are put in front of a tail answer as long as their items lie on the stack. -/
theorem consAll_answers
    (orderly : machine.Orderly operations)
    {tail : Handle}
    {items : List Handle}
    (tailOccupied : machine.heap.isOccupied tail = true)
    (onStack : ∀ item ∈ items, item ∈ machine.stack.entries) :
    Answers operations machine.heap machine.stack.entries
      (consAll tail items machine).1 (consAll tail items machine).2 := by
  induction items generalizing machine tail with
  | nil =>
      exact .unchanged orderly tailOccupied
  | cons item earlier inductionHypothesis =>
      have itemOccupied : machine.heap.isOccupied item = true :=
        orderly.entriesOccupied item (onStack item List.mem_cons_self)
      have pushed := (orderly.push itemOccupied).push tailOccupied
      have answers :
          Answers operations machine.heap machine.stack.entries
            (consFromStack (machine.withEntries (tail :: item :: machine.stack.entries))).1
            (consFromStack (machine.withEntries (tail :: item :: machine.stack.entries))).2 :=
        @consFromStack_answers operations _ pushed item tail machine.stack.entries rfl
      rw [consAll_cons, Transition.bind_apply]
      generalize consFromStack (machine.withEntries (tail :: item :: machine.stack.entries)) =
        consed at answers ⊢
      obtain ⟨result, between⟩ := consed
      cases result with
      | error error =>
          exact answers
      | ok pair =>
          obtain ⟨sameEntries, pairOccupied⟩ := answers.value pair rfl
          refine answers.trans (inductionHypothesis answers.orderly pairOccupied ?_)
          intro other member
          rw [sameEntries]
          exact onStack other (List.mem_cons_of_mem item member)

theorem list_onlyAllocates (items : List Handle) : OnlyAllocates operations (list items) := by
  have pushes : OnlyAllocates operations (pushAll items) :=
    .of_entries fun machine => ⟨_, by rw [pushAll_eq]⟩
  exact pushes.bind fun _ => (OnlyAllocates.allocate_uncallable rfl).bind fun empty =>
    (consAll_onlyAllocates empty items.reverse).bind fun result =>
      (OnlyAllocates.discard items.length).bind fun _ => .pure result

/-- The items of a list are on the stack until the list is complete. -/
theorem list_answers
    (orderly : machine.Orderly operations)
    {items : List Handle}
    (occupied : ∀ item ∈ items, machine.heap.isOccupied item = true) :
    Answers operations machine.heap machine.stack.entries
      (list items machine).1 (list items machine).2 := by
  have pushed :
      (machine.withEntries (items.reverse ++ machine.stack.entries)).Orderly operations :=
    ⟨orderly.toWellFormed.pushedAll occupied, orderly.runsOnly⟩
  have empties := @allocate_answers operations _ pushed .nil rfl rfl
  simp only [list, Transition.bind_apply, pushAll_eq]
  generalize allocate .nil _ = allocated at empties ⊢
  obtain ⟨result, between⟩ := allocated
  cases result with
  | error error =>
      exact empties.failure_below
  | ok empty =>
      obtain ⟨sameEntries, emptyOccupied⟩ := empties.value empty rfl
      have conses := @consAll_answers operations between empties.orderly empty items.reverse
        emptyOccupied fun item member => by
          rw [sameEntries]
          exact List.mem_append_left _ member
      have answers := empties.trans conses
      simp only
      generalize consAll empty items.reverse between = consed at answers ⊢
      obtain ⟨result, after⟩ := consed
      cases result with
      | error error =>
          exact answers.failure_below
      | ok result =>
          obtain ⟨last, discarded⟩ := discard_append (answers.value result rfl).1
          rw [List.length_reverse] at discarded
          simp only [discarded, Transition.pure_apply]
          exact answers.value_below

/-- An evaluation leaves alone the entries below it and the names that it does not bind. -/
theorem evaluate_leavesAlone
    (orderly : machine.Orderly IsBuiltin)
    (library : Library)
    (limit : Nat)
    {expression : Handle}
    (reached : machine.heap.Reaches machine.stack.entries expression) :
    ((evaluator library limit).evaluate expression).Ensures machine fun _ after =>
      ∃ events,
        after.journal = events ++ machine.journal ∧
          LeavesAlone machine machine.stack.entries (BoundIn events) after := by
  have safe := evaluator_safe (disciplined_builtins library) limit
  intro result after ran
  have answers := safe machine expression orderly reached result after ran
  have steps := OnlyEvaluates.compositional.evaluator library limit expression machine orderly.tame
    result after ran
  obtain ⟨events, spares⟩ := steps.sparesBindings orderly.tame
  refine ⟨events, spares.journal, ?_, spares.others, ?_, answers.keeps, spares.keeps⟩
  · cases result with
    | ok value =>
        rw [(answers.value value rfl).1]
    | error error =>
        exact (answers.failure error rfl).2
  · intro name wasBound
    by_cases isBound : BoundIn events name
    · exact spares.bound name isBound
    · rwa [spares.others name isBound]

/--
Allocation stability, on an orderly machine with builtin operations, whether the
operation succeeds or fails: an allocation, the replacement of two entries by their
pair, the construction of a list, a collection, a read, and an evaluation that returns
leave every object alone that a remaining entry reaches or a name that they do not
bind.  Only an evaluation binds names, and no operation ever unbinds one.
-/
theorem allocation_stable
    (orderly : machine.Orderly IsBuiltin) :
    (∀ object,
      LeavesAlone machine machine.stack.entries NoName (allocate object machine).2) ∧
    (∀ car cdr below,
      machine.stack.entries = cdr :: car :: below →
      LeavesAlone machine below NoName (consFromStack machine).2) ∧
    (∀ items,
      (∀ item ∈ items, machine.heap.isOccupied item = true) →
      LeavesAlone machine machine.stack.entries NoName (list items machine).2) ∧
    LeavesAlone machine machine.stack.entries NoName (collect machine).2 ∧
    (∀ reader : Reader,
      LeavesAlone machine machine.stack.entries NoName (reader.read machine).2) ∧
    ∀ library limit expression,
      machine.heap.Reaches machine.stack.entries expression →
      ((evaluator library limit).evaluate expression).Ensures machine fun _ after =>
        ∃ events,
          after.journal = events ++ machine.journal ∧
            LeavesAlone machine machine.stack.entries (BoundIn events) after := by
  have tame := orderly.tame
  refine ⟨?_, ?_, ?_, ?_, ?_, ?_⟩
  · intro object
    exact allocate_leavesAlone orderly.consistent object
  · intro car cdr below entries
    exact (consFromStack_answers orderly entries).leavesAlone
      (OnlyAllocates.consFromStack machine tame) tame
  · intro items occupied
    exact (list_answers orderly occupied).leavesAlone (list_onlyAllocates items machine tame) tame
  · exact collect_leavesAlone orderly.consistent.toCounted
  · intro reader
    exact read_leavesAlone orderly reader
  · intro library limit expression reached
    exact evaluate_leavesAlone orderly library limit reached

/-- A full machine on which the top entry is the expression `(define x new)`. -/
def rebinding : Machine where
  heap :=
    { slots :=
        #[some ⟨.specialForm "define" (.builtin .definition), false⟩,
          some ⟨.symbol "x", false⟩, some ⟨.nil, false⟩, some ⟨.symbol "new", false⟩,
          some ⟨.pair (Handle.ofIndex 3) (Handle.ofIndex 2), false⟩,
          some ⟨.pair (Handle.ofIndex 1) (Handle.ofIndex 4), false⟩,
          some ⟨.pair (Handle.ofIndex 0) (Handle.ofIndex 5), false⟩,
          some ⟨.symbol "kept", false⟩, some ⟨.symbol "old", false⟩]
      last := some 8
      live := 9
      initialThreshold := 1
      threshold := 9 }
  environment :=
    (Environment.empty.define "y" (Handle.ofIndex 7)).define "x" (Handle.ofIndex 8)
  stack := OperandStack.empty.push (Handle.ofIndex 6)
  eagerDefinitions := false
  diagnostics := []
  collections := 0
  journal := []

theorem rebinding_orderly : rebinding.Orderly IsBuiltin :=
  .of_slots ⟨⟨by decide, by decide, by decide, by decide⟩, by decide, by decide⟩ (by decide)
    (by decide)

/-- The void goes where the old value of the name was, which no other name reached. -/
theorem rebinding_answers :
    ∃ after,
      (evaluator Library.empty 5).evaluate (Handle.ofIndex 6) rebinding =
          some (.ok (Handle.ofIndex 8), after) ∧
        after.heap.get? (Handle.ofIndex 8) = some .void ∧
        after.journal.filterMap boundName? = ["x"] :=
  Run.exists_value_of_any (by decide +kernel)

theorem allocation_stable_rebinding :
    rebinding.Orderly IsBuiltin ∧
      ∃ after,
        (evaluator Library.empty 5).evaluate (Handle.ofIndex 6) rebinding =
            some (.ok (Handle.ofIndex 8), after) ∧
          after.heap.get? (Handle.ofIndex 8) = some .void ∧
          after.environment.get? "y" = some (Handle.ofIndex 7) ∧
          after.heap.get? (Handle.ofIndex 7) = some (.symbol "kept") := by
  obtain ⟨after, answered, isVoid, boundNames⟩ := rebinding_answers
  have reachedExpression :
      rebinding.heap.Reaches rebinding.stack.entries (Handle.ofIndex 6) :=
    rebinding_orderly.toWellFormed.reaches_entry (by decide)
  obtain ⟨events, journal, alone⟩ :=
    (allocation_stable rebinding_orderly).2.2.2.2.2 Library.empty 5 (Handle.ofIndex 6)
      reachedExpression _ after answered
  have allEvents : after.journal = events :=
    journal.trans (List.append_nil events)
  have notBound : ¬BoundIn events "y" := by
    rw [BoundIn, ← allEvents, boundNames]
    decide
  have found : rebinding.environment.get? "y" = some (Handle.ofIndex 7) := by
    decide
  have reached : rebinding.heap.Reaches [Handle.ofIndex 7] (Handle.ofIndex 7) :=
    .root (List.mem_singleton_self _) (by decide)
  exact ⟨rebinding_orderly, after, answered, isVoid, (alone.bindings "y" notBound).trans found,
    (alone.reachedFromBindings "y" _ notBound found _ reached).trans (by decide)⟩

end Machine

end ArenaLisp
