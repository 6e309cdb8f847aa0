import ArenaLisp.Proofs.Compositional

namespace ArenaLisp

/-!
# Nothing reads the history

Diagnostics are remembered and events are noted, and nothing but the one who takes them
looks at either.  So a run does the same whatever has been remembered and noted before:
it has the same answer, makes the same changes, and notes the same events.

Nothing is assumed of the machine but that its callables run builtin operations; its
counters may be wrong and its handles may dangle.
-/

namespace Machine

variable {machine after : Machine}

/-- Callables are not made by taking objects away. -/
theorem RunsOnly.of_subset
    {operations : Operation → Prop}
    (runsOnly : machine.RunsOnly operations)
    (subset :
      ∀ handle object,
        after.heap.get? handle = some object → machine.heap.get? handle = some object) :
    after.RunsOnly operations :=
  fun handle object callable found => runsOnly handle object callable (subset handle object found)

end Machine

namespace Heap

/-- A release takes at most one object away. -/
theorem get?_of_release
    {heap : Heap}
    {handle other : Handle}
    {object : Object}
    (found : (release handle heap).2.get? other = some object) :
    heap.get? other = some object := by
  cases occupied : heap.isOccupied handle with
  | false =>
      rwa [release_empty occupied] at found
  | true =>
      rw [get?, slotAt?_release occupied] at found
      split at found
      · cases found
      · exact found

/-- A placement adds at most one object, though maybe under several handles. -/
theorem get?_of_place
    {heap : Heap}
    {handle : Handle}
    {new object : Object}
    (found : (place new heap).2.get? handle = some object) :
    object = new ∨ heap.get? handle = some object := by
  cases free : heap.nextFree? with
  | none =>
      rw [place_full new free] at found
      exact .inr found
  | some index =>
      have inside := lt_capacity_of_isFreeAt (isFreeAt_of_findFree? free)
      rw [place_found new free, get?, slotAt?, join_getElem?_setIfInBounds _ _ _ _ inside] at found
      split at found
      · exact .inl (Option.some.inj found).symm
      · exact .inr found

end Heap

namespace Run

open Machine

/-- The same answer, or none, after the same new events in front of two journals. -/
def SameAnswer
    {Result : Type}
    (journal other : List Event)
    (first second : Option (Except Error Result × Machine)) :
    Prop :=
  (first = none ∧ second = none) ∨
    ∃ result after events later,
      first = some (result, after) ∧
        second = some (result, after.withHistory later (events ++ other)) ∧
        after.journal = events ++ journal ∧
        after.RunsOnly IsBuiltin

/-- A run of a machine with builtin operations that does the same with another history. -/
def NeverReadsHistory {Result : Type} (run : Run Result) : Prop :=
  ∀ machine diagnostics journal,
    Machine.RunsOnly IsBuiltin machine →
    SameAnswer machine.journal journal (run machine)
      (run (machine.withHistory diagnostics journal))

/-- What was noted before counts as new for those who have not seen it. -/
theorem SameAnswer.after_events
    {Result : Type}
    {events journal other : List Event}
    {first second : Option (Except Error Result × Machine)}
    (same : SameAnswer (events ++ journal) (events ++ other) first second) :
    SameAnswer journal other first second := by
  rcases same with none | ⟨result, after, newer, later, ran, otherRan, noted, runsOnly⟩
  · exact .inl none
  · rw [← List.append_assoc] at otherRan noted
    exact .inr ⟨result, after, newer ++ events, later, ran, otherRan, noted, runsOnly⟩

/-- An answer with one history tells the answer with the other. -/
theorem SameAnswer.of_answer
    {Result : Type}
    {journal other : List Event}
    {first second : Option (Except Error Result × Machine)}
    (same : SameAnswer journal other first second)
    {result : Except Error Result}
    {after : Machine}
    (answered : first = some (result, after)) :
    ∃ events later,
      second = some (result, after.withHistory later (events ++ other)) ∧
        after.journal = events ++ journal ∧
        after.RunsOnly IsBuiltin := by
  subst answered
  rcases same with ⟨none, _⟩ | ⟨_, _, events, later, ⟨⟩, otherAnswered, noted, runsOnly⟩
  · cases none
  · exact ⟨events, later, otherAnswered, noted, runsOnly⟩

namespace NeverReadsHistory

variable {First Result : Type}

theorem exhausted : NeverReadsHistory (Run.exhausted : Run Result) :=
  fun _ _ _ _ => .inl ⟨rfl, rfl⟩

theorem pure (result : Result) : NeverReadsHistory (Pure.pure result : Run Result) :=
  fun machine diagnostics _ runsOnly =>
    .inr ⟨.ok result, machine, [], diagnostics, rfl, rfl, rfl, runsOnly⟩

theorem throw (error : Error) : NeverReadsHistory (throw error : Run Result) :=
  fun machine diagnostics _ runsOnly =>
    .inr ⟨.error error, machine, [], diagnostics, rfl, rfl, rfl, runsOnly⟩

theorem bindReturned
    {run : Run First}
    {continuation : First → Run Result}
    (first : NeverReadsHistory run)
    (returned : ∀ value, run.CanReturn value → NeverReadsHistory (continuation value)) :
    NeverReadsHistory (run >>= continuation) := by
  intro machine diagnostics journal runsOnly
  rw [Run.bind_apply, Run.bind_apply]
  rcases first machine diagnostics journal runsOnly with
    ⟨none, otherNone⟩ | ⟨result, between, events, later, ran, otherRan, noted, runsOnlyBetween⟩
  · rw [none, otherNone]
    exact .inl ⟨rfl, rfl⟩
  · rw [ran, otherRan]
    cases result with
    | error error =>
        exact .inr ⟨_, between, events, later, rfl, rfl, noted, runsOnlyBetween⟩
    | ok value =>
        have goesOn := returned value ⟨machine, between, ran⟩ between later (events ++ journal)
          runsOnlyBetween
        rw [noted] at goesOn
        exact goesOn.after_events

theorem tryCatch
    {run : Run Result}
    {handler : Error → Run Result}
    (first : NeverReadsHistory run)
    (failed : ∀ error, NeverReadsHistory (handler error)) :
    NeverReadsHistory (tryCatch run handler) := by
  intro machine diagnostics journal runsOnly
  rw [Run.tryCatch_apply, Run.tryCatch_apply]
  rcases first machine diagnostics journal runsOnly with
    ⟨none, otherNone⟩ | ⟨result, between, events, later, ran, otherRan, noted, runsOnlyBetween⟩
  · rw [none, otherNone]
    exact .inl ⟨rfl, rfl⟩
  · rw [ran, otherRan]
    cases result with
    | ok value =>
        exact .inr ⟨_, between, events, later, rfl, rfl, noted, runsOnlyBetween⟩
    | error error =>
        have goesOn := failed error between later (events ++ journal) runsOnlyBetween
        rw [noted] at goesOn
        exact goesOn.after_events

/-- Actions are put together as runs are. -/
theorem actionBind
    {action : Action First}
    {continuation : First → Action Result}
    (first : NeverReadsHistory (liftM action))
    (returned : ∀ value, NeverReadsHistory (liftM (continuation value))) :
    NeverReadsHistory (liftM (action >>= continuation)) := by
  rw [Run.liftM_bind]
  exact bindReturned first fun value _ => returned value

/-- The machine may be asked for anything but its history. -/
theorem asking
    {continuation : Machine → Action Result}
    (ignores : IgnoresHistory continuation)
    (answered : ∀ machine, NeverReadsHistory (liftM (continuation machine))) :
    NeverReadsHistory (liftM (get >>= continuation : Action Result)) := by
  intro machine diagnostics journal runsOnly
  have same := answered machine machine diagnostics journal runsOnly
  simp only [Run.liftM_apply, Transition.bind_apply, Transition.get_apply] at same ⊢
  rwa [ignores]

/-- A change that spares the history and makes no callable. -/
theorem modifying
    {change : Machine → Machine}
    (spares :
      ∀ machine diagnostics journal,
        change (machine.withHistory diagnostics journal) =
          (change machine).withHistory diagnostics journal)
    (notes : ∀ machine, (change machine).journal = machine.journal)
    (subset :
      ∀ machine handle object,
        (change machine).heap.get? handle = some object →
        machine.heap.get? handle = some object) :
    NeverReadsHistory (liftM (modify change : Action Unit)) := by
  intro machine diagnostics journal runsOnly
  refine .inr ⟨.ok (), change machine, [], diagnostics, rfl, ?_, notes machine,
    runsOnly.of_subset (subset machine)⟩
  rw [Run.liftM_apply, Transition.modify_apply, spares]
  rfl

theorem note (event : Event) : NeverReadsHistory (liftM (note event)) :=
  fun machine diagnostics _ runsOnly =>
    .inr ⟨.ok (), machine.record event, [event], diagnostics, rfl, rfl, rfl, runsOnly⟩

theorem onStack (step : Transition OperandStack Result) :
    NeverReadsHistory (liftM (onStack step)) :=
  fun machine diagnostics _ runsOnly =>
    .inr ⟨(step machine.stack).1, { machine with stack := (step machine.stack).2 }, [],
      diagnostics, rfl, rfl, rfl, runsOnly⟩

theorem free (handle : Handle) : NeverReadsHistory (liftM (free handle)) := by
  refine asking (fun _ _ _ => rfl) fun machine => ?_
  split
  · refine actionBind (modifying (fun _ _ _ => rfl) (fun _ => rfl) fun _ _ _ => id) fun _ => ?_
    refine actionBind (fun machine diagnostics _ runsOnly => ?_) fun _ => pure _
    exact .inr ⟨_, _, [], diagnostics, rfl, rfl, rfl,
      runsOnly.of_subset fun _ _ => Heap.get?_of_release⟩
  · exact throw _

theorem freeAll (handles : List Handle) : NeverReadsHistory (liftM (freeAll handles)) := by
  induction handles with
  | nil =>
      exact pure _
  | cons handle handles inductionHypothesis =>
      have step :
          Machine.freeAll (handle :: handles) =
            Machine.free handle >>= fun _ => Machine.freeAll handles :=
        rfl
      rw [step]
      exact actionBind (free handle) fun _ => inductionHypothesis

theorem markRoots : NeverReadsHistory (liftM markRoots) := by
  refine actionBind (modifying (fun _ _ _ => rfl) (fun _ => rfl) ?_) fun _ =>
    asking (fun _ _ _ => rfl) fun _ => pure _
  intro machine handle object found
  rwa [Heap.get?_markFrom] at found

theorem finishCollection (liveBefore freed : Nat) :
    NeverReadsHistory (liftM (finishCollection liveBefore freed)) := by
  intro machine diagnostics journal runsOnly
  refine .inr ⟨_, _, [_], diagnostics, rfl, rfl, rfl, runsOnly.of_subset fun handle object found => ?_⟩
  rwa [← Heap.get?_clearMarks]

theorem collect : NeverReadsHistory (liftM collect) :=
  asking (fun _ _ _ => rfl) fun _ =>
    actionBind markRoots fun garbage =>
      actionBind (freeAll garbage) fun _ => actionBind (finishCollection _ _) fun _ => pure _

theorem reserve : NeverReadsHistory (liftM reserve) := by
  refine asking (fun _ _ _ => rfl) fun _ => ?_
  split
  · exact actionBind collect fun _ => pure _
  · exact pure _

theorem place
    {object : Object}
    (uncallable : object.callable? = none) :
    NeverReadsHistory (liftM (place object)) := by
  refine actionBind (fun machine diagnostics _ runsOnly => ?_) fun handle =>
    actionBind (note _) fun _ => pure _
  refine .inr ⟨_, _, [], diagnostics, rfl, rfl, rfl, fun handle placed callable found isCallable => ?_⟩
  rcases Heap.get?_of_place found with rfl | before
  · rw [uncallable] at isCallable
    cases isCallable
  · exact runsOnly handle placed callable before isCallable

theorem allocate
    {object : Object}
    (uncallable : object.callable? = none) :
    NeverReadsHistory (liftM (allocate object)) :=
  actionBind reserve fun _ => place uncallable

theorem consFromStack : NeverReadsHistory (liftM consFromStack) :=
  actionBind reserve fun _ =>
    actionBind (onStack _) fun _ => actionBind (onStack _) fun _ => place rfl

theorem cleanup
    {action : Action First}
    (result : First → Result)
    (never : NeverReadsHistory (liftM action)) :
    NeverReadsHistory (liftM (cleaningUp result action)) := by
  intro machine diagnostics journal runsOnly
  rcases answered : action machine with ⟨answer, after⟩
  obtain ⟨events, later, otherAnswered, noted, runsOnlyAfter⟩ :=
    (never machine diagnostics journal runsOnly).of_answer (congrArg some answered)
  simp only [Run.liftM_apply, cleaningUp, Option.some.injEq] at otherAnswered ⊢
  rw [answered, otherAnswered]
  cases answer with
  | ok value =>
      exact .inr ⟨_, after, events, later, rfl, rfl, noted, runsOnlyAfter⟩
  | error error =>
      exact .inr ⟨_, _, events, later, rfl, rfl, noted, runsOnlyAfter⟩

/-- Reading is put together from allocations. -/
theorem compositionalActions :
    CompositionalActions fun _ action => NeverReadsHistory (liftM action) where
  pure := pure
  throw := throw
  bind := actionBind
  push handle := onStack fun stack => (.ok (), stack.push handle)
  allocate := allocate
  consFromStack := consFromStack
  cleanup := cleanup

theorem recover (error : Error) : NeverReadsHistory (liftM (recover error)) := by
  unfold Machine.recover
  split
  · exact throw error
  · refine actionBind (fun machine diagnostics _ runsOnly => ?_) fun _ =>
      actionBind (note _) fun _ => allocate rfl
    exact .inr ⟨_, _, [], _, rfl, rfl, rfl, runsOnly⟩

theorem bindName (name : String) (value : Handle) :
    NeverReadsHistory (liftM (bindName name value)) :=
  actionBind (modifying (fun _ _ _ => rfl) (fun _ => rfl) fun _ _ _ => id) fun _ => note _

theorem look
    (handle : Handle)
    {continuation : Object → Run Result}
    (found :
      ∀ object,
        (∀ callable, object.callable? = some callable → IsBuiltin callable.operation) →
        NeverReadsHistory (continuation object)) :
    NeverReadsHistory ((liftM (look handle) : Run Object) >>= continuation) := by
  intro machine diagnostics journal runsOnly
  cases isObject : machine.heap.get? handle with
  | none =>
      have fails
          (other : Machine)
          (sameHeap : other.heap = machine.heap) :
          Machine.look handle other = (.error (.internal (.danglingHandle handle)), other) := by
        simp [Machine.look, Transition.observe, object, sameHeap, isObject]
      rw [Run.bind_apply, Run.bind_apply, Run.liftM_apply, Run.liftM_apply, fails machine rfl,
        fails (machine.withHistory diagnostics journal) rfl]
      exact .inr ⟨_, machine, [], diagnostics, rfl, rfl, rfl, runsOnly⟩
  | some object =>
      have known := runsOnly handle object
      rw [Run.bind_apply, Run.bind_apply, Run.liftM_apply, Run.liftM_apply, look_found isObject,
        @look_found (machine.withHistory diagnostics journal) _ _ isObject]
      exact found object (fun callable => known callable isObject) machine diagnostics journal
        runsOnly

/-- Never to read the history is a property of runs by composition. -/
theorem compositional : Compositional fun _ run => NeverReadsHistory run where
  exhausted _ := exhausted
  pure := pure
  throw := throw
  bindReturned := bindReturned
  tryCatch := tryCatch
  observe ignores := fun machine diagnostics journal runsOnly =>
    .inr ⟨_, machine, [], diagnostics, rfl,
      congrArg (fun seen => some (seen, machine.withHistory diagnostics journal))
        (ignores machine diagnostics journal),
      rfl, runsOnly⟩
  onStack := onStack
  allocate uncallable _ := allocate uncallable
  evaluating expression := note (.evaluating expression)
  recover := recover
  bindName := bindName
  look := look
  next := compositionalActions.nextExpression

/-- Whoever has seen a part of the journal can go on without it. -/
theorem answers_alike
    {run : Run Result}
    (never : NeverReadsHistory run)
    {machine after : Machine}
    (runsOnly : machine.RunsOnly IsBuiltin)
    {pending seen : List Event}
    (noted : machine.journal = pending ++ seen)
    (diagnostics : List Error)
    {result : Except Error Result}
    (answered : run machine = some (result, after)) :
    ∃ new later,
      run (machine.withHistory diagnostics pending) = some (result, after.withHistory later new) ∧
        after.journal = new ++ seen ∧
        after.RunsOnly IsBuiltin := by
  obtain ⟨events, later, otherAnswered, newer, runsOnlyAfter⟩ :=
    (never machine diagnostics pending runsOnly).of_answer answered
  rw [noted, ← List.append_assoc] at newer
  exact ⟨events ++ pending, later, otherAnswered, newer, runsOnlyAfter⟩

end NeverReadsHistory

end Run

end ArenaLisp
