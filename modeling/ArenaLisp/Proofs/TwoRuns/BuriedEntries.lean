import ArenaLisp.Proofs.Discipline

namespace ArenaLisp

/-!
# Buried entries

Two machines that differ in nothing but the entries at the bottom of their stacks.  If
these reach the same slots, then every collection frees the same slots on both machines,
and an allocation places its object in the same slot.
-/

namespace Heap

/-- Two lists of occupied handles that reach the same slots. -/
structure ReachAlike (heap : Heap) (first second : List Handle) : Prop where
  firstOccupied : ∀ handle ∈ first, heap.isOccupied handle = true
  secondOccupied : ∀ handle ∈ second, heap.isOccupied handle = true
  same : ∀ handle, heap.Reaches first handle ↔ heap.Reaches second handle

namespace ReachAlike

variable {heap : Heap} {first second : List Handle}

/-- A handle may be exchanged for another one if both are reached from those below. -/
theorem of_reached
    {one other : Handle}
    {above below : List Handle}
    (occupied : ∀ handle ∈ above ++ one :: below, heap.isOccupied handle = true)
    (oneReached : heap.Reaches below one)
    (otherReached : heap.Reaches below other) :
    heap.ReachAlike (above ++ one :: below) (above ++ other :: below) := by
  have more
      {left right : Handle}
      (leftReached : heap.Reaches below left)
      (handle : Handle)
      (reached : heap.Reaches (above ++ left :: below) handle) :
      heap.Reaches (above ++ right :: below) handle := by
    refine Reaches.mono (fun root member rootOccupied => ?_) reached
    rcases List.mem_append.mp member with inAbove | fromLeft
    · exact .root (List.mem_append_left _ inAbove) rootOccupied
    rcases List.mem_cons.mp fromLeft with rfl | inBelow
    · refine leftReached.of_subset fun _ inBelow => ?_
      exact List.mem_append_right above (List.mem_cons_of_mem right inBelow)
    · exact .root (List.mem_append_right above (List.mem_cons_of_mem right inBelow)) rootOccupied
  refine ⟨occupied, ?_, fun handle => ⟨more oneReached handle, more otherReached handle⟩⟩
  rw [List.forall_mem_append, List.forall_mem_cons] at occupied ⊢
  exact ⟨occupied.1, otherReached.isOccupied, occupied.2.2⟩

/-- What keeps the slots that the handles reach keeps them reaching the same. -/
theorem keeps
    (alike : heap.ReachAlike first second)
    (closed : heap.Closed)
    {after : Heap}
    (keeps : Keeps first heap after) :
    after.ReachAlike first second := by
  have keepsSecond : Keeps second heap after :=
    fun handle reached => keeps handle ((alike.same handle).mpr reached)
  refine ⟨?_, ?_, fun handle => ?_⟩
  · intro handle member
    exact (keeps.reaches (.root member (alike.firstOccupied handle member))).isOccupied
  · intro handle member
    exact (keepsSecond.reaches (.root member (alike.secondOccupied handle member))).isOccupied
  · rw [keeps.reaches_iff closed alike.firstOccupied, alike.same,
      keepsSecond.reaches_iff closed alike.secondOccupied]

end ReachAlike

end Heap

namespace Machine

variable {first second : List Handle} {machine one other : Machine}

section Collections

variable
  {entries : List Handle}
  (bounded : machine.heap.capacity ≤ Handle.bound)
  (sameReachable :
    ∀ handle, (machine.withEntries entries).Reachable handle ↔ machine.Reachable handle)

include bounded sameReachable

theorem collected_withEntries :
    (machine.withEntries entries).collected = machine.collected.withEntries entries := by
  have sameMarked :
      (machine.withEntries entries).heap.markFrom (machine.withEntries entries).roots =
        machine.heap.markFrom machine.roots :=
    Heap.markFrom_congr bounded sameReachable
  have sameGarbage : (machine.withEntries entries).garbage = machine.garbage := by
    rw [garbage, garbage, sameMarked]
  have sameSwept : (machine.withEntries entries).sweptHeap = machine.sweptHeap := by
    rw [sweptHeap, sweptHeap, sameMarked, sameGarbage]
  have sameSummary :
      (machine.withEntries entries).collectionSummary = machine.collectionSummary := by
    rw [collectionSummary, collectionSummary, sameSwept, sameGarbage]
    rfl
  rw [collected, collected, sameSwept, sameSummary]
  rfl

theorem reserved_withEntries :
    (machine.withEntries entries).reserved = machine.reserved.withEntries entries := by
  rw [reserved, reserved, collected_withEntries bounded sameReachable, heap_withEntries]
  split <;> rfl

end Collections

/-- Entries that reach alike leave alike what the whole machine reaches. -/
theorem reachable_above_iff
    (alike : machine.heap.ReachAlike first second)
    {upper : List Handle}
    (entries : machine.stack.entries = upper ++ first)
    (handle : Handle) :
    (machine.withEntries (upper ++ second)).Reachable handle ↔ machine.Reachable handle := by
  have sameRoots : machine.withEntries (upper ++ first) = machine := by
    rw [← entries, withEntries_self]
  have more
      {left right : List Handle}
      (reaches : ∀ root, machine.heap.Reaches left root → machine.heap.Reaches right root)
      (reached : (machine.withEntries (upper ++ left)).Reachable handle) :
      (machine.withEntries (upper ++ right)).Reachable handle := by
    refine Heap.Reaches.mono (fun root member occupied => ?_) reached
    rcases mem_roots_iff.mp member with bound | entry
    · exact .root (mem_roots_iff.mpr (.inl bound)) occupied
    · rcases List.mem_append.mp entry with inUpper | inLeft
      · exact .root (mem_roots_iff.mpr (.inr (List.mem_append_left right inUpper))) occupied
      · refine (reaches root (.root inLeft occupied)).of_subset fun later inRight => ?_
        exact mem_roots_iff.mpr (.inr (List.mem_append_right upper inRight))
  refine ⟨fun reached => ?_, fun reached => ?_⟩
  · rw [← sameRoots]
    exact more (fun root => (alike.same root).mpr) reached
  · rw [← sameRoots] at reached
    exact more (fun root => (alike.same root).mp) reached

theorem place_withEntries
    (object : Object)
    (machine : Machine)
    (entries : List Handle) :
    place object (machine.withEntries entries) =
      ((place object machine).1, (place object machine).2.withEntries entries) := by
  simp only [place, Transition.bind_apply, onHeap_apply, heap_withEntries]
  rcases Heap.place object machine.heap with ⟨_ | handle, after⟩ <;> rfl

/-- The same machine with a second list of entries in place of a first one, below all others. -/
def SameAbove (first second : List Handle) (one other : Machine) : Prop :=
  ∃ upper, one.stack.entries = upper ++ first ∧ other = one.withEntries (upper ++ second)

namespace SameAbove

/-- Known entries on one machine are known on the other one, too. -/
theorem eq_withEntries
    (same : SameAbove first second one other)
    {upper : List Handle}
    (entries : one.stack.entries = upper ++ first) :
    other = one.withEntries (upper ++ second) := by
  obtain ⟨left, leftEntries, rfl⟩ := same
  rw [List.append_cancel_right (leftEntries.symm.trans entries)]

/-- The same of two machines with no entries above the buried ones. -/
theorem eq_withEntries_bottom
    (same : SameAbove first second one other)
    (entries : one.stack.entries = first) :
    other = one.withEntries second :=
  @eq_withEntries _ _ _ _ same [] entries

theorem heap (same : SameAbove first second one other) : other.heap = one.heap := by
  obtain ⟨_, _, rfl⟩ := same
  rfl

theorem environment
    (same : SameAbove first second one other) :
    other.environment = one.environment := by
  obtain ⟨_, _, rfl⟩ := same
  rfl

theorem eagerDefinitions
    (same : SameAbove first second one other) :
    other.eagerDefinitions = one.eagerDefinitions := by
  obtain ⟨_, _, rfl⟩ := same
  rfl

theorem found
    (same : SameAbove first second one other)
    {handle : Handle}
    {object : Object}
    (found : one.heap.get? handle = some object) :
    other.heap.get? handle = some object := by
  rwa [same.heap]

/-- A change of machines that pays no attention to their stacks. -/
theorem change
    (same : SameAbove first second one other)
    (change : Machine → Machine)
    (sameEntries : (change one).stack.entries = one.stack.entries)
    (ignores : ∀ entries, change (one.withEntries entries) = (change one).withEntries entries) :
    SameAbove first second (change one) (change other) := by
  obtain ⟨upper, entries, rfl⟩ := same
  exact ⟨upper, sameEntries.trans entries, ignores _⟩

theorem push
    (same : SameAbove first second one other)
    (handle : Handle) :
    SameAbove first second (one.withEntries (handle :: one.stack.entries))
      (other.withEntries (handle :: other.stack.entries)) := by
  obtain ⟨upper, entries, rfl⟩ := same
  exact ⟨handle :: upper, by rw [entries_withEntries, entries, List.cons_append], rfl⟩

/-- Entries above the buried ones may be taken on both machines. -/
theorem popped
    (same : SameAbove first second one other)
    {taken upper : List Handle}
    (entries : one.stack.entries = taken ++ (upper ++ first)) :
    other.stack.entries = taken ++ (upper ++ second) ∧
      SameAbove first second (one.withEntries (upper ++ first))
        (other.withEntries (upper ++ second)) := by
  rw [← List.append_assoc] at entries
  rw [same.eq_withEntries entries, ← List.append_assoc]
  exact ⟨rfl, upper, rfl, rfl⟩

/-- An allocation collects the same on both machines, and finds the same slot. -/
theorem allocate
    (same : SameAbove first second one other)
    (counted : one.heap.Counted)
    (alike : one.heap.ReachAlike first second)
    (object : Object) :
    (Machine.allocate object other).1 = (Machine.allocate object one).1 ∧
      SameAbove first second (Machine.allocate object one).2
        (Machine.allocate object other).2 := by
  obtain ⟨upper, entries, rfl⟩ := same
  have reserves : (one.withEntries (upper ++ second)).reserved = _ :=
    reserved_withEntries counted.capacityBound (reachable_above_iff alike entries)
  have countedOther : (one.withEntries (upper ++ second)).heap.Counted :=
    counted
  rw [allocate_eq countedOther, allocate_eq counted, reserves, place_withEntries,
    place_withEntries, place_withEntries]
  exact ⟨rfl, upper, entries, rfl⟩

theorem recover
    (same : SameAbove first second one other)
    (counted : one.heap.Counted)
    (alike : one.heap.ReachAlike first second)
    (error : Error) :
    (Machine.recover error other).1 = (Machine.recover error one).1 ∧
      SameAbove first second (Machine.recover error one).2 (Machine.recover error other).2 := by
  cases severity : error.isFatal with
  | true =>
      rw [recover_fatal severity, recover_fatal severity]
      exact ⟨rfl, same⟩
  | false =>
      have remembers :
          SameAbove first second (one.remembering error) (other.remembering error) :=
        same.change (fun machine => machine.remembering error) rfl fun _ => rfl
      rw [recover_recoverable severity, recover_recoverable severity]
      exact remembers.allocate counted alike .void

end SameAbove

end Machine

namespace Run

open Machine

variable
  {First Result : Type}
  {first second : List Handle}
  {one other : Machine}

/-- Whatever a run answers on one machine, it answers on the other one, too. -/
def Repeats
    (first second : List Handle)
    (run : Run Result)
    (one other : Machine) :
    Prop :=
  run.Ensures one fun result after =>
    ∃ otherAfter,
      run other = some (result, otherAfter) ∧ SameAbove first second after otherAfter

namespace Repeats

theorem of_eq
    {run same : Run Result}
    {start otherStart : Machine}
    (oneSame : run one = same start)
    (otherSame : run other = same otherStart)
    (repeats : Repeats first second same start otherStart) :
    Repeats first second run one other := by
  refine Ensures.of_eq oneSame (Ensures.mono repeats ?_)
  rintro result after ⟨otherAfter, answered, sameAfter⟩
  exact ⟨otherAfter, otherSame.trans answered, sameAfter⟩

theorem of_answers
    {run : Run Result}
    {answer otherAnswer : Except Error Result × Machine}
    (answered : run one = some answer)
    (otherAnswered : run other = some otherAnswer)
    (same :
      otherAnswer.1 = answer.1 ∧ SameAbove first second answer.2 otherAnswer.2) :
    Repeats first second run one other := by
  refine Ensures.of_answer answered ⟨otherAnswer.2, ?_, same.2⟩
  rw [otherAnswered, ← same.1]

theorem exhausted : Repeats first second (Run.exhausted : Run Result) one other :=
  Ensures.exhausted

theorem pure
    (result : Result)
    (same : SameAbove first second one other) :
    Repeats first second (Pure.pure result : Run Result) one other :=
  .of_answers (pure_apply result one) (pure_apply result other) ⟨rfl, same⟩

theorem lift
    {action : Action Result}
    (same :
      (action other).1 = (action one).1 ∧
        SameAbove first second (action one).2 (action other).2) :
    Repeats first second (liftM action : Run Result) one other :=
  .of_answers (liftM_apply action one) (liftM_apply action other) same

/-- Runs in sequence, with what is ensured of the first one on the first machine. -/
theorem bind
    {run : Run First}
    {continuation : First → Run Result}
    {between : Except Error First → Machine → Prop}
    (firstRepeats : Repeats first second run one other)
    (ensures : run.Ensures one between)
    (returned :
      ∀ value after otherAfter,
        between (.ok value) after →
        SameAbove first second after otherAfter →
        Repeats first second (continuation value) after otherAfter) :
    Repeats first second (run >>= continuation) one other := by
  refine Ensures.bind (Ensures.and firstRepeats ensures) ?_ ?_
  · rintro value after ⟨⟨otherAfter, otherStep, sameAfter⟩, holds⟩
    rw [bind_apply, otherStep]
    exact returned value after otherAfter holds sameAfter
  · rintro error after ⟨⟨otherAfter, otherStep, sameAfter⟩, _⟩
    rw [bind_apply, otherStep]
    exact ⟨otherAfter, rfl, sameAfter⟩

theorem bind_lift
    {action : Action First}
    {continuation : First → Run Result}
    {value : First}
    {after otherAfter : Machine}
    (step : action one = (.ok value, after))
    (otherStep : action other = (.ok value, otherAfter))
    (returned : Repeats first second (continuation value) after otherAfter) :
    Repeats first second ((liftM action : Run First) >>= continuation) one other := by
  refine of_eq ?_ ?_ returned
  · rw [bind_apply, liftM_apply, step]
  · rw [bind_apply, liftM_apply, otherStep]

/-- A run whose errors are handled, with what is ensured of it on the first machine. -/
theorem tryCatch
    {run : Run Result}
    {handler : Error → Run Result}
    {between : Except Error Result → Machine → Prop}
    (firstRepeats : Repeats first second run one other)
    (ensures : run.Ensures one between)
    (failed :
      ∀ error after otherAfter,
        between (.error error) after →
        SameAbove first second after otherAfter →
        Repeats first second (handler error) after otherAfter) :
    Repeats first second (tryCatch run handler) one other := by
  refine Ensures.tryCatch (Ensures.and firstRepeats ensures) ?_ ?_
  · rintro value after ⟨⟨otherAfter, otherStep, sameAfter⟩, _⟩
    rw [tryCatch_apply, otherStep]
    exact ⟨otherAfter, rfl, sameAfter⟩
  · rintro error after ⟨⟨otherAfter, otherStep, sameAfter⟩, holds⟩
    rw [tryCatch_apply, otherStep]
    exact failed error after otherAfter holds sameAfter

end Repeats

end Run

end ArenaLisp
