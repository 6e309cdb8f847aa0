import ArenaLisp.Proofs.Compositional
import Mathlib.Logic.Relation

namespace ArenaLisp

/-!
# Elementary steps

Whatever reading and evaluation do to a machine, they do in a few kinds of steps:
entries move on and off the operand stack, a collection happens if one is due, an
object is placed, an error is remembered, a name is bound, an event is noted.

A relation between machines that holds along each of these steps, and that is
reflexive and transitive, holds between the start of any run and its end.
-/

namespace Machine

/-- Consistent counters, and callables that run operations of a given set. -/
structure Tame (operations : Operation → Prop) (machine : Machine) : Prop where
  consistent : machine.heap.Consistent
  runsOnly : machine.RunsOnly operations

theorem Orderly.tame
    {operations : Operation → Prop}
    {machine : Machine}
    (orderly : machine.Orderly operations) :
    machine.Tame operations :=
  ⟨orderly.consistent, orderly.runsOnly⟩

/-- The machine that has placed an object in a given slot. -/
def placing (machine : Machine) (object : Object) (index : Nat) : Machine :=
  { machine with heap := (Heap.place object machine.heap).2 }.record
    (.placed (Handle.ofIndex index))

/-- A placement without a free slot changes nothing. -/
theorem place_cases (object : Object) (machine : Machine) :
    (place object machine = (.error .outOfMemory, machine) ∧
      machine.heap.nextFree? = none) ∨
      ∃ index,
        place object machine = (.ok (Handle.ofIndex index), machine.placing object index) ∧
          machine.heap.nextFree? = some index := by
  cases found : machine.heap.nextFree? with
  | none =>
      refine .inl ⟨?_, rfl⟩
      simp only [place, Transition.bind_apply, onHeap_apply, Heap.place, found]
  | some index =>
      refine .inr ⟨index, ?_, rfl⟩
      simp only [place, Transition.bind_apply, onHeap_apply, Heap.place, found, note,
        Transition.modify_apply, Transition.pure_apply, placing]

/-- The steps of which allocations, and moves of stack entries, consist. -/
inductive AllocationStep (operations : Operation → Prop) : Machine → Machine → Prop where
  | entries
      (machine : Machine)
      (entries : List Handle) :
      AllocationStep operations machine (machine.withEntries entries)
  | reserving
      (machine : Machine) :
      AllocationStep operations machine machine.reserved
  | placing
      {machine : Machine}
      {object : Object}
      {index : Nat}
      (free : machine.heap.nextFree? = some index)
      (known :
        ∀ callable, object.callable? = some callable → operations callable.operation) :
      AllocationStep operations machine (machine.placing object index)

/-- The steps of which evaluations consist. -/
inductive EvaluationStep (operations : Operation → Prop) : Machine → Machine → Prop where
  | allocating
      {before after : Machine}
      (step : AllocationStep operations before after) :
      EvaluationStep operations before after
  | evaluating
      (machine : Machine)
      (expression : Handle) :
      EvaluationStep operations machine (machine.record (.evaluating expression))
  | remembering
      (machine : Machine)
      (error : Error) :
      EvaluationStep operations machine (machine.remembering error)
  | binding
      (machine : Machine)
      (name : String)
      (value : Handle) :
      EvaluationStep operations machine (machine.binding name value)

/-- One machine is reached from another by steps of allocations. -/
def AllocationSteps (operations : Operation → Prop) : Machine → Machine → Prop :=
  Relation.ReflTransGen (AllocationStep operations)

/-- One machine is reached from another by steps of evaluations. -/
def EvaluationSteps (operations : Operation → Prop) : Machine → Machine → Prop :=
  Relation.ReflTransGen (EvaluationStep operations)

variable
  {operations : Operation → Prop}
  {machine before between after : Machine}

theorem AllocationStep.tame
    (step : AllocationStep operations before after)
    (tame : before.Tame operations) :
    after.Tame operations := by
  cases step with
  | entries =>
      exact ⟨tame.consistent, tame.runsOnly⟩
  | reserving =>
      refine ⟨(reserved_consistent tame.consistent).1, ?_⟩
      intro handle object callable found
      exact tame.runsOnly handle object callable (get?_of_reserved tame.consistent.toCounted found)
  | @placing object index free known =>
      refine ⟨tame.consistent.place object free, ?_⟩
      intro handle found callable isFound isCallable
      have slot := Heap.slotAt?_place tame.consistent.capacityBound object free handle
      have inHeap : (Heap.place object before.heap).2.get? handle = some found := isFound
      rw [Heap.get?, slot] at inHeap
      split at inHeap
      · simp only [Option.map_some, Option.some.injEq] at inHeap
        exact known callable (inHeap ▸ isCallable)
      · exact tame.runsOnly handle found callable inHeap isCallable

theorem EvaluationStep.tame
    (step : EvaluationStep operations before after)
    (tame : before.Tame operations) :
    after.Tame operations := by
  cases step with
  | allocating step =>
      exact step.tame tame
  | evaluating | remembering | binding =>
      exact ⟨tame.consistent, tame.runsOnly⟩

/-- What holds along every step holds along a sequence of steps that stay tame. -/
theorem along_steps
    {step relation : Machine → Machine → Prop}
    (staysTame :
      ∀ {before after}, step before after → before.Tame operations → after.Tame operations)
    (reflexive : ∀ machine, relation machine machine)
    (transitive :
      ∀ {first second third},
        relation first second → relation second third → relation first third)
    (alongStep :
      ∀ {before after}, before.Tame operations → step before after → relation before after)
    (steps : Relation.ReflTransGen step before after)
    (tame : before.Tame operations) :
    relation before after ∧ after.Tame operations := by
  induction steps with
  | refl =>
      exact ⟨reflexive before, tame⟩
  | tail _ step inductionHypothesis =>
      obtain ⟨holds, tameBetween⟩ := inductionHypothesis
      exact ⟨transitive holds (alongStep tameBetween step), staysTame step tameBetween⟩

theorem AllocationSteps.tame
    (allocates : AllocationSteps operations before after)
    (tame : before.Tame operations) :
    after.Tame operations :=
  (@along_steps operations before after _ (fun _ _ => True) AllocationStep.tame
    (fun _ => trivial) (fun _ _ => trivial) (fun _ _ => trivial) allocates tame).2

theorem EvaluationSteps.tame
    (evaluates : EvaluationSteps operations before after)
    (tame : before.Tame operations) :
    after.Tame operations :=
  (@along_steps operations before after _ (fun _ _ => True) EvaluationStep.tame
    (fun _ => trivial) (fun _ _ => trivial) (fun _ _ => trivial) evaluates tame).2

theorem AllocationSteps.evaluates
    (allocates : AllocationSteps operations before after) :
    EvaluationSteps operations before after :=
  Relation.ReflTransGen.mono (fun _ _ step => EvaluationStep.allocating step) _ _ allocates

/-- A placement changes no occupied slot. -/
theorem get?_placing
    (bounded : machine.heap.capacity ≤ Handle.bound)
    {object : Object}
    {index : Nat}
    (free : machine.heap.nextFree? = some index)
    {handle : Handle}
    (occupied : machine.heap.isOccupied handle = true) :
    (machine.placing object index).heap.get? handle = machine.heap.get? handle := by
  have isFree := Heap.isFreeAt_of_findFree? free
  have distinct : handle ≠ Handle.ofIndex index := by
    rintro rfl
    rw [Heap.isFreeAt_eq_not_isOccupied bounded (Heap.lt_capacity_of_isFreeAt isFree),
      occupied] at isFree
    cases isFree
  simp [placing, record, Heap.get?, Heap.slotAt?_place bounded object free, distinct]

/-- What the bindings reach stays as it is, whatever lies on the stack. -/
theorem AllocationStep.keepsBound
    (tame : before.Tame operations)
    (step : AllocationStep operations before after) :
    Heap.Keeps before.environment.values before.heap after.heap := by
  cases step with
  | entries =>
      exact .refl _ _
  | reserving =>
      exact (keeps_reserved tame.consistent.toCounted).of_subset fun value member =>
        mem_roots_iff.mpr (.inl member)
  | placing free _ =>
      intro handle reached
      exact get?_placing tame.consistent.capacityBound free reached.isOccupied

theorem AllocationStep.sameSurroundings
    (tame : before.Tame operations)
    (step : AllocationStep operations before after) :
    SameSurroundings before after := by
  have keepsBound := step.keepsBound tame
  cases step with
  | entries =>
      exact ⟨rfl, rfl, rfl, rfl, keepsBound⟩
  | reserving =>
      obtain ⟨sameEnvironment, _, sameEager, sameDiagnostics⟩ := reserved_frame before
      exact ⟨sameEnvironment, sameEager, sameDiagnostics,
        (reserved_consistent tame.consistent).2, keepsBound⟩
  | @placing object index _ _ =>
      exact ⟨rfl, rfl, rfl, Heap.capacity_place object before.heap, keepsBound⟩

/-- Nothing but the heap, the stack, the collections and the journal change by allocations. -/
theorem AllocationSteps.sameSurroundings
    (allocates : AllocationSteps operations before after)
    (tame : before.Tame operations) :
    SameSurroundings before after := by
  refine (@along_steps operations before after _ SameSurroundings AllocationStep.tame
    (fun _ => ⟨rfl, rfl, rfl, rfl, .refl _ _⟩) ?_ AllocationStep.sameSurroundings allocates tame).1
  intro first second third earlier later
  have keepsLater := later.keepsBound
  rw [earlier.environment] at keepsLater
  exact ⟨later.environment.trans earlier.environment,
    later.eagerDefinitions.trans earlier.eagerDefinitions,
    later.diagnostics.trans earlier.diagnostics, later.capacity.trans earlier.capacity,
    earlier.keepsBound.trans keepsLater⟩

/-- No evaluation changes the size of a machine or how its definitions work. -/
theorem EvaluationSteps.constants
    (steps : EvaluationSteps operations before after)
    (tame : before.Tame operations) :
    after.eagerDefinitions = before.eagerDefinitions ∧
      after.heap.capacity = before.heap.capacity := by
  refine (@along_steps operations before after _
    (fun first second =>
      second.eagerDefinitions = first.eagerDefinitions ∧
        second.heap.capacity = first.heap.capacity)
    EvaluationStep.tame (fun _ => ⟨rfl, rfl⟩) ?_ ?_ steps tame).1
  · rintro first second third ⟨sameEager, sameCapacity⟩ ⟨sameEagerLater, sameCapacityLater⟩
    exact ⟨sameEagerLater.trans sameEager, sameCapacityLater.trans sameCapacity⟩
  · intro first second tameFirst step
    cases step with
    | allocating step =>
        have same := step.sameSurroundings tameFirst
        exact ⟨same.eagerDefinitions, same.capacity⟩
    | evaluating | remembering | binding =>
        exact ⟨rfl, rfl⟩

/-- Whatever comes of an action, it is reached by steps of allocations. -/
def OnlyAllocates
    {Result : Type}
    (operations : Operation → Prop)
    (action : Action Result) :
    Prop :=
  ∀ machine, machine.Tame operations → AllocationSteps operations machine (action machine).2

namespace OnlyAllocates

variable {First Result : Type}

theorem of_unchanged
    {action : Action Result}
    (unchanged : ∀ machine, (action machine).2 = machine) :
    OnlyAllocates operations action := by
  intro machine _
  rw [unchanged]
  exact Relation.ReflTransGen.refl

theorem of_entries
    {action : Action Result}
    (moves : ∀ machine, ∃ entries, (action machine).2 = machine.withEntries entries) :
    OnlyAllocates operations action := by
  intro machine _
  obtain ⟨entries, after⟩ := moves machine
  rw [after]
  exact Relation.ReflTransGen.single (.entries machine entries)

theorem pure (result : Result) :
    OnlyAllocates operations (Pure.pure result : Action Result) :=
  of_unchanged fun _ => rfl

theorem bind
    {action : Action First}
    {continuation : First → Action Result}
    (first : OnlyAllocates operations action)
    (returned : ∀ value, OnlyAllocates operations (continuation value)) :
    OnlyAllocates operations (action >>= continuation) := by
  intro machine tame
  have allocates := first machine tame
  rw [Transition.bind_apply]
  generalize action machine = answer at allocates ⊢
  obtain ⟨result, between⟩ := answer
  cases result with
  | ok value =>
      exact allocates.trans (returned value between (allocates.tame tame))
  | error error =>
      exact allocates

theorem push (handle : Handle) : OnlyAllocates operations (push handle) :=
  of_entries fun _ => ⟨_, rfl⟩

theorem pop : OnlyAllocates operations pop :=
  of_entries fun _ => ⟨_, rfl⟩

theorem discard (count : Nat) : OnlyAllocates operations (discard count) :=
  of_entries fun _ => ⟨_, rfl⟩

theorem reserve : OnlyAllocates operations reserve := by
  intro machine tame
  rw [reserve_eq tame.consistent.toCounted]
  exact Relation.ReflTransGen.single (.reserving machine)

theorem place
    {object : Object}
    (known : ∀ callable, object.callable? = some callable → operations callable.operation) :
    OnlyAllocates operations (place object) := by
  intro machine _
  rcases place_cases object machine with ⟨failed, _⟩ | ⟨index, placed, free⟩
  · rw [failed]
    exact Relation.ReflTransGen.refl
  · rw [placed]
    exact Relation.ReflTransGen.single (.placing free known)

theorem allocate
    {object : Object}
    (known : ∀ callable, object.callable? = some callable → operations callable.operation) :
    OnlyAllocates operations (allocate object) :=
  reserve.bind fun _ => place known

/-- No callable has to be known to allocate what cannot be called. -/
theorem allocate_uncallable
    {object : Object}
    (uncallable : object.callable? = none) :
    OnlyAllocates operations (Machine.allocate object) :=
  allocate (by simp [uncallable])

theorem consFromStack : OnlyAllocates operations consFromStack :=
  reserve.bind fun _ => pop.bind fun _ => pop.bind fun _ => place (by simp [Object.callable?])

theorem cleanup
    {action : Action First}
    (result : First → Result)
    (allocates : OnlyAllocates operations action) :
    OnlyAllocates operations (cleaningUp result action) := by
  intro machine tame
  have steps := allocates machine tame
  unfold cleaningUp
  generalize action machine = answer at steps ⊢
  obtain ⟨_ | value, after⟩ := answer
  · exact steps.trans (Relation.ReflTransGen.single (.entries after _))
  · exact steps

/-- Being reached by steps of allocations is a property of actions by composition. -/
theorem compositional : CompositionalActions fun _ action => OnlyAllocates operations action where
  pure := pure
  throw _ := of_unchanged fun _ => rfl
  bind := bind
  push := push
  allocate := allocate_uncallable
  consFromStack := consFromStack
  cleanup := cleanup

end OnlyAllocates

/-- Whatever comes of a run, it is reached by steps of evaluations. -/
def OnlyEvaluates
    {Result : Type}
    (operations : Operation → Prop)
    (run : Run Result) :
    Prop :=
  ∀ machine,
    machine.Tame operations →
    run.Ensures machine fun _ after => EvaluationSteps operations machine after

namespace OnlyEvaluates

variable {First Result : Type}

theorem exhausted : OnlyEvaluates operations (Run.exhausted : Run Result) :=
  fun _ _ => .exhausted

theorem pure (result : Result) : OnlyEvaluates operations (Pure.pure result : Run Result) :=
  fun _ _ => .pure Relation.ReflTransGen.refl

theorem throw (error : Error) : OnlyEvaluates operations (throw error : Run Result) :=
  fun _ _ => .throw Relation.ReflTransGen.refl

theorem lift
    {action : Action Result}
    (allocates : OnlyAllocates operations action) :
    OnlyEvaluates operations (liftM action : Run Result) :=
  fun machine tame => .lift (allocates machine tame).evaluates

theorem bindReturned
    {run : Run First}
    {continuation : First → Run Result}
    (first : OnlyEvaluates operations run)
    (returned : ∀ value, run.CanReturn value → OnlyEvaluates operations (continuation value)) :
    OnlyEvaluates operations (run >>= continuation) := by
  intro machine tame result final ran
  rw [Run.bind_apply] at ran
  cases step : run machine with
  | none =>
      simp [step] at ran
  | some answer =>
      obtain ⟨firstResult, between⟩ := answer
      have evaluates := first machine tame firstResult between step
      rw [step] at ran
      cases firstResult with
      | ok value =>
          exact evaluates.trans (returned value ⟨machine, between, step⟩ between
            (evaluates.tame tame) result final ran)
      | error error =>
          simp only [Option.some.injEq, Prod.mk.injEq] at ran
          exact ran.2 ▸ evaluates

theorem tryCatch
    {run : Run Result}
    {handler : Error → Run Result}
    (first : OnlyEvaluates operations run)
    (failed : ∀ error, OnlyEvaluates operations (handler error)) :
    OnlyEvaluates operations (tryCatch run handler) := by
  intro machine tame
  refine .tryCatch (first machine tame) ?_ ?_
  · intro value between evaluates
    exact evaluates
  · intro error between evaluates
    exact (failed error between (evaluates.tame tame)).mono fun _ _ later =>
      evaluates.trans later

theorem recover (error : Error) :
    OnlyEvaluates operations (liftM (recover error) : Run Handle) := by
  intro machine tame
  refine .lift ?_
  cases severity : error.isFatal with
  | true =>
      rw [recover_fatal severity]
      exact Relation.ReflTransGen.refl
  | false =>
      have remembers : EvaluationSteps operations machine (machine.remembering error) :=
        Relation.ReflTransGen.single (.remembering machine error)
      have allocates := @OnlyAllocates.allocate_uncallable operations .void rfl
        (machine.remembering error) (remembers.tame tame)
      rw [recover_recoverable severity]
      exact remembers.trans allocates.evaluates

theorem bindName (name : String) (value : Handle) :
    OnlyEvaluates operations (liftM (bindName name value) : Run Unit) :=
  fun machine _ => .lift (Relation.ReflTransGen.single (.binding machine name value))

/-- What is known of every callable is known of the one that is looked at. -/
theorem look
    (handle : Handle)
    {continuation : Object → Run Result}
    (found :
      ∀ object,
        (∀ callable, object.callable? = some callable → operations callable.operation) →
        OnlyEvaluates operations (continuation object)) :
    OnlyEvaluates operations ((liftM (look handle) : Run Object) >>= continuation) := by
  intro machine tame
  cases isObject : machine.heap.get? handle with
  | none =>
      have fails :
          ((liftM (Machine.look handle) : Run Object) >>= continuation) machine =
            some (.error (.internal (.danglingHandle handle)), machine) := by
        simp [Run.bind_apply, Run.liftM_apply, Machine.look, Transition.observe, object, isObject]
      exact .of_answer fails Relation.ReflTransGen.refl
  | some object =>
      have known := tame.runsOnly handle object
      exact .bind_lift (look_found isObject)
        (found object (fun callable => known callable isObject) machine tame)

/-- Being reached by elementary steps is a property of runs by composition. -/
theorem compositional : Compositional fun _ run => OnlyEvaluates IsBuiltin run where
  exhausted _ := exhausted
  pure := pure
  throw := throw
  bindReturned := bindReturned
  tryCatch := tryCatch
  observe _ := lift (.of_unchanged fun _ => rfl)
  onStack _ := lift (.of_entries fun _ => ⟨_, rfl⟩)
  allocate uncallable _ := lift (.allocate_uncallable uncallable)
  evaluating expression := fun machine _ =>
    .lift (Relation.ReflTransGen.single (.evaluating machine expression))
  recover := recover
  bindName := bindName
  look := look
  next reader := lift (OnlyAllocates.compositional.nextExpression reader)

end OnlyEvaluates

end Machine

end ArenaLisp
