import ArenaLisp.Machine.Allocation
import ArenaLisp.Proofs.WellFormedness

namespace ArenaLisp

/-!
# Allocation

Every allocation is a reservation and a placement.  The reservation removes
nothing but unreachable objects.  The placement then fails exactly when every slot
holds a reachable object, so whether memory runs out depends on nothing but how
many objects are reachable.
-/

namespace Machine

variable {machine : Machine}

/-- The machine after a reservation: collected if that was due. -/
def reserved (machine : Machine) : Machine :=
  if machine.heap.needsCollection then machine.collected else machine

theorem reserve_eq
    (counted : machine.heap.Counted) :
    reserve machine = (.ok (), machine.reserved) := by
  by_cases due : machine.heap.needsCollection = true
  · simp only [reserve, Transition.bind_apply, Transition.get_apply, due, ↓reduceIte,
      collect_eq counted, Transition.pure_apply, reserved]
  · simp only [reserve, Transition.bind_apply, Transition.get_apply, due, ↓reduceIte,
      Transition.pure_apply, reserved, Bool.false_eq_true]

theorem reserved_cases (machine : Machine) :
    machine.reserved = machine.collected ∨
      machine.reserved = machine ∧ machine.heap.needsCollection = false := by
  cases due : machine.heap.needsCollection with
  | true =>
      exact .inl (if_pos due)
  | false =>
      exact .inr ⟨if_neg (Bool.eq_false_iff.mp due), rfl⟩

/-- A reservation changes nothing but the heap, the number of collections and the journal. -/
theorem reserved_frame (machine : Machine) :
    machine.reserved.environment = machine.environment ∧
      machine.reserved.stack = machine.stack ∧
      machine.reserved.eagerDefinitions = machine.eagerDefinitions ∧
      machine.reserved.diagnostics = machine.diagnostics := by
  rcases reserved_cases machine with same | ⟨same, _⟩
  · rw [same]
    exact ⟨rfl, rfl, rfl, rfl⟩
  · rw [same]
    exact ⟨rfl, rfl, rfl, rfl⟩

theorem reserved_consistent
    (consistent : machine.heap.Consistent) :
    machine.reserved.heap.Consistent ∧
      machine.reserved.heap.capacity = machine.heap.capacity := by
  rcases reserved_cases machine with same | ⟨same, _⟩
  · obtain ⟨swept, _, sameCapacity, _⟩ := sweptHeap_counters consistent.toCounted
    rw [same]
    exact ⟨swept, sameCapacity⟩
  · rw [same]
    exact ⟨consistent, rfl⟩

theorem keeps_reserved
    (counted : machine.heap.Counted) :
    Heap.Keeps machine.roots machine.heap machine.reserved.heap := by
  rcases reserved_cases machine with same | ⟨same, _⟩
  · rw [same]
    exact keeps_sweptHeap counted
  · rw [same]
    exact Heap.Keeps.refl _ _

/-- A reservation adds nothing. -/
theorem get?_of_reserved
    (counted : machine.heap.Counted)
    {handle : Handle}
    {object : Object}
    (found : machine.reserved.heap.get? handle = some object) :
    machine.heap.get? handle = some object := by
  rcases reserved_cases machine with same | ⟨same, _⟩
  · rw [same] at found
    by_cases reached : machine.Reachable handle
    · rwa [← get?_sweptHeap_of_reachable counted reached]
    · have removed : machine.collected.heap.get? handle = none :=
        get?_sweptHeap_of_not_reachable counted reached
      rw [removed] at found
      cases found
  · rwa [same] at found

theorem closed_collected
    (counted : machine.heap.Counted)
    (closed : machine.heap.Closed) :
    machine.collected.heap.Closed := by
  intro parent object child found held
  -- The parent survived the collection, so it was reachable and its child with it.
  have parentReached : machine.Reachable parent :=
    (isOccupied_sweptHeap_iff counted parent).mp (Heap.isOccupied_of_get? found)
  have foundBefore : machine.heap.get? parent = some object := by
    rwa [← get?_sweptHeap_of_reachable counted parentReached]
  exact (isOccupied_sweptHeap_iff counted child).mpr
    (closed.reaches_child parentReached foundBefore held)

theorem closed_reserved
    (counted : machine.heap.Counted)
    (closed : machine.heap.Closed) :
    machine.reserved.heap.Closed := by
  rcases reserved_cases machine with same | ⟨same, _⟩
  · rw [same]
    exact closed_collected counted closed
  · rwa [same]

/-- What no allocation changes. -/
structure SameSurroundings (before after : Machine) : Prop where
  environment : after.environment = before.environment
  eagerDefinitions : after.eagerDefinitions = before.eagerDefinitions
  diagnostics : after.diagnostics = before.diagnostics
  capacity : after.heap.capacity = before.heap.capacity
  keepsBound : Heap.Keeps before.environment.values before.heap after.heap

/-- A collection changes nothing but the heap, the number of collections and the journal. -/
theorem sameSurroundings_collected
    (counted : machine.heap.Counted) :
    SameSurroundings machine machine.collected where
  environment := rfl
  eagerDefinitions := rfl
  diagnostics := rfl
  capacity := (sweptHeap_counters counted).2.2.1
  keepsBound :=
    (keeps_sweptHeap counted).of_subset fun _ member => mem_roots_iff.mpr (.inl member)

/-- Whether every slot holds an object that is reachable. -/
def Saturated (machine : Machine) : Prop :=
  ∀ index < machine.heap.capacity, machine.Reachable (Handle.ofIndex index)

theorem isFull_of_no_free
    (consistent : machine.heap.Consistent)
    (noFree : machine.heap.nextFree? = none) :
    machine.heap.isFull = true := by
  have allOccupied : ∀ slot ∈ machine.heap.slots, Option.isSome slot = true := by
    intro slot member
    obtain ⟨index, inside, here⟩ := Array.mem_iff_getElem.mp member
    have notFree := Heap.not_isFreeAt_of_nextFree?_eq_none noFree inside
    subst here
    cases here : machine.heap.slots[index] with
    | none =>
        simp [Heap.isFreeAt, Array.getElem?_eq_getElem inside, here] at notFree
    | some slot =>
        rfl
  have everySlot : machine.heap.occupiedCount = machine.heap.capacity :=
    Array.countP_eq_size.mpr allOccupied
  simp [Heap.isFull, consistent.liveExact, everySlot]

/-- After a reservation no slot is free exactly if every slot holds a reachable object. -/
theorem nextFree?_reserved_eq_none_iff
    (consistent : machine.heap.Consistent) :
    machine.reserved.heap.nextFree? = none ↔ machine.Saturated := by
  obtain ⟨reservedConsistent, sameCapacity⟩ := reserved_consistent consistent
  have bounded := reservedConsistent.capacityBound
  constructor
  · intro noFree index inside
    have notFree :=
      Heap.not_isFreeAt_of_nextFree?_eq_none noFree (sameCapacity.symm ▸ inside)
    rw [Heap.isFreeAt_eq_not_isOccupied bounded (sameCapacity.symm ▸ inside)] at notFree
    have occupied : machine.reserved.heap.isOccupied (Handle.ofIndex index) = true := by
      simpa using notFree
    rcases reserved_cases machine with same | ⟨same, notDue⟩
    · rw [same] at occupied
      exact (isOccupied_sweptHeap_iff consistent.toCounted _).mp occupied
    · rw [same] at noFree
      have full := isFull_of_no_free consistent noFree
      simp [Heap.needsCollection, full] at notDue
  · intro saturated
    cases found : machine.reserved.heap.nextFree? with
    | none =>
        rfl
    | some index =>
        have free := Heap.isFreeAt_of_findFree? found
        have inside := Heap.lt_capacity_of_isFreeAt free
        have reached := saturated index (sameCapacity ▸ inside)
        have kept :=
          (keeps_reserved consistent.toCounted).reaches reached
        rw [Heap.isFreeAt_eq_not_isOccupied bounded inside, kept.isOccupied] at free
        simp at free

/-- What an allocation of an object under a handle does to a machine, its stack apart. -/
structure Placed (before : Machine) (object : Object) (handle : Handle) (after : Machine) :
    Prop where
  wasFree : before.reserved.heap.isOccupied handle = false
  found : after.heap.get? handle = some object
  others :
    ∀ other, other ≠ handle → after.heap.get? other = before.reserved.heap.get? other
  environment : after.environment = before.environment
  eagerDefinitions : after.eagerDefinitions = before.eagerDefinitions
  diagnostics : after.diagnostics = before.diagnostics
  capacity : after.heap.capacity = before.heap.capacity
  consistent : after.heap.Consistent

namespace Placed

variable {before after : Machine} {object : Object} {handle : Handle}

/-- The slot of a new object was not reachable. -/
theorem fresh
    (placed : Placed before object handle after)
    (counted : before.heap.Counted) :
    ¬before.Reachable handle := by
  intro reached
  have kept := ((keeps_reserved counted).reaches reached).isOccupied
  rw [placed.wasFree] at kept
  exact Bool.false_ne_true kept

theorem keeps
    (placed : Placed before object handle after)
    (counted : before.heap.Counted) :
    Heap.Keeps before.roots before.heap after.heap := by
  intro other reached
  have distinct : other ≠ handle := by
    rintro rfl
    exact placed.fresh counted reached
  rw [placed.others other distinct]
  exact keeps_reserved counted other reached

/-- An allocation changes nothing but the heap, the stack, the collections and the journal. -/
theorem sameSurroundings
    (placed : Placed before object handle after)
    (counted : before.heap.Counted) :
    SameSurroundings before after where
  environment := placed.environment
  eagerDefinitions := placed.eagerDefinitions
  diagnostics := placed.diagnostics
  capacity := placed.capacity
  keepsBound :=
    (placed.keeps counted).of_subset fun _ member => mem_roots_iff.mpr (.inl member)

/-- An allocation adds no object but the new one. -/
theorem only
    (placed : Placed before object handle after)
    (counted : before.heap.Counted)
    {other : Handle}
    {otherObject : Object}
    (found : after.heap.get? other = some otherObject) :
    (other = handle ∧ otherObject = object) ∨ before.heap.get? other = some otherObject := by
  by_cases same : other = handle
  · subst same
    rw [placed.found, Option.some.injEq] at found
    exact .inl ⟨rfl, found.symm⟩
  · rw [placed.others other same] at found
    exact .inr (get?_of_reserved counted found)

/-- An allocation of reachable parts keeps a machine well formed. -/
theorem wellFormed
    (placed : Placed before object handle after)
    (wellFormed : before.WellFormed)
    (heldReachable : ∀ child ∈ object.handles, before.Reachable child)
    (entries : ∀ entry ∈ after.stack.entries, entry ∈ before.stack.entries) :
    after.WellFormed := by
  have counted := wellFormed.consistent.toCounted
  have kept :
      ∀ other, before.Reachable other → after.heap.isOccupied other = true :=
    fun other reached => ((placed.keeps counted).reaches reached).isOccupied
  refine ⟨placed.consistent, ?_, ?_, ?_⟩
  · intro value member
    rw [placed.environment] at member
    exact kept value (wellFormed.reachable_root (mem_roots_iff.mpr (.inl member)))
  · intro entry member
    exact kept entry (wellFormed.reachable_root (mem_roots_iff.mpr (.inr (entries entry member))))
  · intro parent parentObject child found held
    by_cases isNew : parent = handle
    · subst isNew
      rw [placed.found, Option.some.injEq] at found
      exact kept child (heldReachable child (found ▸ held))
    · rw [placed.others parent isNew] at found
      have childOccupied :=
        closed_reserved counted wellFormed.closed parent parentObject child found held
      by_cases childIsNew : child = handle
      · exact childIsNew ▸ Heap.isOccupied_of_get? placed.found
      · rwa [Heap.isOccupied_congr (placed.others child childIsNew)]

end Placed

/-- A placement after a reservation fails exactly if the machine was saturated. -/
theorem place_reserved_cases
    (consistent : machine.heap.Consistent)
    (object : Object)
    (entries : List Handle) :
    (place object (machine.reserved.withEntries entries) =
        (.error .outOfMemory, machine.reserved.withEntries entries) ∧
      machine.Saturated) ∨
      ∃ handle after,
        place object (machine.reserved.withEntries entries) = (.ok handle, after) ∧
          Placed machine object handle after ∧
          after.stack.entries = entries ∧
          ¬machine.Saturated := by
  obtain ⟨reservedConsistent, sameCapacity⟩ := reserved_consistent consistent
  have bounded := reservedConsistent.capacityBound
  obtain ⟨sameEnvironment, _, sameEager, sameDiagnostics⟩ := reserved_frame machine
  have saturatedIff := nextFree?_reserved_eq_none_iff consistent
  cases found : machine.reserved.heap.nextFree? with
  | none =>
      refine .inl ⟨?_, saturatedIff.mp found⟩
      simp only [place, Transition.bind_apply, onHeap_apply, heap_withEntries, Heap.place, found]
      rfl
  | some index =>
      have notSaturated : ¬machine.Saturated := by
        rw [← saturatedIff, found]
        simp
      have free := Heap.isFreeAt_of_findFree? found
      have inside := Heap.lt_capacity_of_isFreeAt free
      have placedHeap := Heap.place_found object found
      refine .inr
        ⟨Handle.ofIndex index,
          { machine.reserved.withEntries entries with
            heap := (Heap.place object machine.reserved.heap).2 }.record
              (.placed (Handle.ofIndex index)),
          ?_, ?_, rfl, notSaturated⟩
      · simp only [place, Transition.bind_apply, onHeap_apply, heap_withEntries, placedHeap, note,
          Transition.modify_apply, Transition.pure_apply]
      · refine ⟨?_, ?_, ?_, sameEnvironment, sameEager, sameDiagnostics, ?_,
          reservedConsistent.place object found⟩
        · rw [Heap.isFreeAt_eq_not_isOccupied bounded inside] at free
          simpa using free
        · simp [record, Heap.get?, Heap.slotAt?_place bounded object found]
        · intro other distinct
          simp [record, Heap.get?, Heap.slotAt?_place bounded object found, distinct]
        · exact (Heap.capacity_place object _).trans sameCapacity

theorem reserved_sameEntries (machine : Machine) :
    machine.reserved.withEntries machine.stack.entries = machine.reserved := by
  obtain ⟨_, sameStack, _⟩ := reserved_frame machine
  rw [← sameStack, withEntries_self]

/-- An allocation places its object once there is room for it. -/
theorem allocate_eq
    (counted : machine.heap.Counted)
    (object : Object) :
    allocate object machine =
      place object (machine.reserved.withEntries machine.stack.entries) := by
  simp only [allocate, Transition.bind_apply, reserve_eq counted, reserved_sameEntries]

/-- Two entries leave the stack once there is room for their pair, and before it is placed. -/
theorem consFromStack_eq
    (counted : machine.heap.Counted)
    {car cdr : Handle}
    {below : List Handle}
    (entries : machine.stack.entries = cdr :: car :: below) :
    consFromStack machine = place (.pair car cdr) (machine.reserved.withEntries below) := by
  obtain ⟨_, sameStack, _⟩ := reserved_frame machine
  have reservedEntries : machine.reserved.stack.entries = cdr :: car :: below := by
    rw [sameStack, entries]
  have popCar : pop (machine.reserved.withEntries (car :: below)) =
      (.ok car, machine.reserved.withEntries below) :=
    pop_cons rfl
  simp only [consFromStack, Transition.bind_apply, reserve_eq counted,
    pop_cons reservedEntries, popCar]

/-- An allocation fails exactly if every slot holds a reachable object. -/
theorem allocate_cases
    (consistent : machine.heap.Consistent)
    (object : Object) :
    (allocate object machine = (.error .outOfMemory, machine.reserved) ∧
      machine.Saturated) ∨
      ∃ handle after,
        allocate object machine = (.ok handle, after) ∧
          Placed machine object handle after ∧
          after.stack.entries = machine.stack.entries ∧
          ¬machine.Saturated := by
  have cases := place_reserved_cases consistent object machine.stack.entries
  rwa [← allocate_eq consistent.toCounted, reserved_sameEntries] at cases

/--
Replacing two entries by their pair fails exactly if every slot holds a reachable
object, the two entries counted as roots.  Either way the two entries are gone.
-/
theorem consFromStack_cases
    (consistent : machine.heap.Consistent)
    {car cdr : Handle}
    {below : List Handle}
    (entries : machine.stack.entries = cdr :: car :: below) :
    (consFromStack machine =
        (.error .outOfMemory, machine.reserved.withEntries below) ∧
      machine.Saturated) ∨
      ∃ handle after,
        consFromStack machine = (.ok handle, after) ∧
          Placed machine (.pair car cdr) handle after ∧
          after.stack.entries = below ∧
          ¬machine.Saturated := by
  rw [consFromStack_eq consistent.toCounted entries]
  exact place_reserved_cases consistent (.pair car cdr) below

end Machine

end ArenaLisp
