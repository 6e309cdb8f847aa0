import ArenaLisp.Proofs.Allocation

namespace ArenaLisp

/-!
# Out of memory means full

The threshold may put a collection off, but never past a full table; the collection
then empties every slot that is not needed; and the search for a free slot finds one
wherever it starts.  So an allocation fails only if every slot holds an object that
is reachable, and then it always fails.

A collection in turn leaves a machine on which the next one is not yet due, unless
it has left no slot empty.
-/

namespace Heap

variable {heap : Heap}

/-- A counted table is full exactly if each of its slots is occupied. -/
theorem isFull_iff
    (counted : heap.Counted) :
    heap.isFull = true ↔
      ∀ index < heap.capacity, heap.isOccupied (Handle.ofIndex index) = true := by
  have slotAt
      {index : Nat}
      (inside : index < heap.slots.size) :
      heap.isOccupied (Handle.ofIndex index) = heap.slots[index].isSome := by
    have sameIndex := Handle.index_ofIndex (Nat.lt_of_lt_of_le inside counted.capacityBound)
    simp [isOccupied, slotAt?, sameIndex, Array.getElem?_eq_getElem inside]
  have atMost : heap.occupiedCount ≤ heap.capacity :=
    Array.countP_le_size
  have fullIff : heap.isFull = true ↔ heap.occupiedCount = heap.capacity := by
    rw [isFull, decide_eq_true_iff, counted.liveExact]
    omega
  rw [fullIff]
  constructor
  · intro everySlot index inside
    rw [slotAt inside]
    exact Array.countP_eq_size.mp everySlot _ (Array.getElem_mem inside)
  · intro allOccupied
    refine Array.countP_eq_size.mpr fun slot member => ?_
    obtain ⟨index, inside, rfl⟩ := Array.mem_iff_getElem.mp member
    rw [← slotAt inside]
    exact allOccupied index inside

/-- An adjusted threshold is above the number of objects, unless the table is full. -/
theorem needsCollection_adjusted
    (counted : heap.Counted)
    (adjusted : heap.threshold = clamp heap.initialThreshold heap.capacity (2 * heap.live)) :
    heap.needsCollection = heap.isFull := by
  have positive := counted.initialPositive
  rw [Bool.eq_iff_iff]
  simp only [needsCollection, isFull, adjusted, clamp, Bool.or_eq_true, decide_eq_true_eq]
  omega

end Heap

namespace Machine

variable {machine : Machine}

theorem collections_reserved (machine : Machine) :
    machine.reserved.collections =
      machine.collections + if machine.heap.needsCollection then 1 else 0 := by
  unfold reserved
  split <;> rfl

theorem collections_place
    (object : Object)
    (machine : Machine) :
    (place object machine).2.collections = machine.collections := by
  simp only [place, Transition.bind_apply, onHeap_apply]
  cases (Heap.place object machine.heap).1 <;> rfl

/--
What an attempt to place an object comes to.  It fails exactly if every slot holds a
reachable object, and otherwise answers with a slot that held none.
-/
structure Accommodates
    (before : Machine)
    (object : Object)
    (entries : List Handle)
    (result : Except Error Handle)
    (after : Machine) :
    Prop where
  exhausted : result = .error .outOfMemory ↔ before.Saturated
  accommodated :
    ¬before.Saturated →
    ∃ handle,
      result = .ok handle ∧
        after.heap.get? handle = some object ∧
        ¬before.Reachable handle
  /-- Only what was not reachable is removed. -/
  keeps : Heap.Keeps before.roots before.heap after.heap
  /-- Nothing is added but the object itself. -/
  only :
    ∀ other otherObject,
      after.heap.get? other = some otherObject →
      before.heap.get? other = some otherObject ∨ result = .ok other ∧ otherObject = object
  collections :
    after.collections = before.collections + if before.heap.needsCollection then 1 else 0
  entries : after.stack.entries = entries

/-- Whatever is on the stack when an object is placed, the room for it was made before. -/
theorem place_accommodates
    (consistent : machine.heap.Consistent)
    (object : Object)
    (entries : List Handle) :
    Accommodates machine object entries
      (place object (machine.reserved.withEntries entries)).1
      (place object (machine.reserved.withEntries entries)).2 := by
  have counted := consistent.toCounted
  have collections :=
    (collections_place object (machine.reserved.withEntries entries)).trans
      (collections_reserved machine)
  rcases place_reserved_cases consistent object entries with
    ⟨failed, saturated⟩ | ⟨handle, after, succeeded, placed, sameEntries, notSaturated⟩
  · rw [failed] at collections ⊢
    refine ⟨⟨fun _ => saturated, fun _ => rfl⟩, fun notSaturated => absurd saturated notSaturated,
      keeps_reserved counted, ?_, collections, rfl⟩
    intro other otherObject found
    exact .inl (get?_of_reserved counted found)
  · rw [succeeded] at collections ⊢
    refine ⟨⟨by rintro ⟨⟩, fun saturated => absurd saturated notSaturated⟩, ?_,
      placed.keeps counted, ?_, collections, sameEntries⟩
    · intro _
      exact ⟨handle, rfl, placed.found, placed.fresh counted⟩
    · intro other otherObject found
      rcases placed.only counted found with ⟨rfl, isObject⟩ | before
      · exact .inr ⟨rfl, isObject⟩
      · exact .inl before

/--
Memory runs out only when it is full of what is needed.  On a machine with consistent
counters an allocation fails exactly if every slot holds an object that the bindings
or the stack entries reach.  Otherwise it places its object, collects at most once,
and removes nothing that is reachable.  So does the replacement of two entries by
their pair, where the two entries count as roots.  Right after a collection another
one is due exactly if no slot is empty.
-/
theorem outOfMemory_iff_saturated
    (consistent : machine.heap.Consistent) :
    (∀ object,
      Accommodates machine object machine.stack.entries
        (allocate object machine).1 (allocate object machine).2) ∧
    (∀ cdr car below,
      machine.stack.entries = cdr :: car :: below →
      Accommodates machine (.pair car cdr) below
        (consFromStack machine).1 (consFromStack machine).2) ∧
    ((collect machine).2.heap.needsCollection = true ↔
      ∀ index < (collect machine).2.heap.capacity,
        (collect machine).2.heap.isOccupied (Handle.ofIndex index) = true) := by
  have counted := consistent.toCounted
  refine ⟨?_, ?_, ?_⟩
  · intro object
    rw [allocate_eq counted]
    exact place_accommodates consistent object machine.stack.entries
  · intro cdr car below entries
    rw [consFromStack_eq counted entries]
    exact place_accommodates consistent (.pair car cdr) below
  · obtain ⟨sweptConsistent, _⟩ := sweptHeap_counters counted
    have due := Heap.needsCollection_adjusted sweptConsistent.toCounted rfl
    rw [collect_eq counted]
    exact (Bool.eq_iff_iff.mp due).trans (Heap.isFull_iff sweptConsistent.toCounted)

/-- A machine with a bound pair and an integer that its only stack entries hold. -/
def brimful : Machine where
  heap :=
    { slots :=
        #[some ⟨.pair (Handle.ofIndex 0) (Handle.ofIndex 1), false⟩, some ⟨.integer 7, false⟩]
      last := none
      live := 2
      initialThreshold := 1
      threshold := 1 }
  environment := Environment.empty.define "p" (Handle.ofIndex 0)
  stack := ⟨[Handle.ofIndex 1, Handle.ofIndex 1]⟩
  eagerDefinitions := false
  diagnostics := []
  collections := 0
  journal := []

/-- There is room on a machine with an empty slot, and none on one that needs every slot. -/
theorem outOfMemory_iff_saturated_brimful :
    (tangled.heap.Consistent ∧
      ∃ handle,
        (allocate .void tangled).1 = .ok handle ∧
          (allocate .void tangled).2.heap.get? handle = some .void ∧
          (allocate .void tangled).2.collections = 1) ∧
    brimful.heap.Consistent ∧
      (allocate .void brimful).1 = .error .outOfMemory ∧
      (consFromStack brimful).1 = .error .outOfMemory ∧
      (consFromStack brimful).2.stack.entries = [] := by
  have tangledConsistent : tangled.heap.Consistent :=
    ⟨⟨by decide, by decide, by decide, by decide⟩, by decide, by decide⟩
  have brimfulConsistent : brimful.heap.Consistent :=
    ⟨⟨by decide, by decide, by decide, by decide⟩, by decide, by decide⟩
  have hasRoom : ¬tangled.Saturated := by
    intro saturated
    exact absurd (saturated 3 (by decide)).isOccupied (by decide)
  have hasNone : brimful.Saturated := by
    intro index inside
    have onlyTwo : index < 2 := inside
    match index with
    | 0 | 1 =>
        exact .root (by decide) (by decide)
  have accommodates := (outOfMemory_iff_saturated tangledConsistent).1 .void
  obtain ⟨allocations, pairs, _⟩ := outOfMemory_iff_saturated brimfulConsistent
  have replaced := pairs (Handle.ofIndex 1) (Handle.ofIndex 1) [] rfl
  obtain ⟨handle, placed, found, _⟩ := accommodates.accommodated hasRoom
  exact ⟨⟨tangledConsistent, handle, placed, found, accommodates.collections⟩, brimfulConsistent,
    (allocations .void).exhausted.mpr hasNone, replaced.exhausted.mpr hasNone, replaced.entries⟩

end Machine

end ArenaLisp
