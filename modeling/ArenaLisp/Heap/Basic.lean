import ArenaLisp.Transition

namespace ArenaLisp

/-!
# The heap

The heap is a table of slots whose length never changes.  A free slot is looked
for from the place after the most recently filled one, going up and around, so
slots are used in turn even when earlier ones are empty.

The heap also keeps the number of occupied slots and the number at which the
next collection is due.  It collects nothing by itself.
-/

/-- An occupied slot: its object, and whether a collection has reached it. -/
structure Slot where
  object : Object
  marked : Bool
  deriving Repr, DecidableEq

/-- The table of slots and its counters. -/
structure Heap where
  slots : Array (Option Slot)
  /-- The most recently filled slot. -/
  last : Option Nat
  /-- The number of occupied slots. -/
  live : Nat
  /-- The least value that the threshold ever takes. -/
  initialThreshold : Nat
  /-- The number of occupied slots at which a collection is due. -/
  threshold : Nat
  deriving Repr, DecidableEq

namespace Heap

/-- The capacity of a heap for which none is asked. -/
def defaultCapacity : Nat := 256

/-- The initial threshold of a heap for which none is asked. -/
def defaultThreshold : Nat := 8

/-- The nearest number that lies between two bounds. -/
def clamp (low high number : Nat) : Nat :=
  max low (min number high)

/--
A heap of empty slots.  There is at least one, and the threshold lies between
one and the number of slots.
-/
def create (capacity initialThreshold : Nat) : Heap :=
  let capacity := max capacity 1
  let initialThreshold := clamp 1 capacity initialThreshold
  { slots := Array.replicate capacity none
    last := none
    live := 0
    initialThreshold := initialThreshold
    threshold := initialThreshold }

/-- The number of slots. -/
def capacity (heap : Heap) : Nat :=
  heap.slots.size

/-- Whether every slot counts as occupied. -/
def isFull (heap : Heap) : Bool :=
  heap.capacity ≤ heap.live

/-- Whether a collection is due before the next object is placed. -/
def needsCollection (heap : Heap) : Bool :=
  heap.threshold ≤ heap.live || heap.isFull

/-- The occupied slot that a handle names. -/
def slotAt? (heap : Heap) (handle : Handle) : Option Slot :=
  (heap.slots[handle.index]?).join

/-- The object in the slot that a handle names. -/
def get? (heap : Heap) (handle : Handle) : Option Object :=
  (heap.slotAt? handle).map Slot.object

/-- Whether a handle names an occupied slot. -/
def isOccupied (heap : Heap) (handle : Handle) : Bool :=
  (heap.slotAt? handle).isSome

/-- Whether a slot of this number exists and is empty. -/
def isFreeAt (heap : Heap) (index : Nat) : Bool :=
  heap.slots[index]? = some none

/--
The first free slot among as many positions as given, going up from a start and
around at the end of the table.
-/
def findFree? (heap : Heap) (start : Nat) : Nat → Option Nat
  | 0 => none
  | remaining + 1 =>
      let index := start % heap.capacity
      if heap.isFreeAt index then
        some index
      else
        heap.findFree? (start + 1) remaining

/-- Where the search for a free slot starts. -/
def searchStart (heap : Heap) : Nat :=
  match heap.last with
  | none => 0
  | some index => index + 1

/-- The free slot that the next object goes into. -/
def nextFree? (heap : Heap) : Option Nat :=
  heap.findFree? heap.searchStart heap.capacity

/-- Puts an object into the next free slot, without any collection. -/
def place (object : Object) : Transition Heap Handle := fun heap =>
  match heap.nextFree? with
  | none => (.error .outOfMemory, heap)
  | some index =>
      (.ok (Handle.ofIndex index),
        { heap with
          slots := heap.slots.setIfInBounds index (some ⟨object, false⟩)
          last := some index
          live := heap.live + 1 })

/-- Empties a slot and answers with the object it held. -/
def release (handle : Handle) : Transition Heap Object := fun heap =>
  match heap.slotAt? handle with
  | none => (.error (.doubleFree handle), heap)
  | some slot =>
      (.ok slot.object,
        { heap with
          slots := heap.slots.setIfInBounds handle.index none
          live := heap.live - 1 })

/-- Whether a handle names an occupied slot that a collection has reached. -/
def isMarked (heap : Heap) (handle : Handle) : Bool :=
  (heap.slotAt? handle).any Slot.marked

/-- The number of occupied slots that a collection has reached. -/
def markedCount (heap : Heap) : Nat :=
  heap.slots.countP fun slot => slot.any Slot.marked

/-- The number of occupied slots that no collection has reached. -/
def unmarkedCount (heap : Heap) : Nat :=
  heap.slots.countP fun slot => slot.any fun occupied => !occupied.marked

/-- The occupied slots that no collection has reached, from the lowest on. -/
def unmarked (heap : Heap) : List Handle :=
  let isUnmarkedAt (index : Nat) : Bool :=
    (heap.slots[index]?).join.any fun occupied => !occupied.marked
  ((List.range heap.capacity).filter isUnmarkedAt).map Handle.ofIndex

/-- The heap with no slot marked. -/
def clearMarks (heap : Heap) : Heap :=
  { heap with
    slots := heap.slots.map fun slot =>
      slot.map fun occupied => { occupied with marked := false } }

/--
The heap whose next collection is due at twice the present number of objects,
but neither below the initial threshold nor above the capacity.
-/
def adjustThreshold (heap : Heap) : Heap :=
  { heap with
    threshold := clamp heap.initialThreshold heap.capacity (2 * heap.live) }

/-- A new heap has the capacity asked for, and at least one slot. -/
theorem capacity_create (capacity initialThreshold : Nat) :
    (create capacity initialThreshold).capacity = max capacity 1 := by
  simp [create, Heap.capacity]

/-- Placing an object keeps the number of slots. -/
theorem capacity_place (object : Object) (heap : Heap) :
    (place object heap).2.capacity = heap.capacity := by
  unfold place
  split <;> simp [capacity]

/-- Releasing an object keeps the number of slots. -/
theorem capacity_release (handle : Handle) (heap : Heap) :
    (release handle heap).2.capacity = heap.capacity := by
  unfold release
  split <;> simp [capacity]

/-- Clearing the marks keeps the number of slots. -/
theorem capacity_clearMarks (heap : Heap) :
    heap.clearMarks.capacity = heap.capacity := by
  simp [clearMarks, capacity]

/-- Clearing the marks changes no object. -/
theorem get?_clearMarks (heap : Heap) (handle : Handle) :
    heap.clearMarks.get? handle = heap.get? handle := by
  simp only [get?, slotAt?, clearMarks, Array.getElem?_map]
  rcases heap.slots[handle.index]? with _ | slot
  · rfl
  · cases slot <;> rfl

/-- No slot is marked after the marks have been cleared. -/
theorem isMarked_clearMarks (heap : Heap) (handle : Handle) :
    heap.clearMarks.isMarked handle = false := by
  simp only [isMarked, slotAt?, clearMarks, Array.getElem?_map]
  rcases heap.slots[handle.index]? with _ | slot
  · rfl
  · cases slot <;> rfl

/-- A free slot that was found exists and is empty. -/
theorem isFreeAt_of_findFree?
    {heap : Heap}
    {start remaining index : Nat}
    (found : heap.findFree? start remaining = some index) :
    heap.isFreeAt index = true := by
  induction remaining generalizing start with
  | zero =>
      simp [findFree?] at found
  | succ remaining inductionHypothesis =>
      unfold findFree? at found
      by_cases freeHere : heap.isFreeAt (start % heap.capacity) = true
      · simp only [freeHere, ↓reduceIte, Option.some.injEq] at found
        exact found ▸ freeHere
      · simp only [freeHere, Bool.false_eq_true, ↓reduceIte] at found
        exact inductionHypothesis found

end Heap

end ArenaLisp
