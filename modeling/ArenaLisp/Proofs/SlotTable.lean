import ArenaLisp.Heap.Basic

namespace ArenaLisp

/-!
# The slot table

What placing, releasing and clearing do to the view of a heap: the object that a
handle names.  An arena with more slots than there are handles would name two
slots by one handle, so the counters are only trusted below `Handle.bound`.
-/

namespace Object

/-- The handles that an object holds, in the order in which they are followed. -/
def handles : Object → List Handle
  | .pair car cdr => [car, cdr]
  | _ => []

end Object

namespace Heap

/-- The number of occupied slots, counted from the table. -/
def occupiedCount (heap : Heap) : Nat :=
  heap.slots.countP Option.isSome

/-- A table that handles can name, with a live count and an initial threshold that fit it. -/
structure Counted (heap : Heap) : Prop where
  capacityBound : heap.capacity ≤ Handle.bound
  liveExact : heap.live = heap.occupiedCount
  initialPositive : 1 ≤ heap.initialThreshold
  initialBound : heap.initialThreshold ≤ heap.capacity

/-- A counted table whose threshold lies where an adjustment puts it. -/
structure Consistent (heap : Heap) : Prop extends Counted heap where
  thresholdLow : heap.initialThreshold ≤ heap.threshold
  thresholdHigh : heap.threshold ≤ heap.capacity

theorem isOccupied_iff
    {heap : Heap}
    {handle : Handle} :
    heap.isOccupied handle = true ↔ ∃ object, heap.get? handle = some object := by
  simp only [isOccupied, get?]
  cases heap.slotAt? handle <;> simp

theorem isOccupied_of_get?
    {heap : Heap}
    {handle : Handle}
    {object : Object}
    (found : heap.get? handle = some object) :
    heap.isOccupied handle = true :=
  isOccupied_iff.mpr ⟨object, found⟩

/-- What a handle finds stands in the table. -/
theorem exists_slot_of_get?
    {heap : Heap}
    {handle : Handle}
    {object : Object}
    (found : heap.get? handle = some object) :
    ∃ slot, some slot ∈ heap.slots.toList ∧ slot.object = object := by
  obtain ⟨slot, here, isObject⟩ := Option.map_eq_some_iff.mp found
  have stands : heap.slots[handle.index]? = some (some slot) :=
    Option.join_eq_some_iff.mp here
  exact ⟨slot, Array.mem_toList_iff.mpr (Array.mem_of_getElem? stands), isObject⟩

theorem index_lt_capacity_of_get?
    {heap : Heap}
    {handle : Handle}
    {object : Object}
    (found : heap.get? handle = some object) :
    handle.index < heap.capacity := by
  obtain ⟨slot, here, _⟩ := Option.map_eq_some_iff.mp found
  have stands : heap.slots[handle.index]? = some (some slot) :=
    Option.join_eq_some_iff.mp here
  exact (Array.getElem?_eq_some_iff.mp stands).1

theorem get?_eq_none_iff
    {heap : Heap}
    {handle : Handle} :
    heap.get? handle = none ↔ heap.isOccupied handle = false := by
  simp only [isOccupied, get?]
  cases heap.slotAt? handle <;> simp

/-- Whether a slot is occupied depends on nothing but what is found there. -/
theorem isOccupied_congr
    {first second : Heap}
    {handle : Handle}
    (same : second.get? handle = first.get? handle) :
    second.isOccupied handle = first.isOccupied handle := by
  rw [Bool.eq_iff_iff, isOccupied_iff, isOccupied_iff, same]

theorem index_lt_of_isOccupied
    {heap : Heap}
    {handle : Handle}
    (occupied : heap.isOccupied handle = true) :
    handle.index < heap.capacity := by
  refine Nat.lt_of_not_le fun outside => ?_
  have noSlot : heap.slots[handle.index]? = none :=
    Array.getElem?_eq_none outside
  simp [isOccupied, slotAt?, noSlot] at occupied

/-- A slot number of a nameable table is free or its handle names an occupied slot. -/
theorem isFreeAt_eq_not_isOccupied
    {heap : Heap}
    {index : Nat}
    (bounded : heap.capacity ≤ Handle.bound)
    (inside : index < heap.capacity) :
    heap.isFreeAt index = !heap.isOccupied (Handle.ofIndex index) := by
  have sameIndex : (Handle.ofIndex index).index = index :=
    Handle.index_ofIndex (Nat.lt_of_lt_of_le inside bounded)
  have here : heap.slots[index]? = some heap.slots[index] :=
    Array.getElem?_eq_getElem inside
  simp only [isFreeAt, isOccupied, slotAt?, sameIndex, here]
  cases heap.slots[index] <;> simp

/-- Tables of one size in which the same handles name occupied slots have equally many. -/
theorem occupiedCount_congr
    {first second : Heap}
    (bounded : first.capacity ≤ Handle.bound)
    (sameCapacity : second.capacity = first.capacity)
    (sameOccupied : ∀ handle, second.isOccupied handle = first.isOccupied handle) :
    second.occupiedCount = first.occupiedCount := by
  have sameFlags : second.slots.map Option.isSome = first.slots.map Option.isSome := by
    refine Array.ext (by simpa [capacity] using sameCapacity) fun index inSecond inFirst => ?_
    rw [Array.size_map] at inSecond inFirst
    have sameIndex : (Handle.ofIndex index).index = index :=
      Handle.index_ofIndex (Nat.lt_of_lt_of_le inFirst bounded)
    have here := sameOccupied (Handle.ofIndex index)
    simpa [isOccupied, slotAt?, sameIndex, Array.getElem?_eq_getElem inFirst,
      Array.getElem?_eq_getElem inSecond] using here
  have counted
      (slots : Array (Option Slot)) :
      slots.countP Option.isSome = (slots.map Option.isSome).countP id := by
    rw [Array.countP_map]
    rfl
  rw [occupiedCount, occupiedCount, counted, counted, sameFlags]

theorem join_getElem?_setIfInBounds
    (slots : Array (Option Slot))
    (index other : Nat)
    (value : Option Slot)
    (inBounds : index < slots.size) :
    (slots.setIfInBounds index value)[other]?.join =
      if other = index then value else slots[other]?.join := by
  rw [Array.getElem?_setIfInBounds]
  by_cases same : index = other
  · subst same
    simp [inBounds]
  · simp [same, Ne.symm same]

/-- Filling a slot counts one more, if it was empty. -/
theorem countP_isSome_fill
    {slots : Array (Option Slot)}
    {index : Nat}
    (slot : Slot)
    (free : slots[index]? = some none) :
    (slots.setIfInBounds index (some slot)).countP Option.isSome =
      slots.countP Option.isSome + 1 := by
  obtain ⟨inBounds, empty⟩ := Array.getElem?_eq_some_iff.mp free
  rw [Array.setIfInBounds, dif_pos inBounds, Array.countP_set inBounds, empty]
  simp

/-- Emptying a slot counts one less, if it was occupied. -/
theorem countP_isSome_empty
    {slots : Array (Option Slot)}
    {index : Nat}
    {slot : Slot}
    (occupied : slots[index]? = some (some slot)) :
    (slots.setIfInBounds index none).countP Option.isSome + 1 =
      slots.countP Option.isSome := by
  obtain ⟨inBounds, here⟩ := Array.getElem?_eq_some_iff.mp occupied
  have counted : 0 < slots.countP Option.isSome :=
    Array.countP_pos_iff.mpr ⟨some slot, Array.mem_of_getElem? occupied, rfl⟩
  rw [Array.setIfInBounds, dif_pos inBounds, Array.countP_set inBounds, here]
  simp only [Option.isSome_some, ↓reduceIte, Option.isSome_none, Bool.false_eq_true, Nat.add_zero]
  omega

/-- A slot that is found stands in the table. -/
theorem getElem?_of_slotAt?
    {heap : Heap}
    {handle : Handle}
    {slot : Slot}
    (found : heap.slotAt? handle = some slot) :
    heap.slots[handle.index]? = some (some slot) := by
  simpa [slotAt?, Option.join_eq_some_iff] using found

/-- Releasing an occupied slot succeeds and empties that slot alone. -/
theorem release_occupied
    {heap : Heap}
    {handle : Handle}
    (occupied : heap.isOccupied handle = true) :
    ∃ object,
      heap.get? handle = some object ∧
        release handle heap =
          (.ok object,
            { heap with
              slots := heap.slots.setIfInBounds handle.index none
              live := heap.live - 1 }) := by
  obtain ⟨slot, found⟩ := Option.isSome_iff_exists.mp occupied
  exact ⟨slot.object, by simp [get?, found], by simp [release, found]⟩

/-- After a release the released handle names nothing and every other handle what it did. -/
theorem slotAt?_release
    {heap : Heap}
    {handle : Handle}
    (occupied : heap.isOccupied handle = true)
    (other : Handle) :
    (release handle heap).2.slotAt? other =
      if other = handle then none else heap.slotAt? other := by
  obtain ⟨object, _, released⟩ := release_occupied occupied
  rw [released]
  simp only [slotAt?]
  rw [join_getElem?_setIfInBounds _ _ _ _ (index_lt_of_isOccupied occupied)]
  by_cases same : other = handle
  · simp [same]
  · have otherIndex : other.index ≠ handle.index :=
      fun sameIndex => same (Handle.eq_of_index_eq sameIndex)
    simp [same, otherIndex]

/-- Releasing an empty slot fails and changes nothing. -/
theorem release_empty
    {heap : Heap}
    {handle : Handle}
    (empty : heap.isOccupied handle = false) :
    release handle heap = (.error (.doubleFree handle), heap) := by
  have noSlot : heap.slotAt? handle = none :=
    Option.not_isSome_iff_eq_none.mp (Bool.eq_false_iff.mp empty)
  simp [release, noSlot]

theorem occupiedCount_release
    {heap : Heap}
    {handle : Handle}
    (occupied : heap.isOccupied handle = true) :
    (release handle heap).2.occupiedCount + 1 = heap.occupiedCount := by
  obtain ⟨slot, found⟩ := Option.isSome_iff_exists.mp occupied
  obtain ⟨object, _, released⟩ := release_occupied occupied
  rw [released]
  exact countP_isSome_empty (getElem?_of_slotAt? found)

/-- A release keeps the live count exact. -/
theorem Counted.release
    {heap : Heap}
    {handle : Handle}
    (counted : heap.Counted)
    (occupied : heap.isOccupied handle = true) :
    (Heap.release handle heap).2.Counted ∧
      (Heap.release handle heap).2.live + 1 = heap.live := by
  have oneLess := occupiedCount_release occupied
  have liveExact := counted.liveExact
  obtain ⟨object, _, released⟩ := release_occupied occupied
  rw [released] at oneLess ⊢
  simp only at oneLess ⊢
  refine ⟨⟨?_, ?_, counted.initialPositive, ?_⟩, ?_⟩
  · simpa [capacity] using counted.capacityBound
  · simp only
    omega
  · simpa [capacity] using counted.initialBound
  · omega

theorem Consistent.release
    {heap : Heap}
    {handle : Handle}
    (consistent : heap.Consistent)
    (occupied : heap.isOccupied handle = true) :
    (Heap.release handle heap).2.Consistent := by
  obtain ⟨counted, _⟩ := consistent.toCounted.release occupied
  obtain ⟨object, _, released⟩ := release_occupied occupied
  refine ⟨counted, ?_, ?_⟩
  · rw [released]
    exact consistent.thresholdLow
  · rw [capacity_release, released]
    exact consistent.thresholdHigh

/-- The search visits every slot number that lies among its positions. -/
theorem not_isFreeAt_of_findFree?_eq_none
    {heap : Heap}
    {start remaining : Nat}
    (notFound : heap.findFree? start remaining = none)
    {step : Nat}
    (visited : step < remaining) :
    heap.isFreeAt ((start + step) % heap.capacity) = false := by
  induction remaining generalizing start step with
  | zero =>
      exact absurd visited (Nat.not_lt_zero step)
  | succ remaining inductionHypothesis =>
      unfold findFree? at notFound
      by_cases freeHere : heap.isFreeAt (start % heap.capacity) = true
      · simp [freeHere] at notFound
      · simp only [freeHere, Bool.false_eq_true, ↓reduceIte] at notFound
        cases step with
        | zero =>
            simpa using freeHere
        | succ step =>
            have later := inductionHypothesis notFound (Nat.lt_of_succ_lt_succ visited)
            rwa [Nat.add_right_comm] at later

/-- If no free slot is found there is none. -/
theorem not_isFreeAt_of_nextFree?_eq_none
    {heap : Heap}
    {index : Nat}
    (notFound : heap.nextFree? = none)
    (inside : index < heap.capacity) :
    heap.isFreeAt index = false := by
  -- Counting on from `start`, the number `index` is met within one round of the table.
  let start := heap.searchStart % heap.capacity
  let step := (index + heap.capacity - start) % heap.capacity
  have positive : 0 < heap.capacity := Nat.zero_lt_of_lt inside
  have startInside : start < heap.capacity := Nat.mod_lt _ positive
  have stepInside : step < heap.capacity := Nat.mod_lt _ positive
  have notFree := not_isFreeAt_of_findFree?_eq_none notFound stepInside
  have met : (heap.searchStart + step) % heap.capacity = index := by
    calc
      (heap.searchStart + step) % heap.capacity
          = (start + (index + heap.capacity - start)) % heap.capacity := by
            simp only [start, step, Nat.add_mod, Nat.mod_mod]
      _ = (index + heap.capacity) % heap.capacity := by
            congr 1
            omega
      _ = index := by
            rw [Nat.add_mod_right, Nat.mod_eq_of_lt inside]
  rwa [met] at notFree

theorem lt_capacity_of_isFreeAt
    {heap : Heap}
    {index : Nat}
    (free : heap.isFreeAt index = true) :
    index < heap.capacity := by
  refine Nat.lt_of_not_le fun outside => ?_
  have noSlot : heap.slots[index]? = none :=
    Array.getElem?_eq_none outside
  simp [isFreeAt, noSlot] at free

/-- What a placement does to the table, given the free slot that it found. -/
theorem place_found
    {heap : Heap}
    {index : Nat}
    (object : Object)
    (found : heap.nextFree? = some index) :
    place object heap =
      (.ok (Handle.ofIndex index),
        { heap with
          slots := heap.slots.setIfInBounds index (some ⟨object, false⟩)
          last := some index
          live := heap.live + 1 }) := by
  simp [place, found]

/-- A placed object is found under its handle, every other handle names what it did. -/
theorem slotAt?_place
    {heap : Heap}
    {index : Nat}
    (bounded : heap.capacity ≤ Handle.bound)
    (object : Object)
    (found : heap.nextFree? = some index)
    (other : Handle) :
    (place object heap).2.slotAt? other =
      if other = Handle.ofIndex index then some ⟨object, false⟩ else heap.slotAt? other := by
  have inside : index < heap.capacity :=
    lt_capacity_of_isFreeAt (isFreeAt_of_findFree? found)
  have sameIndex : (Handle.ofIndex index).index = index :=
    Handle.index_ofIndex (Nat.lt_of_lt_of_le inside bounded)
  rw [place_found object found]
  simp only [slotAt?]
  rw [join_getElem?_setIfInBounds _ _ _ _ inside]
  by_cases same : other = Handle.ofIndex index
  · simp [same, sameIndex]
  · have otherIndex : other.index ≠ index := by
      intro isIndex
      exact same (Handle.eq_of_index_eq (isIndex.trans sameIndex.symm))
    simp [same, otherIndex]

/-- A placement without a free slot fails and changes nothing. -/
theorem place_full
    {heap : Heap}
    (object : Object)
    (notFound : heap.nextFree? = none) :
    place object heap = (.error .outOfMemory, heap) := by
  simp [place, notFound]

theorem occupiedCount_place
    {heap : Heap}
    {index : Nat}
    (object : Object)
    (found : heap.nextFree? = some index) :
    (place object heap).2.occupiedCount = heap.occupiedCount + 1 := by
  have free : heap.slots[index]? = some none := by
    simpa [isFreeAt] using isFreeAt_of_findFree? found
  rw [place_found object found]
  exact countP_isSome_fill ⟨object, false⟩ free

/-- A placement keeps the counters consistent. -/
theorem Consistent.place
    {heap : Heap}
    {index : Nat}
    (consistent : heap.Consistent)
    (object : Object)
    (found : heap.nextFree? = some index) :
    (Heap.place object heap).2.Consistent := by
  have oneMore := occupiedCount_place object found
  have liveExact := consistent.liveExact
  rw [place_found object found] at oneMore ⊢
  refine ⟨⟨?_, ?_, consistent.initialPositive, ?_⟩, consistent.thresholdLow, ?_⟩
  · simpa [capacity] using consistent.capacityBound
  · rw [oneMore, ← liveExact]
  · simpa [capacity] using consistent.initialBound
  · simpa [capacity] using consistent.thresholdHigh

theorem occupiedCount_clearMarks (heap : Heap) :
    heap.clearMarks.occupiedCount = heap.occupiedCount := by
  simp only [occupiedCount, clearMarks, Array.countP_map]
  congr 1
  funext slot
  cases slot <;> rfl

theorem Counted.clearMarks
    {heap : Heap}
    (counted : heap.Counted) :
    heap.clearMarks.Counted where
  capacityBound := by
    rw [capacity_clearMarks]
    exact counted.capacityBound
  liveExact := counted.liveExact.trans (occupiedCount_clearMarks heap).symm
  initialPositive := counted.initialPositive
  initialBound := by
    rw [capacity_clearMarks]
    exact counted.initialBound

/-- An adjustment puts the threshold between the initial one and the capacity. -/
theorem Counted.adjustThreshold
    {heap : Heap}
    (counted : heap.Counted) :
    heap.adjustThreshold.Consistent := by
  have initialBound := counted.initialBound
  refine ⟨⟨counted.capacityBound, counted.liveExact, counted.initialPositive, initialBound⟩, ?_, ?_⟩
  · exact Nat.le_max_left _ _
  · exact Nat.max_le.mpr ⟨initialBound, Nat.min_le_right _ _⟩

/-- Two tables of one size that agree on objects and marks are the same table. -/
theorem slots_eq_of_get?_of_isMarked
    {first second : Heap}
    (bounded : first.capacity ≤ Handle.bound)
    (sameCapacity : second.capacity = first.capacity)
    (sameObjects : ∀ handle, second.get? handle = first.get? handle)
    (sameMarks : ∀ handle, second.isMarked handle = first.isMarked handle) :
    second.slots = first.slots := by
  refine Array.ext sameCapacity fun index inSecond inFirst => ?_
  have sameIndex : (Handle.ofIndex index).index = index :=
    Handle.index_ofIndex (Nat.lt_of_lt_of_le inFirst bounded)
  have sameObject := sameObjects (Handle.ofIndex index)
  have sameMark := sameMarks (Handle.ofIndex index)
  simp only [get?, isMarked, slotAt?, sameIndex, Array.getElem?_eq_getElem inFirst,
    Array.getElem?_eq_getElem inSecond, Option.join_some] at sameObject sameMark
  rcases inFirstTable : first.slots[index] with _ | ⟨object, marked⟩ <;>
    rcases inSecondTable : second.slots[index] with _ | ⟨otherObject, otherMarked⟩ <;>
    simp_all

/-- A heap is determined by its objects, its marks and its counters. -/
theorem eq_of_view
    {first second : Heap}
    (bounded : first.capacity ≤ Handle.bound)
    (sameCapacity : second.capacity = first.capacity)
    (sameObjects : ∀ handle, second.get? handle = first.get? handle)
    (sameMarks : ∀ handle, second.isMarked handle = first.isMarked handle)
    (sameLast : second.last = first.last)
    (sameLive : second.live = first.live)
    (sameInitial : second.initialThreshold = first.initialThreshold)
    (sameThreshold : second.threshold = first.threshold) :
    second = first := by
  have sameSlots := slots_eq_of_get?_of_isMarked bounded sameCapacity sameObjects sameMarks
  cases first
  cases second
  simp_all

end Heap

end ArenaLisp
