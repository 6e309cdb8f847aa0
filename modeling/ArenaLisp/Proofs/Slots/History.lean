import ArenaLisp.Proofs.Tracing

namespace ArenaLisp

/-!
# Histories of a heap

A heap is used by a handful of operations, and a history is any number of them in any
order.  The two that mark work on a list of pending handles which belongs to whoever
uses the heap, so it may hold anything each time.

Whatever has been done to it, a heap counts its occupied slots right, its threshold lies
where an adjustment would put it, and its search position lies in the table.  Nothing is
assumed of the number of slots: there may be more of them than handles can name.
-/

namespace Heap

/-- One use of a heap; a use that marks is handed some pending handles. -/
inductive Step where
  | place (object : Object)
  | release (handle : Handle)
  | clearMarks
  | mark (handle : Handle) (pending : List Handle)
  | drain (pending : List Handle)
  | adjustThreshold
  deriving Repr, DecidableEq

/-- The heap after one use, whether that has succeeded or failed. -/
def Step.run : Step → Heap → Heap
  | .place object, heap => (Heap.place object heap).2
  | .release handle, heap => (Heap.release handle heap).2
  | .clearMarks, heap => heap.clearMarks
  | .mark handle pending, heap => (Trace.mark ⟨heap, pending⟩ handle).heap
  | .drain pending, heap => Trace.drain ⟨heap, pending⟩
  | .adjustThreshold, heap => heap.adjustThreshold

/-- The heap after some uses, one after the other. -/
def runAll (heap : Heap) (steps : List Step) : Heap :=
  steps.foldl (fun heap step => step.run heap) heap

theorem runAll_cons
    (heap : Heap)
    (step : Step)
    (rest : List Step) :
    heap.runAll (step :: rest) = (step.run heap).runAll rest :=
  rfl

/-- What a heap says about itself is right, and its bounds are in order. -/
structure Coherent (heap : Heap) : Prop where
  liveExact : heap.live = heap.occupiedCount
  initialPositive : 1 ≤ heap.initialThreshold
  thresholdLow : heap.initialThreshold ≤ heap.threshold
  thresholdHigh : heap.threshold ≤ heap.capacity
  lastInside : ∀ index ∈ heap.last, index < heap.capacity

/-- Two heaps with the same counters in which the same slots are occupied. -/
def SameOccupancy (before after : Heap) : Prop :=
  ∃ slots : Array (Option Slot),
    after = { before with slots := slots } ∧
      slots.map Option.isSome = before.slots.map Option.isSome

namespace SameOccupancy

variable {before between after : Heap}

theorem refl (heap : Heap) : SameOccupancy heap heap :=
  ⟨heap.slots, rfl, rfl⟩

theorem trans
    (first : SameOccupancy before between)
    (second : SameOccupancy between after) :
    SameOccupancy before after := by
  obtain ⟨firstSlots, rfl, firstSame⟩ := first
  obtain ⟨secondSlots, rfl, secondSame⟩ := second
  exact ⟨secondSlots, rfl, secondSame.trans firstSame⟩

theorem capacity
    (same : SameOccupancy before after) :
    after.capacity = before.capacity := by
  obtain ⟨slots, rfl, sameFlags⟩ := same
  have sameSize := congrArg Array.size sameFlags
  rwa [Array.size_map, Array.size_map] at sameSize

theorem occupiedCount
    (same : SameOccupancy before after) :
    after.occupiedCount = before.occupiedCount := by
  obtain ⟨slots, rfl, sameFlags⟩ := same
  have sameCount := congrArg (Array.countP id) sameFlags
  rwa [Array.countP_map, Array.countP_map] at sameCount

theorem isFreeAt
    (same : SameOccupancy before after)
    (index : Nat) :
    after.isFreeAt index = before.isFreeAt index := by
  have freeIff
      (heap : Heap) :
      heap.isFreeAt index = true ↔ (heap.slots.map Option.isSome)[index]? = some false := by
    rw [Array.getElem?_map, Heap.isFreeAt, decide_eq_true_iff]
    rcases heap.slots[index]? with _ | _ | _ <;> simp
  obtain ⟨slots, rfl, sameFlags⟩ := same
  rw [Bool.eq_iff_iff, freeIff, freeIff, sameFlags]

end SameOccupancy

theorem sameOccupancy_clearMarks (heap : Heap) : SameOccupancy heap heap.clearMarks := by
  refine ⟨_, rfl, ?_⟩
  rw [Array.map_map]
  congr 1
  funext slot
  cases slot <;> rfl

theorem sameOccupancy_mark
    (trace : Trace)
    (handle : Handle) :
    SameOccupancy trace.heap (trace.mark handle).heap := by
  unfold Trace.mark
  split
  · exact .refl _
  · rename_i slot found
    split
    · exact .refl _
    · have stands := getElem?_of_slotAt? found
      refine ⟨_, rfl, Array.ext_getElem? fun index => ?_⟩
      rw [Array.getElem?_map, Array.getElem?_map, Array.getElem?_setIfInBounds]
      by_cases isMarked : handle.index = index
      · subst isMarked
        rw [stands, if_pos rfl, if_pos (Array.getElem?_eq_some_iff.mp stands).1]
        rfl
      · rw [if_neg isMarked]

theorem sameOccupancy_drain (trace : Trace) : SameOccupancy trace.heap trace.drain := by
  induction trace using Trace.drain.induct with
  | case1 heap =>
      unfold Trace.drain
      exact .refl heap
  | case2 heap handle others inductionHypothesis =>
      have oneStep : SameOccupancy heap (Trace.markChildren ⟨heap, others⟩ handle).heap := by
        unfold Trace.markChildren
        split
        · exact .refl heap
        · exact (sameOccupancy_mark ⟨heap, others⟩ _).trans (sameOccupancy_mark _ _)
      unfold Trace.drain
      exact oneStep.trans inductionHypothesis

namespace Coherent

variable {heap after : Heap}

theorem of_sameOccupancy
    (coherent : heap.Coherent)
    (same : SameOccupancy heap after) :
    after.Coherent := by
  have sameCapacity := same.capacity
  have sameCount := same.occupiedCount
  obtain ⟨slots, rfl, _⟩ := same
  refine ⟨coherent.liveExact.trans sameCount.symm, coherent.initialPositive,
    coherent.thresholdLow, ?_, ?_⟩
  · rw [sameCapacity]
    exact coherent.thresholdHigh
  · rw [sameCapacity]
    exact coherent.lastInside

/-- A full table counts as full, whatever the threshold. -/
theorem needsCollection_of_full
    (coherent : heap.Coherent)
    (full : ∀ index < heap.capacity, heap.isFreeAt index = false) :
    heap.needsCollection = true := by
  have allOccupied : ∀ slot ∈ heap.slots, Option.isSome slot = true := by
    intro slot member
    obtain ⟨index, inside, here⟩ := Array.mem_iff_getElem.mp member
    have notFree := full index inside
    cases slot with
    | none =>
        simp [isFreeAt, Array.getElem?_eq_getElem inside, here] at notFree
    | some slot =>
        rfl
  have everySlot : heap.occupiedCount = heap.capacity :=
    Array.countP_eq_size.mpr allOccupied
  simp [needsCollection, isFull, coherent.liveExact, everySlot]

theorem place
    (coherent : heap.Coherent)
    (object : Object) :
    (Heap.place object heap).2.Coherent := by
  cases found : heap.nextFree? with
  | none =>
      rw [place_full object found]
      exact coherent
  | some index =>
      have inside := lt_capacity_of_isFreeAt (isFreeAt_of_findFree? found)
      have oneMore := occupiedCount_place object found
      have liveExact := coherent.liveExact
      have sameCapacity := capacity_place object heap
      rw [place_found object found] at oneMore sameCapacity ⊢
      refine ⟨?_, coherent.initialPositive, coherent.thresholdLow, ?_, ?_⟩
      · rw [oneMore, ← liveExact]
      · rw [sameCapacity]
        exact coherent.thresholdHigh
      · rintro _ ⟨⟩
        rw [sameCapacity]
        exact inside

/-- The live count of a release that succeeds was not zero. -/
theorem live_release
    (coherent : heap.Coherent)
    {handle : Handle}
    (occupied : heap.isOccupied handle = true) :
    (Heap.release handle heap).2.live + 1 = heap.live := by
  have oneLess := occupiedCount_release occupied
  have liveExact := coherent.liveExact
  obtain ⟨object, _, released⟩ := release_occupied occupied
  rw [released]
  simp only
  omega

theorem release
    (coherent : heap.Coherent)
    (handle : Handle) :
    (Heap.release handle heap).2.Coherent := by
  cases occupied : heap.isOccupied handle with
  | false =>
      rw [release_empty occupied]
      exact coherent
  | true =>
      have oneLess := occupiedCount_release occupied
      have liveExact := coherent.liveExact
      have lessLive := coherent.live_release occupied
      have sameCapacity := capacity_release handle heap
      obtain ⟨object, _, released⟩ := release_occupied occupied
      rw [released] at oneLess lessLive sameCapacity ⊢
      refine ⟨by omega, coherent.initialPositive, coherent.thresholdLow, ?_, ?_⟩
      · rw [sameCapacity]
        exact coherent.thresholdHigh
      · rw [sameCapacity]
        exact coherent.lastInside

theorem adjustThreshold
    (coherent : heap.Coherent) :
    heap.adjustThreshold.Coherent where
  liveExact := coherent.liveExact
  initialPositive := coherent.initialPositive
  thresholdLow := Nat.le_max_left _ _
  thresholdHigh :=
    Nat.max_le.mpr
      ⟨Nat.le_trans coherent.thresholdLow coherent.thresholdHigh, Nat.min_le_right _ _⟩
  lastInside := coherent.lastInside

end Coherent

/-- No use changes the size of the table or its initial threshold. -/
theorem Step.run_constants
    (step : Step)
    (heap : Heap) :
    (step.run heap).capacity = heap.capacity ∧
      (step.run heap).initialThreshold = heap.initialThreshold := by
  have ofSame
      {after : Heap}
      (same : SameOccupancy heap after) :
      after.capacity = heap.capacity ∧ after.initialThreshold = heap.initialThreshold := by
    refine ⟨same.capacity, ?_⟩
    obtain ⟨slots, rfl, _⟩ := same
    rfl
  cases step with
  | place object =>
      refine ⟨capacity_place object heap, ?_⟩
      simp only [Step.run, Heap.place]
      split <;> rfl
  | release handle =>
      refine ⟨capacity_release handle heap, ?_⟩
      simp only [Step.run, Heap.release]
      split <;> rfl
  | clearMarks =>
      exact ofSame (sameOccupancy_clearMarks heap)
  | mark handle pending =>
      exact ofSame (sameOccupancy_mark ⟨heap, pending⟩ handle)
  | drain pending =>
      exact ofSame (sameOccupancy_drain ⟨heap, pending⟩)
  | adjustThreshold =>
      exact ⟨rfl, rfl⟩

theorem Step.run_coherent
    {heap : Heap}
    (coherent : heap.Coherent)
    (step : Step) :
    (step.run heap).Coherent := by
  cases step with
  | place object =>
      exact coherent.place object
  | release handle =>
      exact coherent.release handle
  | clearMarks =>
      exact coherent.of_sameOccupancy (sameOccupancy_clearMarks heap)
  | mark handle pending =>
      exact coherent.of_sameOccupancy (sameOccupancy_mark ⟨heap, pending⟩ handle)
  | drain pending =>
      exact coherent.of_sameOccupancy (sameOccupancy_drain ⟨heap, pending⟩)
  | adjustThreshold =>
      exact coherent.adjustThreshold

theorem release_failed
    {heap after : Heap}
    {handle : Handle}
    {error : Error}
    (failed : release handle heap = (.error error, after)) :
    after = heap ∧ error = .doubleFree handle ∧ heap.isOccupied handle = false := by
  cases occupied : heap.isOccupied handle with
  | false =>
      rw [release_empty occupied] at failed
      cases failed
      exact ⟨rfl, rfl, rfl⟩
  | true =>
      obtain ⟨object, _, released⟩ := release_occupied occupied
      rw [released] at failed
      cases failed

theorem place_failed
    {heap after : Heap}
    {object : Object}
    {error : Error}
    (failed : place object heap = (.error error, after)) :
    after = heap ∧
      error = .outOfMemory ∧
      ∀ index < heap.capacity, heap.isFreeAt index = false := by
  cases found : heap.nextFree? with
  | none =>
      rw [place_full object found] at failed
      cases failed
      exact ⟨rfl, rfl, fun index => not_isFreeAt_of_nextFree?_eq_none found⟩
  | some index =>
      rw [place_found object found] at failed
      cases failed

theorem runAll_constants
    (heap : Heap)
    (steps : List Step) :
    (heap.runAll steps).capacity = heap.capacity ∧
      (heap.runAll steps).initialThreshold = heap.initialThreshold := by
  induction steps generalizing heap with
  | nil =>
      exact ⟨rfl, rfl⟩
  | cons step rest inductionHypothesis =>
      obtain ⟨sameCapacity, sameInitial⟩ := step.run_constants heap
      obtain ⟨laterCapacity, laterInitial⟩ := inductionHypothesis (step.run heap)
      exact ⟨laterCapacity.trans sameCapacity, laterInitial.trans sameInitial⟩

theorem runAll_coherent
    {heap : Heap}
    (coherent : heap.Coherent)
    (steps : List Step) :
    (heap.runAll steps).Coherent := by
  induction steps generalizing heap with
  | nil =>
      exact coherent
  | cons step rest inductionHypothesis =>
      exact inductionHypothesis (step.run_coherent coherent)

/-- A new heap is coherent whatever is asked for, a threshold out of bounds included. -/
theorem coherent_create (capacity initialThreshold : Nat) :
    (create capacity initialThreshold).Coherent := by
  have sameCapacity := capacity_create capacity initialThreshold
  have noneOccupied : (create capacity initialThreshold).occupiedCount = 0 := by
    simp [occupiedCount, create]
  refine ⟨noneOccupied.symm, ?_, Nat.le_refl _, ?_, ?_⟩
  · simp only [create, clamp]
    omega
  · rw [sameCapacity]
    simp only [create, clamp]
    omega
  · rintro _ ⟨⟩

/--
Whatever capacity and threshold a heap is made with, and whatever is done to it in
whatever order: its capacity and its initial threshold are the ones it was made with, it
has at least one slot, and it is coherent, so the bounds of the threshold are never
reversed.  If every slot is occupied a collection is due.  A release that succeeds takes
one from a live count that was not zero, and a release or a placement that fails changes
nothing: the slot to be released was empty, or no slot was.
-/
theorem create_runAll_coherent
    (capacity initialThreshold : Nat)
    (steps : List Step) :
    let heap := (create capacity initialThreshold).runAll steps
    heap.capacity = max capacity 1 ∧
      heap.initialThreshold = clamp 1 (max capacity 1) initialThreshold ∧
      heap.Coherent ∧
      heap.initialThreshold ≤ heap.capacity ∧
      ((∀ index < heap.capacity, heap.isFreeAt index = false) → heap.needsCollection = true) ∧
      (∀ handle object after,
        release handle heap = (.ok object, after) → after.live + 1 = heap.live) ∧
      (∀ handle error after,
        release handle heap = (.error error, after) →
        after = heap ∧ error = .doubleFree handle ∧ heap.isOccupied handle = false) ∧
      (∀ object error after,
        place object heap = (.error error, after) →
        after = heap ∧ error = .outOfMemory ∧
          ∀ index < heap.capacity, heap.isFreeAt index = false) := by
  intro heap
  obtain ⟨sameCapacity, sameInitial⟩ :=
    runAll_constants (create capacity initialThreshold) steps
  have coherent : heap.Coherent :=
    runAll_coherent (coherent_create capacity initialThreshold) steps
  refine ⟨sameCapacity.trans (capacity_create capacity initialThreshold), sameInitial, coherent,
    Nat.le_trans coherent.thresholdLow coherent.thresholdHigh, coherent.needsCollection_of_full,
    ?_, ?_, ?_⟩
  · intro handle object after succeeded
    cases occupied : heap.isOccupied handle with
    | false =>
        rw [release_empty occupied] at succeeded
        cases succeeded
    | true =>
        have lessLive := coherent.live_release occupied
        rwa [succeeded] at lessLive
  · exact fun handle error after => release_failed
  · exact fun object error after => place_failed

end Heap

end ArenaLisp
