import ArenaLisp.Proofs.Slots.History
import Mathlib.Data.List.Rotate

namespace ArenaLisp

/-!
# Taking turns

The free slots of a heap stand in a queue: those from the search position up, then those
below it.  A placement fills the slot in front, and the search then starts behind that
slot, so the others keep their order and move up.  Marking and adjusting touch no free
slot and no search position; only a release lets a slot into the queue.
-/

namespace Heap

/-- Every slot number once, in the order in which a search from this start meets them. -/
def searchOrder (heap : Heap) (start : Nat) : List Nat :=
  (List.range heap.capacity).rotate start

/-- The free slots in the order in which a search from this start meets them. -/
def turns (heap : Heap) (start : Nat) : List Nat :=
  (heap.searchOrder start).filter heap.isFreeAt

/-- The number of free slots. -/
def freeCount (heap : Heap) : Nat :=
  (List.range heap.capacity).countP heap.isFreeAt

/-- Going up from a start and around at the end, this slot is the first free one met. -/
def FirstFree (heap : Heap) (start index : Nat) : Prop :=
  ∃ distance < heap.capacity,
    (start + distance) % heap.capacity = index ∧
      heap.isFreeAt index = true ∧
      ∀ closer < distance, heap.isFreeAt ((start + closer) % heap.capacity) = false

theorem findFree?_eq_find?
    (heap : Heap)
    (start remaining : Nat) :
    heap.findFree? start remaining =
      ((List.range remaining).map fun step => (start + step) % heap.capacity).find?
        heap.isFreeAt := by
  induction remaining generalizing start with
  | zero =>
      rfl
  | succ remaining inductionHypothesis =>
      have shifted :
          ((fun step => (start + step) % heap.capacity) ∘ Nat.succ) =
            fun step => (start + 1 + step) % heap.capacity := by
        funext step
        rw [Function.comp_apply, Nat.add_succ, Nat.succ_add]
      rw [List.range_succ_eq_map, List.map_cons, List.map_map, shifted, List.find?_cons,
        findFree?, inductionHypothesis]
      cases heap.isFreeAt (start % heap.capacity) <;> rfl

theorem searchOrder_eq_map
    (heap : Heap)
    (start : Nat) :
    heap.searchOrder start =
      (List.range heap.capacity).map fun step => (start + step) % heap.capacity := by
  refine List.ext_getElem (by simp [searchOrder]) fun step inOrder inRange => ?_
  simp [searchOrder, List.getElem_rotate, Nat.add_comm]

/-- The slot filled next is the one in front of the queue. -/
theorem nextFree?_eq_head? (heap : Heap) :
    heap.nextFree? = (heap.turns heap.searchStart).head? := by
  rw [turns, List.head?_filter, searchOrder_eq_map, nextFree?, findFree?_eq_find?]

theorem nextFree?_eq_some_iff
    {heap : Heap}
    {index : Nat} :
    heap.nextFree? = some index ↔ heap.FirstFree heap.searchStart index := by
  rw [nextFree?, findFree?_eq_find?, List.find?_map, Option.map_eq_some_iff]
  constructor
  · rintro ⟨distance, found, isIndex⟩
    obtain ⟨free, inside, noneCloser⟩ := List.find?_range_eq_some.mp found
    refine ⟨distance, List.mem_range.mp inside, isIndex, ?_, fun closer isCloser => ?_⟩
    · rwa [← isIndex]
    · simpa using noneCloser closer isCloser
  · rintro ⟨distance, inside, isIndex, free, noneCloser⟩
    refine ⟨distance, List.find?_range_eq_some.mpr ⟨?_, List.mem_range.mpr inside, ?_⟩, isIndex⟩
    · rwa [Function.comp_apply, isIndex]
    · intro closer isCloser
      simp [noneCloser closer isCloser]

theorem nextFree?_eq_none_iff
    {heap : Heap} :
    heap.nextFree? = none ↔ ∀ index < heap.capacity, heap.isFreeAt index = false := by
  refine ⟨fun notFound index => not_isFreeAt_of_nextFree?_eq_none notFound, fun noneFree => ?_⟩
  cases found : heap.nextFree? with
  | none =>
      rfl
  | some index =>
      have free := isFreeAt_of_findFree? found
      rw [noneFree index (lt_capacity_of_isFreeAt free)] at free
      cases free

theorem mem_turns
    {heap : Heap}
    {start index : Nat} :
    index ∈ heap.turns start ↔ heap.isFreeAt index = true := by
  rw [turns, List.mem_filter, searchOrder, List.mem_rotate, List.mem_range]
  exact ⟨And.right, fun free => ⟨lt_capacity_of_isFreeAt free, free⟩⟩

theorem nodup_searchOrder
    (heap : Heap)
    (start : Nat) :
    (heap.searchOrder start).Nodup :=
  List.nodup_rotate.mpr List.nodup_range

theorem nodup_turns
    (heap : Heap)
    (start : Nat) :
    (heap.turns start).Nodup :=
  (heap.nodup_searchOrder start).filter _

theorem length_turns
    (heap : Heap)
    (start : Nat) :
    (heap.turns start).length = heap.freeCount := by
  rw [turns, ← List.countP_eq_length_filter]
  exact (List.rotate_perm _ _).countP_eq _

theorem turns_congr
    {before after : Heap}
    (sameCapacity : after.capacity = before.capacity)
    (sameFree : ∀ index, after.isFreeAt index = before.isFreeAt index)
    (start : Nat) :
    after.turns start = before.turns start := by
  rw [turns, turns, searchOrder, searchOrder, sameCapacity, funext sameFree]

/-- Behind a slot, the search meets what came after it, then what came before it. -/
theorem searchOrder_behind
    {heap : Heap}
    {start index : Nat}
    {before after : List Nat}
    (split : heap.searchOrder start = before ++ index :: after) :
    heap.searchOrder (index + 1) = after ++ (before ++ [index]) := by
  have inOrder : before.length < heap.capacity := by
    have sameLength := congrArg List.length split
    simp only [searchOrder, List.length_rotate, List.length_range, List.length_append,
      List.length_cons] at sameLength
    omega
  have isIndex : (start + before.length) % heap.capacity = index := by
    have here : (heap.searchOrder start)[before.length]? = some index := by
      rw [split, List.getElem?_append_right (Nat.le_refl _), Nat.sub_self]
      rfl
    rw [searchOrder_eq_map, List.getElem?_map, List.getElem?_range inOrder] at here
    exact Option.some.inj here
  calc
    heap.searchOrder (index + 1)
        = (List.range heap.capacity).rotate ((index + 1) % heap.capacity) := by
          conv_lhs => rw [searchOrder, ← List.rotate_mod, List.length_range]
    _ = (List.range heap.capacity).rotate ((start + (before.length + 1)) % heap.capacity) := by
          rw [← isIndex, Nat.mod_add_mod, Nat.add_assoc]
    _ = (heap.searchOrder start).rotate (before ++ [index]).length := by
          rw [searchOrder, List.rotate_rotate, List.length_append, List.length_singleton]
          conv_rhs => rw [← List.rotate_mod, List.length_range]
    _ = after ++ (before ++ [index]) := by
          rw [split, List.append_cons, List.rotate_append_length_eq]

theorem isFreeAt_place
    {heap : Heap}
    {index : Nat}
    (object : Object)
    (found : heap.nextFree? = some index)
    (other : Nat) :
    (place object heap).2.isFreeAt other = (decide (other ≠ index) && heap.isFreeAt other) := by
  rw [place_found object found]
  simp only [isFreeAt, Array.getElem?_setIfInBounds]
  by_cases same : index = other
  · subst same
    by_cases inside : index < heap.slots.size <;> simp [inside]
  · simp [same, Ne.symm same]

/-- A placement takes the slot in front out of the queue, and the others move up. -/
theorem turns_place
    (heap : Heap)
    (object : Object) :
    let after := (place object heap).2
    after.turns after.searchStart = (heap.turns heap.searchStart).tail := by
  intro after
  cases found : heap.nextFree? with
  | none =>
      have unchanged : after = heap := congrArg Prod.snd (place_full object found)
      have emptyQueue : heap.turns heap.searchStart = [] := by
        rwa [nextFree?_eq_head?, List.head?_eq_none_iff] at found
      rw [unchanged, emptyQueue]
      rfl
  | some index =>
      have sameCapacity : after.capacity = heap.capacity := capacity_place object heap
      have behind : after.searchStart = index + 1 := by
        simp only [after, place_found object found, searchStart]
      have firstMet := found
      rw [nextFree?_eq_head?, turns, List.head?_filter] at firstMet
      obtain ⟨free, earlier, later, split, noneEarlier⟩ :=
        List.find?_eq_some_iff_append.mp firstMet
      have filledHere
          (other : Nat) :
          after.isFreeAt other = (decide (other ≠ index) && heap.isFreeAt other) :=
        isFreeAt_place object found other
      have earlierGone : earlier.filter heap.isFreeAt = [] :=
        List.filter_eq_nil_iff.mpr fun other member => by simpa using noneEarlier other member
      have earlierFilled : (earlier ++ [index]).filter after.isFreeAt = [] := by
        refine List.filter_eq_nil_iff.mpr fun other member => ?_
        rcases List.mem_append.mp member with inEarlier | isIndex
        · have notFree := noneEarlier other inEarlier
          simp_all
        · simp_all
      -- No slot is met twice, so the one filled now is not among those met later.
      have laterKept : later.filter after.isFreeAt = later.filter heap.isFreeAt := by
        refine List.filter_congr fun other member => ?_
        have distinct : (earlier ++ index :: later).Nodup := split ▸ heap.nodup_searchOrder _
        have notIndex : other ≠ index := by
          rintro rfl
          exact (List.nodup_cons.mp distinct.of_append_right).1 member
        simp [filledHere, notIndex]
      have sameOrder : after.searchOrder (index + 1) = heap.searchOrder (index + 1) := by
        rw [searchOrder, searchOrder, sameCapacity]
      calc
        after.turns after.searchStart
            = (later ++ (earlier ++ [index])).filter after.isFreeAt := by
              rw [turns, behind, sameOrder, searchOrder_behind split]
        _ = later.filter heap.isFreeAt := by
              rw [List.filter_append, laterKept, earlierFilled, List.append_nil]
        _ = (heap.turns heap.searchStart).tail := by
              rw [turns, split, List.filter_append, earlierGone, List.nil_append,
                List.filter_cons_of_pos free, List.tail_cons]

/-- Whether a use asks for an object to be placed. -/
def Step.isPlacement : Step → Bool
  | .place _ => true
  | _ => false

/-- Whether a use asks for a slot to be emptied. -/
def Step.isRelease : Step → Bool
  | .release _ => true
  | _ => false

/-- The handle with which a use answers, if it places an object. -/
def Step.placed? : Step → Heap → Option Handle
  | .place object, heap => (Heap.place object heap).1.toOption
  | _, _ => none

/-- The handles with which the placements of a history answer, those that succeed. -/
def placements : Heap → List Step → List Handle
  | _, [] => []
  | heap, step :: rest => (step.placed? heap).toList ++ (step.run heap).placements rest

/-- Where the search starts in a heap in which these placements were made. -/
def startAfter (placed : List Handle) : Nat :=
  match placed.getLast? with
  | none => 0
  | some handle => handle.index + 1

/-- A use that is no placement moves no search position. -/
theorem Step.last_run
    {step : Step}
    (noPlacement : step.isPlacement = false)
    (heap : Heap) :
    (step.run heap).last = heap.last := by
  have ofSame
      {after : Heap}
      (same : SameOccupancy heap after) :
      after.last = heap.last := by
    obtain ⟨slots, rfl, _⟩ := same
    rfl
  cases step with
  | place object =>
      cases noPlacement
  | release handle =>
      simp only [Step.run, Heap.release]
      split <;> rfl
  | clearMarks =>
      exact ofSame (sameOccupancy_clearMarks heap)
  | mark handle pending =>
      exact ofSame (sameOccupancy_mark ⟨heap, pending⟩ handle)
  | drain pending =>
      exact ofSame (sameOccupancy_drain ⟨heap, pending⟩)
  | adjustThreshold =>
      rfl

/-- A use that neither places nor releases leaves the queue of free slots as it is. -/
theorem Step.turns_run
    {step : Step}
    (noPlacement : step.isPlacement = false)
    (noRelease : step.isRelease = false)
    (heap : Heap)
    (start : Nat) :
    (step.run heap).turns start = heap.turns start := by
  have ofSame
      {after : Heap}
      (same : SameOccupancy heap after) :
      after.turns start = heap.turns start :=
    turns_congr same.capacity same.isFreeAt start
  cases step with
  | place object =>
      cases noPlacement
  | release handle =>
      cases noRelease
  | clearMarks =>
      exact ofSame (sameOccupancy_clearMarks heap)
  | mark handle pending =>
      exact ofSame (sameOccupancy_mark ⟨heap, pending⟩ handle)
  | drain pending =>
      exact ofSame (sameOccupancy_drain ⟨heap, pending⟩)
  | adjustThreshold =>
      rfl

theorem Step.placed?_eq_none
    {step : Step}
    (noPlacement : step.isPlacement = false)
    (heap : Heap) :
    step.placed? heap = none := by
  cases step with
  | place object =>
      cases noPlacement
  | _ =>
      rfl

/-- A placement answers with the slot in front of the queue. -/
theorem Step.placed?_place
    {heap : Heap}
    (bounded : heap.capacity ≤ Handle.bound)
    (object : Object) :
    ((Step.place object).placed? heap).map Handle.index = heap.nextFree? := by
  cases found : heap.nextFree? with
  | none =>
      rw [Step.placed?, place_full object found]
      rfl
  | some index =>
      have inside := lt_capacity_of_isFreeAt (isFreeAt_of_findFree? found)
      rw [Step.placed?, place_found object found]
      exact congrArg some (Handle.index_ofIndex (Nat.lt_of_lt_of_le inside bounded))

theorem Step.last_run_place
    {heap : Heap}
    (object : Object) :
    ((Step.place object).run heap).last = heap.nextFree?.or heap.last := by
  cases found : heap.nextFree? with
  | none =>
      rw [Step.run, place_full object found]
      rfl
  | some index =>
      rw [Step.run, place_found object found]
      rfl

/-- The search position is the slot of the last placement that succeeded. -/
theorem last_runAll
    {heap : Heap}
    (bounded : heap.capacity ≤ Handle.bound)
    (history : List Step) :
    (heap.runAll history).last =
      ((heap.placements history).getLast?.map Handle.index).or heap.last := by
  induction history generalizing heap with
  | nil =>
      rfl
  | cons step rest inductionHypothesis =>
      have stillBounded : (step.run heap).capacity ≤ Handle.bound := by
        rwa [(step.run_constants heap).1]
      have oneStep :
          (step.run heap).last = ((step.placed? heap).map Handle.index).or heap.last := by
        cases isPlacement : step.isPlacement with
        | false =>
            rw [Step.last_run isPlacement, Step.placed?_eq_none isPlacement]
            rfl
        | true =>
            cases step with
            | place object =>
                rw [Step.last_run_place, Step.placed?_place bounded]
            | _ =>
                cases isPlacement
      rw [runAll_cons, inductionHypothesis stillBounded, oneStep, placements,
        List.getLast?_append, Option.map_or, Option.or_assoc]
      cases step.placed? heap <;> rfl

/--
Over a history without releases the placements answer with the front of the queue, one
slot after the other, and what is left of it is the queue in the end.
-/
theorem placements_eq_take
    {heap : Heap}
    (bounded : heap.capacity ≤ Handle.bound)
    {later : List Step}
    (noRelease : ∀ step ∈ later, step.isRelease = false) :
    let asked := later.countP Step.isPlacement
    let queue := heap.turns heap.searchStart
    let after := heap.runAll later
    (heap.placements later).map Handle.index = queue.take asked ∧
      after.turns after.searchStart = queue.drop asked := by
  induction later generalizing heap with
  | nil =>
      exact ⟨rfl, rfl⟩
  | cons step rest inductionHypothesis =>
      have stillBounded : (step.run heap).capacity ≤ Handle.bound := by
        rwa [(step.run_constants heap).1]
      obtain ⟨stepIsNone, restIsNone⟩ := List.forall_mem_cons.mp noRelease
      obtain ⟨restPlaced, restQueue⟩ := inductionHypothesis stillBounded restIsNone
      cases isPlacement : step.isPlacement with
      | false =>
          have sameStart : (step.run heap).searchStart = heap.searchStart := by
            rw [searchStart, searchStart, Step.last_run isPlacement]
          have sameQueue :
              (step.run heap).turns (step.run heap).searchStart =
                heap.turns heap.searchStart := by
            rw [sameStart, Step.turns_run isPlacement stepIsNone]
          rw [sameQueue] at restPlaced restQueue
          rw [List.countP_cons_of_neg (by simp [isPlacement]), runAll_cons, placements,
            Step.placed?_eq_none isPlacement]
          exact ⟨restPlaced, restQueue⟩
      | true =>
          cases step with
          | place object =>
              have front :
                  ((Step.place object).placed? heap).toList.map Handle.index =
                    (heap.turns heap.searchStart).head?.toList := by
                rw [← nextFree?_eq_head?, ← Step.placed?_place bounded object]
                cases (Step.place object).placed? heap <;> rfl
              have sameQueue :
                  ((Step.place object).run heap).turns
                      ((Step.place object).run heap).searchStart =
                    (heap.turns heap.searchStart).tail :=
                turns_place heap object
              rw [sameQueue] at restPlaced restQueue
              rw [List.countP_cons_of_pos isPlacement, runAll_cons, placements, List.map_append,
                front, restPlaced]
              refine ⟨?_, restQueue.trans ?_⟩ <;> cases heap.turns heap.searchStart <;> simp
          | _ =>
              cases isPlacement

/-- The search starts behind the slot of the last placement of a history. -/
theorem searchStart_runAll
    {heap : Heap}
    (bounded : heap.capacity ≤ Handle.bound)
    (nonePlaced : heap.last = none)
    (history : List Step) :
    (heap.runAll history).searchStart = startAfter (heap.placements history) := by
  rw [searchStart, last_runAll bounded history, nonePlaced, startAfter]
  cases (heap.placements history).getLast? <;> rfl

/-- A placement fills the first free slot that it meets, and fails only without one. -/
theorem place_fills
    {heap : Heap}
    (bounded : heap.capacity ≤ Handle.bound)
    (object : Object) :
    (∃ handle after,
      place object heap = (.ok handle, after) ∧
        heap.FirstFree heap.searchStart handle.index ∧
        after.get? handle = some object ∧
        after.isMarked handle = false ∧
        ∀ other ≠ handle.index, after.slots[other]? = heap.slots[other]?) ∨
      place object heap = (.error .outOfMemory, heap) := by
  cases found : heap.nextFree? with
  | none =>
      exact .inr (place_full object found)
  | some index =>
      have inside := lt_capacity_of_isFreeAt (isFreeAt_of_findFree? found)
      have sameIndex : (Handle.ofIndex index).index = index :=
        Handle.index_ofIndex (Nat.lt_of_lt_of_le inside bounded)
      have placedSlot := slotAt?_place bounded object found (Handle.ofIndex index)
      rw [if_pos rfl, place_found object found] at placedSlot
      refine .inl ⟨_, _, place_found object found, ?_, ?_, ?_, ?_⟩
      · rw [sameIndex]
        exact nextFree?_eq_some_iff.mp found
      · rw [get?, placedSlot]
        rfl
      · rw [isMarked, placedSlot]
        rfl
      · intro other elsewhere
        rw [sameIndex] at elsewhere
        exact Array.getElem?_setIfInBounds_ne (Ne.symm elsewhere)

theorem place_outOfMemory_iff
    {heap : Heap}
    (object : Object) :
    (place object heap).1 = .error .outOfMemory ↔
      ∀ index < heap.capacity, heap.isFreeAt index = false := by
  rw [← nextFree?_eq_none_iff]
  cases found : heap.nextFree? with
  | none =>
      simp [place_full object found]
  | some index =>
      simp [place_found object found]

/-- Without a release, as many placements as there are free slots fill the table. -/
theorem placements_fill
    {heap : Heap}
    (bounded : heap.capacity ≤ Handle.bound)
    {later : List Step}
    (noRelease : ∀ step ∈ later, step.isRelease = false) :
    let asked := later.countP Step.isPlacement
    let filled := (heap.placements later).map Handle.index
    filled = (heap.turns heap.searchStart).take asked ∧
      filled.Nodup ∧
      (asked ≤ heap.freeCount → filled.length = asked) ∧
      (asked = heap.freeCount →
        ∀ index < heap.capacity, (heap.runAll later).isFreeAt index = false) := by
  intro asked filled
  obtain ⟨inTurn, queueLeft⟩ := placements_eq_take bounded noRelease
  change filled = (heap.turns heap.searchStart).take asked at inTurn
  have queueLength := heap.length_turns heap.searchStart
  refine ⟨inTurn, ?_, fun enough => ?_, fun exhausted index inside => ?_⟩
  · rw [inTurn]
    exact (heap.nodup_turns _).sublist (List.take_sublist _ _)
  · rw [inTurn, List.length_take, queueLength]
    exact Nat.min_eq_left enough
  · have queueEmpty : (heap.turns heap.searchStart).drop asked = [] :=
      List.drop_eq_nil_of_le (by omega)
    rw [queueEmpty] at queueLeft
    refine Bool.eq_false_iff.mpr fun free => ?_
    have queued : index ∈ (heap.runAll later).turns (heap.runAll later).searchStart :=
      mem_turns.mpr free
    rw [queueLeft] at queued
    cases queued

/--
In a heap that handles can name and to which anything has been done, an object is placed
in the first free slot met going up and around from behind the slot of the last placement,
or from slot zero if there was none.  The answer is the handle of that slot, which holds
the object unmarked, and no other slot changes.  There is no memory left exactly when no
slot is free, and then nothing changes.

So as long as nothing is released, placements fill the free slots in that cyclic order,
whatever else happens in between: as many as there are free slots all succeed, in different
slots, and leave no slot free.
-/
theorem runAll_create_takesTurns
    {capacity : Nat}
    (bounded : capacity ≤ Handle.bound)
    (initialThreshold : Nat)
    (history : List Step) :
    let new := create capacity initialThreshold
    let heap := new.runAll history
    let start := startAfter (new.placements history)
    (∀ object,
      (∃ handle after,
        place object heap = (.ok handle, after) ∧
          heap.FirstFree start handle.index ∧
          after.get? handle = some object ∧
          after.isMarked handle = false ∧
          ∀ other ≠ handle.index, after.slots[other]? = heap.slots[other]?) ∨
        place object heap = (.error .outOfMemory, heap)) ∧
      (∀ object,
        (place object heap).1 = .error .outOfMemory ↔
          ∀ index < heap.capacity, heap.isFreeAt index = false) ∧
      ∀ later : List Step,
        (∀ step ∈ later, step.isRelease = false) →
        let asked := later.countP Step.isPlacement
        let filled := (heap.placements later).map Handle.index
        filled = (heap.turns start).take asked ∧
          filled.Nodup ∧
          (asked ≤ heap.freeCount → filled.length = asked) ∧
          (asked = heap.freeCount →
            ∀ index < heap.capacity, (heap.runAll later).isFreeAt index = false) := by
  intro new heap start
  have newBounded : new.capacity ≤ Handle.bound := by
    rw [capacity_create]
    exact Nat.max_le.mpr ⟨bounded, by decide⟩
  have heapBounded : heap.capacity ≤ Handle.bound := by
    rwa [(runAll_constants new history).1]
  have fromStart : heap.searchStart = start :=
    searchStart_runAll newBounded rfl history
  rw [← fromStart]
  exact ⟨place_fills heapBounded, place_outOfMemory_iff, fun later => placements_fill heapBounded⟩

/-- Slot zero has been emptied again, but its turn comes after that of slot two. -/
theorem runAll_create_takesTurns_around :
    let new := create 3 1
    let history : List Step := [.place .nil, .place (.integer 1), .release (.ofIndex 0)]
    let heap := new.runAll history
    let later : List Step := [.place .nil, .adjustThreshold, .place .nil]
    3 ≤ Handle.bound ∧
      (∀ step ∈ later, step.isRelease = false) ∧
      startAfter (new.placements history) = 2 ∧
      (heap.placements later).map Handle.index = [2, 0] ∧
      ∀ index < heap.capacity, (heap.runAll later).isFreeAt index = false := by
  intro new history heap later
  have noRelease : ∀ step ∈ later, step.isRelease = false := by decide
  obtain ⟨_, _, run⟩ := @runAll_create_takesTurns 3 (by decide) 1 history
  obtain ⟨inTurn, _, _, exhausts⟩ := run later noRelease
  exact ⟨by decide, noRelease, by decide, inTurn.trans (by decide), exhausts (by decide)⟩

end Heap

end ArenaLisp
