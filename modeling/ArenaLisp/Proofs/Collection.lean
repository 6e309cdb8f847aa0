import ArenaLisp.Machine.Collection
import ArenaLisp.Proofs.Bindings
import ArenaLisp.Proofs.Tracing
import Mathlib.Data.List.Nodup

namespace ArenaLisp

/-!
# Exactness of the collector

A collection leaves exactly the objects that the bindings and the operand stack
reach, each unchanged and in its slot.  Bindings and stack may hold handles of
empty slots, pairs may be cyclic, and marks may be left over from anywhere.

What is released was not reached, so no name is bound to it: the purge of the
environment, which every release makes, removes nothing.
-/

namespace Heap

/-- The heap with the slots of some handles emptied, one after the other. -/
def releaseAll (heap : Heap) (handles : List Handle) : Heap :=
  handles.foldl (fun heap handle => (release handle heap).2) heap

theorem releaseAll_cons
    (heap : Heap)
    (handle : Handle)
    (rest : List Handle) :
    heap.releaseAll (handle :: rest) = (release handle heap).2.releaseAll rest :=
  rfl

/-- An occupied slot stays occupied when another one is released. -/
theorem isOccupied_release
    {heap : Heap}
    {handle other : Handle}
    (occupied : heap.isOccupied handle = true)
    (distinct : other ≠ handle) :
    (release handle heap).2.isOccupied other = heap.isOccupied other := by
  rw [isOccupied, slotAt?_release occupied other, if_neg distinct]
  rfl

/-- The first of some distinct occupied slots may be released before the others. -/
theorem rest_occupied
    {heap : Heap}
    {handle : Handle}
    {rest : List Handle}
    (occupied : ∀ other ∈ handle :: rest, heap.isOccupied other = true)
    (notInRest : handle ∉ rest) :
    ∀ later ∈ rest, (release handle heap).2.isOccupied later = true := by
  intro later member
  have notHead : later ≠ handle := fun same => notInRest (same ▸ member)
  rw [isOccupied_release (occupied handle List.mem_cons_self) notHead]
  exact occupied later (List.mem_cons_of_mem handle member)

/-- After the release of distinct occupied slots these are empty and no other has changed. -/
theorem slotAt?_releaseAll
    {heap : Heap}
    {handles : List Handle}
    (occupied : ∀ handle ∈ handles, heap.isOccupied handle = true)
    (distinct : handles.Nodup)
    (other : Handle) :
    (heap.releaseAll handles).slotAt? other =
      if other ∈ handles then none else heap.slotAt? other := by
  induction handles generalizing heap with
  | nil =>
      simp [releaseAll]
  | cons handle rest inductionHypothesis =>
      have headOccupied := occupied handle (by simp)
      obtain ⟨notInRest, restDistinct⟩ := List.nodup_cons.mp distinct
      have restOccupied := rest_occupied occupied notInRest
      rw [releaseAll_cons, inductionHypothesis restOccupied restDistinct,
        slotAt?_release headOccupied other]
      by_cases isHead : other = handle
      · simp [isHead]
      · simp [isHead]

/-- The release of distinct occupied slots keeps the live count exact. -/
theorem Counted.releaseAll
    {heap : Heap}
    {handles : List Handle}
    (counted : heap.Counted)
    (occupied : ∀ handle ∈ handles, heap.isOccupied handle = true)
    (distinct : handles.Nodup) :
    (heap.releaseAll handles).Counted ∧
      (heap.releaseAll handles).live + handles.length = heap.live := by
  induction handles generalizing heap with
  | nil =>
      exact ⟨counted, rfl⟩
  | cons handle rest inductionHypothesis =>
      have headOccupied := occupied handle (by simp)
      obtain ⟨notInRest, restDistinct⟩ := List.nodup_cons.mp distinct
      obtain ⟨headCounted, oneLess⟩ := counted.release headOccupied
      have restOccupied := rest_occupied occupied notInRest
      obtain ⟨restCounted, restLess⟩ :=
        inductionHypothesis headCounted restOccupied restDistinct
      rw [releaseAll_cons]
      refine ⟨restCounted, ?_⟩
      rw [List.length_cons]
      omega

/-- Releasing changes neither the search position nor the thresholds nor the size. -/
theorem releaseAll_fields
    (heap : Heap)
    (handles : List Handle) :
    (heap.releaseAll handles).last = heap.last ∧
      (heap.releaseAll handles).initialThreshold = heap.initialThreshold ∧
      (heap.releaseAll handles).threshold = heap.threshold ∧
      (heap.releaseAll handles).capacity = heap.capacity := by
  induction handles generalizing heap with
  | nil =>
      exact ⟨rfl, rfl, rfl, rfl⟩
  | cons handle rest inductionHypothesis =>
      obtain ⟨last, initial, threshold, size⟩ := inductionHypothesis (release handle heap).2
      have oneStep :
          (release handle heap).2.last = heap.last ∧
            (release handle heap).2.initialThreshold = heap.initialThreshold ∧
            (release handle heap).2.threshold = heap.threshold := by
        unfold release
        split <;> exact ⟨rfl, rfl, rfl⟩
      rw [releaseAll_cons]
      exact ⟨last.trans oneStep.1, initial.trans oneStep.2.1, threshold.trans oneStep.2.2,
        size.trans (capacity_release handle heap)⟩

/-- In a nameable table the unmarked handles are those of occupied slots without a mark. -/
theorem mem_unmarked_iff
    {heap : Heap}
    (bounded : heap.capacity ≤ Handle.bound)
    {handle : Handle} :
    handle ∈ heap.unmarked ↔
      heap.isOccupied handle = true ∧ heap.isMarked handle = false := by
  have unmarkedHere :
      (heap.slots[handle.index]?).join.any (fun occupied => !occupied.marked) = true ↔
        heap.isOccupied handle = true ∧ heap.isMarked handle = false := by
    simp only [isOccupied, isMarked, slotAt?]
    cases (heap.slots[handle.index]?).join <;> simp
  simp only [unmarked, List.mem_map, List.mem_filter, List.mem_range]
  constructor
  · rintro ⟨index, ⟨inside, unmarkedAt⟩, rfl⟩
    have sameIndex : (Handle.ofIndex index).index = index :=
      Handle.index_ofIndex (Nat.lt_of_lt_of_le inside bounded)
    rw [← unmarkedHere, sameIndex]
    exact unmarkedAt
  · intro unoccupied
    exact ⟨handle.index,
      ⟨index_lt_of_isOccupied unoccupied.1, unmarkedHere.mpr unoccupied⟩,
      Handle.ofIndex_index handle⟩

theorem nodup_unmarked
    {heap : Heap}
    (bounded : heap.capacity ≤ Handle.bound) :
    heap.unmarked.Nodup := by
  refine List.Nodup.map_on ?_ (List.nodup_range.filter _)
  intro first firstMember second secondMember sameHandle
  have firstInside := List.mem_range.mp (List.mem_filter.mp firstMember).1
  have secondInside := List.mem_range.mp (List.mem_filter.mp secondMember).1
  rw [← Handle.index_ofIndex (Nat.lt_of_lt_of_le firstInside bounded), sameHandle,
    Handle.index_ofIndex (Nat.lt_of_lt_of_le secondInside bounded)]

end Heap

namespace Machine

/-- What the bindings and the operand stack reach. -/
def Reachable (machine : Machine) (handle : Handle) : Prop :=
  machine.heap.Reaches machine.roots handle

theorem mem_roots_iff
    {machine : Machine}
    {handle : Handle} :
    handle ∈ machine.roots ↔
      handle ∈ machine.environment.values ∨ handle ∈ machine.stack.entries := by
  simp [roots, OperandStack.bottomUp]

/-- Freeing an occupied slot unbinds its handle, releases it and does nothing else. -/
theorem free_occupied
    {machine : Machine}
    {handle : Handle}
    (occupied : machine.heap.isOccupied handle = true) :
    free handle machine =
      (.ok (),
        { machine with
          heap := (Heap.release handle machine.heap).2
          environment := machine.environment.purge handle }) := by
  obtain ⟨object, _, released⟩ := Heap.release_occupied occupied
  simp only [free, Transition.bind_apply, Transition.get_apply, Transition.modify_apply,
    Transition.pure_apply, onHeap_apply, occupied, ↓reduceIte, released]

/-- Freeing an empty slot fails and changes nothing. -/
theorem free_empty
    {machine : Machine}
    {handle : Handle}
    (empty : machine.heap.isOccupied handle = false) :
    free handle machine = (.error (.doubleFree handle), machine) := by
  simp only [free, Transition.bind_apply, Transition.get_apply, empty, Bool.false_eq_true,
    ↓reduceIte, Transition.throw_apply]

theorem free_unbound
    {machine : Machine}
    {handle : Handle}
    (occupied : machine.heap.isOccupied handle = true)
    (unbound : handle ∉ machine.environment.values) :
    free handle machine =
      (.ok (), { machine with heap := (Heap.release handle machine.heap).2 }) := by
  rw [free_occupied occupied, Environment.purge_eq_self unbound]

theorem freeAll_unbound
    {machine : Machine}
    {handles : List Handle}
    (occupied : ∀ handle ∈ handles, machine.heap.isOccupied handle = true)
    (distinct : handles.Nodup)
    (unbound : ∀ handle ∈ handles, handle ∉ machine.environment.values) :
    freeAll handles machine =
      (.ok (), { machine with heap := machine.heap.releaseAll handles }) := by
  induction handles generalizing machine with
  | nil =>
      rfl
  | cons handle rest inductionHypothesis =>
      have headOccupied := occupied handle (by simp)
      obtain ⟨notInRest, restDistinct⟩ := List.nodup_cons.mp distinct
      have headFreed := free_unbound headOccupied (unbound handle (by simp))
      have restFreed :
          freeAll rest { machine with heap := (Heap.release handle machine.heap).2 } =
            (.ok (), { machine with heap := machine.heap.releaseAll (handle :: rest) }) := by
        refine inductionHypothesis ?_ restDistinct ?_
        · exact Heap.rest_occupied occupied notInRest
        · exact fun later member => unbound later (List.mem_cons_of_mem _ member)
      have oneThenRest : freeAll (handle :: rest) = free handle >>= fun _ => freeAll rest :=
        rfl
      rw [oneThenRest, Transition.bind_apply, headFreed]
      exact restFreed

/-- The occupied slots that no root reaches, from the lowest on. -/
def garbage (machine : Machine) : List Handle :=
  (machine.heap.markFrom machine.roots).unmarked

/-- The heap after a collection. -/
def sweptHeap (machine : Machine) : Heap :=
  ((machine.heap.markFrom machine.roots).releaseAll machine.garbage).clearMarks.adjustThreshold

theorem mem_garbage_iff
    {machine : Machine}
    (bounded : machine.heap.capacity ≤ Handle.bound)
    {handle : Handle} :
    handle ∈ machine.garbage ↔
      machine.heap.isOccupied handle = true ∧ ¬machine.Reachable handle := by
  have sameCapacity := Heap.capacity_markFrom machine.heap machine.roots
  rw [garbage, Heap.mem_unmarked_iff (sameCapacity ▸ bounded),
    Heap.isOccupied_congr (Heap.get?_markFrom machine.heap machine.roots handle),
    Reachable, ← Heap.isMarked_markFrom, Bool.not_eq_true]

/-- The summary that a collection of a machine leaves in its journal. -/
def collectionSummary (machine : Machine) : CollectionSummary where
  number := machine.collections + 1
  liveBefore := machine.heap.live
  freed := machine.garbage.length
  remaining := machine.sweptHeap.live
  capacity := machine.sweptHeap.capacity
  nextThreshold := machine.sweptHeap.threshold

/-- The machine after a collection. -/
def collected (machine : Machine) : Machine :=
  { machine with
    heap := machine.sweptHeap
    collections := machine.collections + 1 }.record (.collected machine.collectionSummary)

variable {machine : Machine}

/-- Marking keeps the counters of a counted heap. -/
theorem counted_markFrom
    (counted : machine.heap.Counted) :
    (machine.heap.markFrom machine.roots).Counted := by
  have sameCapacity := Heap.capacity_markFrom machine.heap machine.roots
  have sameCount :
      (machine.heap.markFrom machine.roots).occupiedCount = machine.heap.occupiedCount :=
    Heap.occupiedCount_congr counted.capacityBound sameCapacity
      fun handle => Heap.isOccupied_congr (Heap.get?_markFrom machine.heap machine.roots handle)
  obtain ⟨slots, marked, _⟩ := Heap.sameCounters_markFrom machine.heap machine.roots
  refine ⟨?_, ?_, ?_, ?_⟩
  · rw [sameCapacity]
    exact counted.capacityBound
  · rw [sameCount, marked]
    exact counted.liveExact
  · rw [marked]
    exact counted.initialPositive
  · rw [sameCapacity, marked]
    exact counted.initialBound

theorem garbage_occupied
    (bounded : machine.heap.capacity ≤ Handle.bound) :
    ∀ handle ∈ machine.garbage,
      (machine.heap.markFrom machine.roots).isOccupied handle = true := by
  intro handle member
  rw [Heap.isOccupied_congr (Heap.get?_markFrom machine.heap machine.roots handle)]
  exact ((mem_garbage_iff bounded).mp member).1

theorem garbage_nodup
    (counted : machine.heap.Counted) :
    machine.garbage.Nodup :=
  Heap.nodup_unmarked (counted_markFrom counted).capacityBound

/-- The machine with what its roots reach marked. -/
def marked (machine : Machine) : Machine :=
  { machine with heap := machine.heap.markFrom machine.roots }

/-- The machine whose garbage is gone, and whose marks are still there. -/
def swept (machine : Machine) : Machine :=
  { machine with heap := (machine.heap.markFrom machine.roots).releaseAll machine.garbage }

theorem markRoots_eq (machine : Machine) :
    markRoots machine = (.ok machine.garbage, machine.marked) :=
  rfl

/-- No name is bound to garbage, so a sweep purges nothing from the environment. -/
theorem freeAll_garbage
    (counted : machine.heap.Counted) :
    freeAll machine.garbage machine.marked = (.ok (), machine.swept) := by
  have bounded := counted.capacityBound
  have unbound : ∀ handle ∈ machine.garbage, handle ∉ machine.environment.values := by
    intro handle member bound
    obtain ⟨occupied, notReached⟩ := (mem_garbage_iff bounded).mp member
    exact notReached (.root (mem_roots_iff.mpr (.inl bound)) occupied)
  exact @freeAll_unbound machine.marked _ (garbage_occupied bounded) (garbage_nodup counted)
    unbound

/-- A collection always succeeds, and leaves the machine that `collected` describes. -/
theorem collect_eq
    (counted : machine.heap.Counted) :
    collect machine = (.ok machine.garbage.length, machine.collected) := by
  simp only [collect, Transition.bind_apply, Transition.get_apply, markRoots_eq,
    freeAll_garbage counted, finishCollection, Transition.modify_apply, Transition.pure_apply]
  rfl

theorem get?_sweptHeap_of_reachable
    (counted : machine.heap.Counted)
    {handle : Handle}
    (reached : machine.Reachable handle) :
    machine.sweptHeap.get? handle = machine.heap.get? handle := by
  have notGarbage : handle ∉ machine.garbage :=
    fun member => ((mem_garbage_iff counted.capacityBound).mp member).2 reached
  have swept :=
    Heap.slotAt?_releaseAll (garbage_occupied counted.capacityBound) (garbage_nodup counted) handle
  rw [if_neg notGarbage] at swept
  calc
    machine.sweptHeap.get? handle
        = ((machine.heap.markFrom machine.roots).releaseAll machine.garbage).get? handle :=
          Heap.get?_clearMarks _ handle
    _ = (machine.heap.markFrom machine.roots).get? handle := by
          rw [Heap.get?, swept, Heap.get?]
    _ = machine.heap.get? handle :=
          Heap.get?_markFrom machine.heap machine.roots handle

theorem get?_sweptHeap_of_not_reachable
    (counted : machine.heap.Counted)
    {handle : Handle}
    (notReached : ¬machine.Reachable handle) :
    machine.sweptHeap.get? handle = none := by
  have swept :=
    Heap.slotAt?_releaseAll (garbage_occupied counted.capacityBound) (garbage_nodup counted) handle
  have released :
      ((machine.heap.markFrom machine.roots).releaseAll machine.garbage).get? handle = none := by
    by_cases occupied : machine.heap.isOccupied handle = true
    · have isGarbage : handle ∈ machine.garbage :=
        (mem_garbage_iff counted.capacityBound).mpr ⟨occupied, notReached⟩
      rw [Heap.get?, swept, if_pos isGarbage]
      rfl
    · have notGarbage : handle ∉ machine.garbage :=
        fun member => occupied ((mem_garbage_iff counted.capacityBound).mp member).1
      rw [Heap.get?, swept, if_neg notGarbage, ← Heap.get?,
        Heap.get?_markFrom, Heap.get?_eq_none_iff]
      simpa using occupied
  exact (Heap.get?_clearMarks _ handle).trans released

theorem isMarked_sweptHeap
    (machine : Machine)
    (handle : Handle) :
    machine.sweptHeap.isMarked handle = false :=
  Heap.isMarked_clearMarks _ handle

/-- The counters after a collection, and by how much the live count has fallen. -/
theorem sweptHeap_counters
    (counted : machine.heap.Counted) :
    machine.sweptHeap.Consistent ∧
      machine.sweptHeap.live + machine.garbage.length = machine.heap.live ∧
      machine.sweptHeap.capacity = machine.heap.capacity ∧
      machine.sweptHeap.initialThreshold = machine.heap.initialThreshold ∧
      machine.sweptHeap.last = machine.heap.last := by
  obtain ⟨slots, marked, _⟩ := Heap.sameCounters_markFrom machine.heap machine.roots
  obtain ⟨releasedCounted, less⟩ :=
    (counted_markFrom counted).releaseAll
      (garbage_occupied counted.capacityBound) (garbage_nodup counted)
  obtain ⟨last, initial, _, size⟩ :=
    Heap.releaseAll_fields (machine.heap.markFrom machine.roots) machine.garbage
  have sameLive : (machine.heap.markFrom machine.roots).live = machine.heap.live := by
    rw [marked]
  refine ⟨releasedCounted.clearMarks.adjustThreshold, sameLive ▸ less, ?_, ?_, ?_⟩
  · exact (Heap.capacity_clearMarks _).trans
      (size.trans (Heap.capacity_markFrom machine.heap machine.roots))
  · exact initial.trans (by rw [marked])
  · exact last.trans (by rw [marked])

/-- After a collection the occupied slots are the ones that were reachable. -/
theorem isOccupied_sweptHeap_iff
    (counted : machine.heap.Counted)
    (handle : Handle) :
    machine.sweptHeap.isOccupied handle = true ↔ machine.Reachable handle := by
  constructor
  · intro occupied
    by_contra notReached
    obtain ⟨object, found⟩ := Heap.isOccupied_iff.mp occupied
    rw [get?_sweptHeap_of_not_reachable counted notReached] at found
    simp at found
  · intro reached
    rw [Heap.isOccupied_congr (get?_sweptHeap_of_reachable counted reached)]
    exact reached.isOccupied

theorem keeps_sweptHeap
    (counted : machine.heap.Counted) :
    Heap.Keeps machine.roots machine.heap machine.sweptHeap :=
  fun _ reached => get?_sweptHeap_of_reachable counted reached

/-- Whatever survives a collection is reachable after it. -/
theorem reachable_collected_iff
    (counted : machine.heap.Counted)
    (handle : Handle) :
    machine.collected.Reachable handle ↔ machine.sweptHeap.isOccupied handle = true := by
  constructor
  · exact Heap.Reaches.isOccupied
  · intro occupied
    exact (keeps_sweptHeap counted).reaches ((isOccupied_sweptHeap_iff counted handle).mp occupied)

theorem garbage_collected
    (counted : machine.heap.Counted) :
    machine.collected.garbage = [] := by
  obtain ⟨consistent, _⟩ := sweptHeap_counters counted
  refine List.eq_nil_iff_forall_not_mem.mpr fun handle member => ?_
  obtain ⟨occupied, notReached⟩ :=
    (@mem_garbage_iff machine.collected consistent.capacityBound handle).mp member
  exact notReached ((reachable_collected_iff counted handle).mpr occupied)

/-- A collection right after another one changes nothing in the heap. -/
theorem sweptHeap_collected
    (counted : machine.heap.Counted) :
    machine.collected.sweptHeap = machine.sweptHeap := by
  obtain ⟨consistent, _⟩ := sweptHeap_counters counted
  have countedAfter : machine.collected.heap.Counted := consistent.toCounted
  obtain ⟨_, sameLive, sameCapacity, sameInitial, sameLast⟩ := sweptHeap_counters countedAfter
  rw [garbage_collected counted, List.length_nil, Nat.add_zero] at sameLive
  refine Heap.eq_of_view consistent.capacityBound sameCapacity ?_ ?_ sameLast sameLive sameInitial
    ?_
  · intro handle
    by_cases occupied : machine.sweptHeap.isOccupied handle = true
    · exact get?_sweptHeap_of_reachable countedAfter
        ((reachable_collected_iff counted handle).mpr occupied)
    · have notReached : ¬machine.collected.Reachable handle :=
        fun reached => occupied ((reachable_collected_iff counted handle).mp reached)
      rw [get?_sweptHeap_of_not_reachable countedAfter notReached]
      exact (Heap.get?_eq_none_iff.mpr (by simpa using occupied)).symm
  · intro handle
    rw [isMarked_sweptHeap, isMarked_sweptHeap]
  · change Heap.clamp machine.collected.sweptHeap.initialThreshold
      machine.collected.sweptHeap.capacity (2 * machine.collected.sweptHeap.live) =
        Heap.clamp machine.sweptHeap.initialThreshold machine.sweptHeap.capacity
          (2 * machine.sweptHeap.live)
    rw [sameInitial, sameCapacity, sameLive]
    rfl

/-- Bindings in another order make the same roots. -/
theorem mem_roots_reorder
    {reordered : Environment}
    (sameBindings : reordered.bindings.Perm machine.environment.bindings)
    {handle : Handle} :
    handle ∈ { machine with environment := reordered }.roots ↔ handle ∈ machine.roots := by
  have sameValues : handle ∈ reordered.values ↔ handle ∈ machine.environment.values :=
    (sameBindings.map Prod.snd).mem_iff
  rw [mem_roots_iff, mem_roots_iff, sameValues]

theorem markFrom_reorder
    {reordered : Environment}
    (bounded : machine.heap.capacity ≤ Handle.bound)
    (sameBindings : reordered.bindings.Perm machine.environment.bindings) :
    machine.heap.markFrom { machine with environment := reordered }.roots =
      machine.heap.markFrom machine.roots := by
  refine Heap.markFrom_congr bounded fun handle => ⟨?_, ?_⟩
  · exact Heap.Reaches.of_subset fun _ member => (mem_roots_reorder sameBindings).mp member
  · exact Heap.Reaches.of_subset fun _ member => (mem_roots_reorder sameBindings).mpr member

/--
A collection succeeds on every machine whose heap is counted, however its
objects refer to each other and whatever is marked.  Afterwards the occupied
slots are exactly the reachable ones, with their objects; nothing but the heap,
the number of collections and the journal has changed; the answer is the fall of
the live count; and nothing is marked.

Another collection at once frees nothing and changes nothing but the number of
collections and the journal.  Bindings listed in another order lead to the same
heap, the same answer and the same journal.
-/
theorem collect_exact
    (machine : Machine)
    (counted : machine.heap.Counted) :
    ∃ freed after,
      collect machine = (.ok freed, after) ∧
        (∀ handle, after.heap.isOccupied handle = true ↔ machine.Reachable handle) ∧
        (∀ handle,
          machine.Reachable handle → after.heap.get? handle = machine.heap.get? handle) ∧
        after =
          { machine with
            heap := after.heap
            collections := machine.collections + 1
            journal := after.journal } ∧
        after.heap.live + freed = machine.heap.live ∧
        after.heap.capacity = machine.heap.capacity ∧
        after.heap.Consistent ∧
        (∀ handle, after.heap.isMarked handle = false) ∧
        (∃ journal,
          collect after =
            (.ok 0,
              { after with
                collections := after.collections + 1
                journal := journal })) ∧
        ∀ reordered : Environment,
          reordered.bindings.Perm machine.environment.bindings →
          collect { machine with environment := reordered } =
            (.ok freed, { after with environment := reordered }) := by
  obtain ⟨consistent, lessLive, sameCapacity, _⟩ := sweptHeap_counters counted
  refine ⟨machine.garbage.length, machine.collected, collect_eq counted,
    isOccupied_sweptHeap_iff counted, fun _ => get?_sweptHeap_of_reachable counted, rfl,
    lessLive, sameCapacity, consistent, isMarked_sweptHeap machine, ?_, ?_⟩
  · have again := @collect_eq machine.collected consistent.toCounted
    rw [garbage_collected counted] at again
    refine ⟨machine.collected.collected.journal, again.trans ?_⟩
    have sameHeap := sweptHeap_collected counted
    rw [collected, sameHeap]
    rfl
  · intro reordered sameBindings
    have sameMarks := markFrom_reorder counted.capacityBound sameBindings
    have sameGarbage : { machine with environment := reordered }.garbage = machine.garbage := by
      rw [garbage, garbage]
      exact congrArg Heap.unmarked sameMarks
    have sameHeap : { machine with environment := reordered }.sweptHeap = machine.sweptHeap := by
      rw [sweptHeap, sweptHeap, sameGarbage]
      exact congrArg
        (fun heap => (heap.releaseAll machine.garbage).clearMarks.adjustThreshold) sameMarks
    rw [@collect_eq { machine with environment := reordered } counted, sameGarbage,
      collected, collectionSummary, sameHeap, sameGarbage]
    rfl

/--
A machine with a pair that holds itself and an empty slot, a stale mark on an
unreachable object, and an empty slot bound and on the stack.
-/
def tangled : Machine where
  heap :=
    { slots :=
        #[some ⟨.pair (Handle.ofIndex 0) (Handle.ofIndex 3), false⟩,
          some ⟨.integer 7, true⟩, some ⟨.symbol "x", false⟩, none]
      last := some 2
      live := 3
      initialThreshold := 1
      threshold := 1 }
  environment := Environment.empty.define "gone" (Handle.ofIndex 3)
  stack := ⟨[Handle.ofIndex 0, Handle.ofIndex 3]⟩
  eagerDefinitions := false
  diagnostics := []
  collections := 0
  journal := []

theorem collect_exact_tangled :
    tangled.heap.Counted ∧
      ∃ freed after,
        collect tangled = (.ok freed, after) ∧
          after.heap.get? (Handle.ofIndex 0) =
            some (.pair (Handle.ofIndex 0) (Handle.ofIndex 3)) ∧
          after.environment.get? "gone" = some (Handle.ofIndex 3) ∧
          ∀ handle, after.heap.isMarked handle = false := by
  have counted : tangled.heap.Counted :=
    ⟨by decide, by decide, by decide, by decide⟩
  refine ⟨counted, ?_⟩
  obtain ⟨freed, after, collects, _, survivors, frame, _, _, _, noMarks, _⟩ :=
    collect_exact tangled counted
  have pairReached : tangled.Reachable (Handle.ofIndex 0) :=
    .root (by decide) (by decide)
  refine ⟨freed, after, collects, ?_, ?_, noMarks⟩
  · rw [survivors _ pairReached]
    decide
  · have sameEnvironment : after.environment = tangled.environment := by
      rw [frame]
    rw [sameEnvironment]
    decide

end Machine

end ArenaLisp
