import ArenaLisp.Heap.Trace
import ArenaLisp.Proofs.Reachability

namespace ArenaLisp

/-!
# Tracing computes reachability

The mark bit is the visited set of the trace.  Between any two steps every
marked slot is reachable, and every marked slot that is not pending has its
occupied children marked; so once nothing is pending the marked slots are
exactly the reachable ones.
-/

namespace Trace

theorem slotAt?_mark
    (trace : Trace)
    (handle other : Handle) :
    (trace.mark handle).heap.slotAt? other =
      if other = handle then
        (trace.heap.slotAt? other).map fun slot => { slot with marked := true }
      else
        trace.heap.slotAt? other := by
  unfold mark
  cases found : trace.heap.slotAt? handle with
  | none =>
      by_cases same : other = handle
      · simp [same, found]
      · simp [same]
  | some slot =>
      by_cases marked : slot.marked = true
      · have unchanged : ({ slot with marked := true } : Slot) = slot := by
          rw [← marked]
        by_cases same : other = handle
        · simp [marked, same, found, unchanged]
        · simp [marked, same]
      · have occupied : trace.heap.isOccupied handle = true := by
          simp [Heap.isOccupied, found]
        simp only [marked, Bool.false_eq_true, ↓reduceIte, Heap.slotAt?]
        rw [Heap.join_getElem?_setIfInBounds _ _ _ _ (Heap.index_lt_of_isOccupied occupied)]
        by_cases same : other = handle
        · have foundHere : (trace.heap.slots[handle.index]?).join = some slot := found
          simp [same, foundHere]
        · have otherIndex : other.index ≠ handle.index :=
            fun sameIndex => same (Handle.eq_of_index_eq sameIndex)
          simp [same, otherIndex]

/-- Marking changes no object. -/
theorem get?_mark
    (trace : Trace)
    (handle other : Handle) :
    (trace.mark handle).heap.get? other = trace.heap.get? other := by
  rw [Heap.get?, slotAt?_mark]
  by_cases same : other = handle
  · subst same
    cases found : trace.heap.slotAt? other <;> simp [Heap.get?, found]
  · simp [same, Heap.get?]

theorem isOccupied_mark
    (trace : Trace)
    (handle other : Handle) :
    (trace.mark handle).heap.isOccupied other = trace.heap.isOccupied other :=
  Heap.isOccupied_congr (get?_mark trace handle other)

theorem isMarked_mark
    (trace : Trace)
    (handle other : Handle) :
    (trace.mark handle).heap.isMarked other = true ↔
      trace.heap.isMarked other = true ∨
        (other = handle ∧ trace.heap.isOccupied handle = true) := by
  rw [Heap.isMarked, slotAt?_mark]
  by_cases same : other = handle
  · subst same
    cases found : trace.heap.slotAt? other <;> simp [Heap.isMarked, Heap.isOccupied, found]
  · simp [same, Heap.isMarked]

/-- A handle becomes pending exactly when its slot becomes marked. -/
theorem mem_pending_mark
    (trace : Trace)
    (handle other : Handle) :
    other ∈ (trace.mark handle).pending ↔
      other ∈ trace.pending ∨
        (other = handle ∧ trace.heap.isOccupied handle = true ∧
          trace.heap.isMarked handle = false) := by
  unfold mark
  cases found : trace.heap.slotAt? handle with
  | none =>
      simp [Heap.isOccupied, found]
  | some slot =>
      by_cases marked : slot.marked = true
      · simp [marked, Heap.isMarked, found]
      · simp [marked, Heap.isMarked, Heap.isOccupied, found, or_comm]

/-- Marking changes no counter of the heap. -/
theorem heap_mark
    (trace : Trace)
    (handle : Handle) :
    ∃ slots : Array (Option Slot),
      (trace.mark handle).heap = { trace.heap with slots := slots } ∧
        slots.size = trace.heap.slots.size := by
  unfold mark
  split
  · exact ⟨_, rfl, rfl⟩
  · split
    · exact ⟨_, rfl, rfl⟩
    · exact ⟨_, rfl, by simp⟩

/-- What was pending before plays no part in marking. -/
theorem mark_eq_append
    (heap : Heap)
    (pending : List Handle)
    (handle : Handle) :
    mark ⟨heap, pending⟩ handle =
      ⟨(mark ⟨heap, []⟩ handle).heap, (mark ⟨heap, []⟩ handle).pending ++ pending⟩ := by
  unfold mark
  cases heap.slotAt? handle with
  | none =>
      rfl
  | some slot =>
      by_cases marked : slot.marked = true <;> simp [marked]

theorem markAll_eq_append
    (heap : Heap)
    (pending handles : List Handle) :
    markAll ⟨heap, pending⟩ handles =
      ⟨(markAll ⟨heap, []⟩ handles).heap, (markAll ⟨heap, []⟩ handles).pending ++ pending⟩ := by
  induction handles generalizing heap pending with
  | nil =>
      rfl
  | cons handle rest inductionHypothesis =>
      have step
          (before : List Handle) :
          markAll ⟨heap, before⟩ (handle :: rest) =
            markAll (mark ⟨heap, before⟩ handle) rest :=
        rfl
      rw [step, step, mark_eq_append heap pending, inductionHypothesis,
        inductionHypothesis (mark ⟨heap, []⟩ handle).heap (mark ⟨heap, []⟩ handle).pending,
        List.append_assoc]

theorem isMarked_markAll
    (trace : Trace)
    (handles : List Handle)
    (other : Handle) :
    (trace.markAll handles).heap.isMarked other = true ↔
      trace.heap.isMarked other = true ∨
        (other ∈ handles ∧ trace.heap.isOccupied other = true) := by
  induction handles generalizing trace with
  | nil =>
      simp [markAll]
  | cons handle rest inductionHypothesis =>
      have step := inductionHypothesis (trace.mark handle)
      rw [isMarked_mark, isOccupied_mark] at step
      refine step.trans ?_
      simp only [List.mem_cons]
      constructor
      · rintro ((before | ⟨rfl, occupied⟩) | ⟨inRest, occupied⟩)
        · exact .inl before
        · exact .inr ⟨.inl rfl, occupied⟩
        · exact .inr ⟨.inr inRest, occupied⟩
      · rintro (before | ⟨rfl | inRest, occupied⟩)
        · exact .inl (.inl before)
        · exact .inl (.inr ⟨rfl, occupied⟩)
        · exact .inr ⟨inRest, occupied⟩

/-- The children of a handle are the handles that its object holds. -/
theorem markChildren_eq_markAll
    {trace : Trace}
    {handle : Handle}
    {object : Object}
    (found : trace.heap.get? handle = some object) :
    trace.markChildren handle = trace.markAll object.handles := by
  unfold markChildren
  rw [found]
  cases object <;> rfl

/--
Where a trace stands that has been given some roots.  What is marked is
reachable, what is pending is marked, and the occupied children of whatever is
marked and no longer pending are marked.
-/
structure Invariant (heap : Heap) (roots : List Handle) (trace : Trace) : Prop where
  sameObjects : ∀ handle, trace.heap.get? handle = heap.get? handle
  rootsMarked :
    ∀ handle ∈ roots, heap.isOccupied handle = true → trace.heap.isMarked handle = true
  markedReached :
    ∀ handle, trace.heap.isMarked handle = true → heap.Reaches roots handle
  pendingMarked : ∀ handle ∈ trace.pending, trace.heap.isMarked handle = true
  childrenMarked :
    ∀ parent object child,
      trace.heap.isMarked parent = true →
      parent ∉ trace.pending →
      heap.get? parent = some object →
      child ∈ object.handles →
      heap.isOccupied child = true →
      trace.heap.isMarked child = true

namespace Invariant

variable {heap : Heap} {roots : List Handle} {trace : Trace}

theorem sameOccupied
    (invariant : Invariant heap roots trace)
    (handle : Handle) :
    trace.heap.isOccupied handle = heap.isOccupied handle :=
  Heap.isOccupied_congr (invariant.sameObjects handle)

/-- With cleared marks and nothing pending nothing has been reached from no roots. -/
theorem start (heap : Heap) : Invariant heap [] heap.clearMarks.startTrace where
  sameObjects := Heap.get?_clearMarks heap
  rootsMarked := by
    intro handle member
    simp at member
  markedReached := by
    intro handle marked
    simp [Heap.startTrace, Heap.isMarked_clearMarks] at marked
  pendingMarked := by
    intro handle member
    simp [Heap.startTrace] at member
  childrenMarked := by
    intro parent object child marked
    simp [Heap.startTrace, Heap.isMarked_clearMarks] at marked

/--
Marking a handle whose slot is reachable, or empty, keeps the invariant, except
that one more handle may count as a root.
-/
theorem mark
    (invariant : Invariant heap roots trace)
    {others : List Handle}
    {handle : Handle}
    (more : ∀ root ∈ roots, root ∈ others)
    (noMore : ∀ root ∈ others, root ∈ roots ∨ root = handle)
    (reached : heap.isOccupied handle = true → heap.Reaches others handle) :
    Invariant heap others (trace.mark handle) where
  sameObjects other := (get?_mark trace handle other).trans (invariant.sameObjects other)
  rootsMarked := by
    intro root member occupied
    rw [isMarked_mark]
    rcases noMore root member with inRoots | isHandle
    · exact .inl (invariant.rootsMarked root inRoots occupied)
    · subst isHandle
      exact .inr ⟨rfl, (invariant.sameOccupied root).trans occupied⟩
  markedReached := by
    intro other marked
    rcases (isMarked_mark trace handle other).mp marked with before | ⟨isHandle, occupied⟩
    · exact (invariant.markedReached other before).of_subset more
    · subst isHandle
      exact reached ((invariant.sameOccupied other).symm.trans occupied)
  pendingMarked := by
    intro other member
    rw [isMarked_mark]
    rcases (mem_pending_mark trace handle other).mp member with
      before | ⟨isHandle, occupied, _⟩
    · exact .inl (invariant.pendingMarked other before)
    · exact .inr ⟨isHandle, occupied⟩
  childrenMarked := by
    intro parent object child marked notPending found held occupied
    rw [mem_pending_mark] at notPending
    rw [isMarked_mark]
    -- A slot that this step marks is pending, so the parent was marked before.
    have markedBefore : trace.heap.isMarked parent = true := by
      rcases (isMarked_mark trace handle parent).mp marked with before | ⟨isHandle, present⟩
      · exact before
      · subst isHandle
        cases markedAlready : trace.heap.isMarked parent with
        | true =>
            rfl
        | false =>
            exact (notPending (.inr ⟨rfl, present, markedAlready⟩)).elim
    exact .inl (invariant.childrenMarked parent object child markedBefore
      (fun pending => notPending (.inl pending)) found held occupied)

/-- Marking one more root. -/
theorem markRoot
    (invariant : Invariant heap roots trace)
    (handle : Handle) :
    Invariant heap (roots ++ [handle]) (trace.mark handle) := by
  refine invariant.mark (fun root member => List.mem_append_left _ member) ?_ ?_
  · intro root member
    simpa using member
  · intro occupied
    exact .root (by simp) occupied

/-- Marking the roots of a list, in its order. -/
theorem markAll
    (invariant : Invariant heap roots trace)
    (handles : List Handle) :
    Invariant heap (roots ++ handles) (trace.markAll handles) := by
  induction handles generalizing roots trace with
  | nil =>
      simpa [Trace.markAll] using invariant
  | cons handle rest inductionHypothesis =>
      simpa [Trace.markAll] using inductionHypothesis (invariant.markRoot handle)

end Invariant

/-- Handles that the roots reach can be marked without becoming roots. -/
theorem Invariant.markReached
    {heap : Heap}
    {roots : List Handle}
    {trace : Trace}
    (invariant : Invariant heap roots trace)
    {handles : List Handle}
    (reached :
      ∀ handle ∈ handles, heap.isOccupied handle = true → heap.Reaches roots handle) :
    Invariant heap roots (trace.markAll handles) := by
  induction handles generalizing trace with
  | nil =>
      exact invariant
  | cons handle rest inductionHypothesis =>
      have marked : Invariant heap roots (trace.mark handle) :=
        invariant.mark (fun _ member => member) (fun _ member => .inl member)
          (reached handle (by simp))
      exact inductionHypothesis marked
        (fun later member => reached later (List.mem_cons_of_mem _ member))

/-- A pending handle whose occupied children are marked need not stay pending. -/
theorem Invariant.retire
    {heap : Heap}
    {roots : List Handle}
    {trace later : Trace}
    (invariant : Invariant heap roots trace)
    (sameHeap : later.heap = trace.heap)
    (pendingBefore : ∀ handle ∈ later.pending, handle ∈ trace.pending)
    (retired :
      ∀ parent object child,
        parent ∈ trace.pending →
        parent ∉ later.pending →
        heap.get? parent = some object →
        child ∈ object.handles →
        heap.isOccupied child = true →
        trace.heap.isMarked child = true) :
    Invariant heap roots later where
  sameObjects := sameHeap ▸ invariant.sameObjects
  rootsMarked := sameHeap ▸ invariant.rootsMarked
  markedReached := sameHeap ▸ invariant.markedReached
  pendingMarked := by
    intro handle member
    rw [sameHeap]
    exact invariant.pendingMarked handle (pendingBefore handle member)
  childrenMarked := by
    intro parent object child marked notPending found held occupied
    rw [sameHeap] at marked ⊢
    by_cases wasPending : parent ∈ trace.pending
    · exact retired parent object child wasPending notPending found held occupied
    · exact invariant.childrenMarked parent object child marked wasPending found held occupied

/-- Taking the first pending handle and marking its children keeps the invariant. -/
theorem Invariant.takePending
    {heap reachedHeap : Heap}
    {roots others : List Handle}
    {handle : Handle}
    (invariant : Invariant heap roots ⟨reachedHeap, handle :: others⟩) :
    Invariant heap roots (markChildren ⟨reachedHeap, others⟩ handle) := by
  have handleReached : heap.Reaches roots handle :=
    invariant.markedReached handle (invariant.pendingMarked handle (by simp))
  obtain ⟨object, found⟩ := handleReached.exists_object
  have foundHere : reachedHeap.get? handle = some object :=
    (invariant.sameObjects handle).trans found
  rw [markChildren_eq_markAll foundHere]
  -- The handle may stay pending until its children are marked.
  have childrenMarked :
      Invariant heap roots (Trace.markAll ⟨reachedHeap, handle :: others⟩ object.handles) :=
    invariant.markReached fun child held occupied =>
      .step handleReached found held occupied
  refine childrenMarked.retire ?_ ?_ ?_
  · rw [markAll_eq_append reachedHeap others, markAll_eq_append reachedHeap (handle :: others)]
  · intro other member
    rw [markAll_eq_append] at member ⊢
    simp only [List.mem_append, List.mem_cons] at member ⊢
    exact member.imp_right Or.inr
  · intro parent parentObject child wasPending notPending parentFound held occupied
    have isHandle : parent = handle := by
      rw [markAll_eq_append] at wasPending notPending
      simp only [List.mem_append, List.mem_cons, not_or] at wasPending notPending
      rcases wasPending with added | isHandle | before
      · exact (notPending.1 added).elim
      · exact isHandle
      · exact (notPending.2 before).elim
    subst isHandle
    rw [found, Option.some.injEq] at parentFound
    subst parentFound
    rw [isMarked_markAll]
    exact .inr ⟨held, (invariant.sameOccupied child).trans occupied⟩

/-- Once nothing is pending, the marked slots are the reachable ones. -/
theorem Invariant.marked_iff
    {heap reachedHeap : Heap}
    {roots : List Handle}
    (invariant : Invariant heap roots ⟨reachedHeap, []⟩)
    (handle : Handle) :
    reachedHeap.isMarked handle = true ↔ heap.Reaches roots handle := by
  constructor
  · exact invariant.markedReached handle
  · intro reached
    induction reached with
    | root member occupied =>
        exact invariant.rootsMarked _ member occupied
    | step _ found held occupied inductionHypothesis =>
        exact invariant.childrenMarked _ _ _ inductionHypothesis (by simp) found held occupied

/-- Draining a trace ends with the invariant and nothing pending. -/
theorem Invariant.drain
    {heap : Heap}
    {roots : List Handle}
    {trace : Trace}
    (invariant : Invariant heap roots trace) :
    Invariant heap roots ⟨trace.drain, []⟩ := by
  induction trace using Trace.drain.induct with
  | case1 reachedHeap =>
      unfold Trace.drain
      exact invariant
  | case2 reachedHeap handle others inductionHypothesis =>
      unfold Trace.drain
      exact inductionHypothesis invariant.takePending

/-- Two heaps that differ in nothing but their slots, of which they have equally many. -/
def SameCounters (before after : Heap) : Prop :=
  ∃ slots : Array (Option Slot),
    after = { before with slots := slots } ∧ slots.size = before.slots.size

theorem SameCounters.trans
    {before between after : Heap}
    (first : SameCounters before between)
    (second : SameCounters between after) :
    SameCounters before after := by
  obtain ⟨firstSlots, rfl, firstSize⟩ := first
  obtain ⟨secondSlots, rfl, secondSize⟩ := second
  exact ⟨secondSlots, rfl, secondSize.trans firstSize⟩

theorem sameCounters_markAll
    (trace : Trace)
    (handles : List Handle) :
    SameCounters trace.heap (trace.markAll handles).heap := by
  induction handles generalizing trace with
  | nil =>
      exact ⟨_, rfl, rfl⟩
  | cons handle rest inductionHypothesis =>
      exact SameCounters.trans (heap_mark trace handle) (inductionHypothesis (trace.mark handle))

theorem sameCounters_drain (trace : Trace) : SameCounters trace.heap trace.drain := by
  induction trace using Trace.drain.induct with
  | case1 heap =>
      unfold drain
      exact ⟨_, rfl, rfl⟩
  | case2 heap handle others inductionHypothesis =>
      have oneStep : SameCounters heap (markChildren ⟨heap, others⟩ handle).heap := by
        unfold markChildren
        split
        · exact ⟨_, rfl, rfl⟩
        · exact SameCounters.trans (heap_mark ⟨heap, others⟩ _) (heap_mark _ _)
      unfold drain
      exact oneStep.trans inductionHypothesis

end Trace

namespace Heap

/-- Marking from some roots changes no object. -/
theorem get?_markFrom
    (heap : Heap)
    (roots : List Handle)
    (handle : Handle) :
    (heap.markFrom roots).get? handle = heap.get? handle :=
  ((Trace.Invariant.start heap).markAll roots).drain.sameObjects handle

/-- Marking from some roots marks exactly what they reach, whatever was marked before. -/
theorem isMarked_markFrom
    (heap : Heap)
    (roots : List Handle)
    (handle : Handle) :
    (heap.markFrom roots).isMarked handle = true ↔ heap.Reaches roots handle :=
  ((Trace.Invariant.start heap).markAll roots).drain.marked_iff handle

theorem sameCounters_markFrom
    (heap : Heap)
    (roots : List Handle) :
    Trace.SameCounters heap (heap.markFrom roots) :=
  Trace.SameCounters.trans ⟨_, rfl, by simp⟩
    ((Trace.sameCounters_markAll _ roots).trans (Trace.sameCounters_drain _))

theorem capacity_markFrom
    (heap : Heap)
    (roots : List Handle) :
    (heap.markFrom roots).capacity = heap.capacity := by
  obtain ⟨slots, marked, sameSize⟩ := heap.sameCounters_markFrom roots
  rw [marked]
  exact sameSize

/-- Roots that reach the same slots mark the same heap, in whatever order they are given. -/
theorem markFrom_congr
    {heap : Heap}
    {roots others : List Handle}
    (bounded : heap.capacity ≤ Handle.bound)
    (sameReached : ∀ handle, heap.Reaches others handle ↔ heap.Reaches roots handle) :
    heap.markFrom others = heap.markFrom roots := by
  have sameCapacity :
      (heap.markFrom others).capacity = (heap.markFrom roots).capacity := by
    rw [capacity_markFrom, capacity_markFrom]
  obtain ⟨slots, marked, _⟩ := heap.sameCounters_markFrom roots
  obtain ⟨otherSlots, otherMarked, _⟩ := heap.sameCounters_markFrom others
  refine eq_of_view ?_ sameCapacity ?_ ?_ ?_ ?_ ?_ ?_
  · rwa [capacity_markFrom]
  · intro handle
    rw [get?_markFrom, get?_markFrom]
  · intro handle
    rw [Bool.eq_iff_iff, isMarked_markFrom, isMarked_markFrom]
    exact sameReached handle
  all_goals rw [otherMarked, marked]

end Heap

end ArenaLisp
