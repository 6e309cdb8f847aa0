import ArenaLisp.Proofs.Tracing
import Mathlib.Data.List.Nodup
import Mathlib.Logic.Function.Iterate

namespace ArenaLisp

/-!
# Marking in any order

The pending handles belong to whoever marks, who may mark and process in any order and
any number of times.  Whatever the order, every handle that becomes pending does so when
its slot becomes marked.  So no slot becomes pending twice, and once everything has been
processed the marked slots are those that the given handles reach.

Nothing is assumed of the heap.  Slots beyond the last handle are never marked, since
marking goes from handle to handle.
-/

namespace Heap

/-- Whether the slot of this number is occupied and a collection has reached it. -/
def isMarkedAt (heap : Heap) (index : Nat) : Bool :=
  (heap.slots[index]?).join.any Slot.marked

/-- Every occupied child of what a handle names is marked. -/
def ChildrenMarked (heap : Heap) (parent : Handle) : Prop :=
  ∀ object child,
    heap.get? parent = some object →
    child ∈ object.handles →
    heap.isOccupied child = true →
    heap.isMarked child = true

theorem isMarkedAt_index
    (heap : Heap)
    (handle : Handle) :
    heap.isMarkedAt handle.index = heap.isMarked handle :=
  rfl

theorem isMarkedAt_clearMarks
    (heap : Heap)
    (index : Nat) :
    heap.clearMarks.isMarkedAt index = false := by
  simp only [isMarkedAt, clearMarks, Array.getElem?_map]
  rcases heap.slots[index]? with _ | _ | slot <;> rfl

end Heap

namespace Trace

/-- One use of the pending handles: a handle is marked, or all that are pending are processed. -/
inductive Call where
  | mark (handle : Handle)
  | process
  deriving Repr, DecidableEq

/-- The handle that a call marks by itself. -/
def Call.given? : Call → Option Handle
  | .mark handle => some handle
  | .process => none

/-- The handles that some calls mark by themselves. -/
def given (calls : List Call) : List Handle :=
  calls.filterMap Call.given?

/-- The trace after one call. -/
def Call.run : Call → Trace → Trace
  | .mark handle, trace => trace.mark handle
  | .process, trace => ⟨trace.drain, []⟩

/-- The trace after some calls, one after the other. -/
def runCalls (trace : Trace) (calls : List Call) : Trace :=
  calls.foldl (fun trace call => call.run trace) trace

/-- One turn of processing: the first pending handle is taken and its children are marked. -/
def takeNext : Trace → Trace
  | ⟨heap, []⟩ => ⟨heap, []⟩
  | ⟨heap, handle :: others⟩ => markChildren ⟨heap, others⟩ handle

/-- The handles on top of what was pending before, in the order in which they were added. -/
def added (before after : Trace) : List Handle :=
  (after.pending.take (after.pending.length - before.pending.length)).reverse

/-- The handles that become pending while a trace is processed, in their order. -/
def drainPushes : Trace → List Handle
  | ⟨_, []⟩ => []
  | ⟨heap, handle :: others⟩ =>
      let next := markChildren ⟨heap, others⟩ handle
      added ⟨heap, others⟩ next ++ drainPushes next
termination_by trace => trace.work
decreasing_by
  have noMoreWork := work_markChildren_le ⟨heap, others⟩ handle
  simp only [work, List.length_cons] at noMoreWork ⊢
  omega

/-- The handles that become pending in one call, in their order. -/
def Call.pushes : Call → Trace → List Handle
  | .mark handle, trace => added trace (trace.mark handle)
  | .process, trace => trace.drainPushes

/-- The handles that become pending in some calls, in their order. -/
def pushes (trace : Trace) : List Call → List Handle
  | [] => []
  | call :: rest => call.pushes trace ++ (call.run trace).pushes rest

/-- What has been pushed, each handle once, is what is marked. -/
structure Logged (pushed : List Handle) (heap : Heap) : Prop where
  once : pushed.Nodup
  marked : ∀ handle, handle ∈ pushed ↔ heap.isMarked handle = true
  nameable : ∀ index, heap.isMarkedAt index = true → index < Handle.bound

/-- A step that only puts handles on top of the pending ones, and logs them as it should. -/
def Adds (before after : Trace) : Prop :=
  after.pending = (added before after).reverse ++ before.pending ∧
    ∀ pushed,
      Logged pushed before.heap → Logged (pushed ++ added before after) after.heap

theorem Logged.start (heap : Heap) : Logged [] heap.clearMarks where
  once := List.nodup_nil
  marked handle := by
    simp [Heap.isMarked_clearMarks]
  nameable index marked := by
    simp [Heap.isMarkedAt_clearMarks] at marked

/-- What is marked can be named, although there may be more slots than handles. -/
theorem Logged.isMarkedAt_iff
    {pushed : List Handle}
    {heap : Heap}
    (logged : Logged pushed heap)
    (index : Nat) :
    heap.isMarkedAt index = true ↔
      ∃ handle : Handle, handle.index = index ∧ heap.isMarked handle = true := by
  constructor
  · intro marked
    have isIndex : (Handle.ofIndex index).index = index :=
      Handle.index_ofIndex (logged.nameable index marked)
    refine ⟨.ofIndex index, isIndex, ?_⟩
    rwa [← Heap.isMarkedAt_index, isIndex]
  · rintro ⟨handle, rfl, marked⟩
    exact marked

theorem added_eq_of_append
    {before after : Trace}
    {more : List Handle}
    (onTop : after.pending = more.reverse ++ before.pending) :
    added before after = more := by
  simp [added, onTop]

namespace Adds

variable {before between after : Trace}

theorem refl (trace : Trace) : Adds trace trace := by
  have nothing : added trace trace = [] := added_eq_of_append rfl
  refine ⟨by rw [nothing]; rfl, fun pushed logged => ?_⟩
  rwa [nothing, List.append_nil]

theorem added_trans
    (first : Adds before between)
    (second : Adds between after) :
    added before after = added before between ++ added between after := by
  refine added_eq_of_append ?_
  rw [second.1, first.1, List.reverse_append, List.append_assoc]

theorem trans
    (first : Adds before between)
    (second : Adds between after) :
    Adds before after := by
  have both := first.added_trans second
  refine ⟨?_, fun pushed logged => ?_⟩
  · rw [both, List.reverse_append, List.append_assoc, ← first.1, ← second.1]
  · rw [both, ← List.append_assoc]
    exact second.2 _ (first.2 pushed logged)

end Adds

/-- Marking puts the handle on top exactly when it marks a slot that was not marked. -/
theorem added_mark
    (trace : Trace)
    (handle : Handle) :
    (trace.mark handle).pending = (added trace (trace.mark handle)).reverse ++ trace.pending ∧
      added trace (trace.mark handle) =
        if trace.heap.isOccupied handle = true ∧ trace.heap.isMarked handle = false then
          [handle]
        else
          [] := by
  unfold mark
  cases found : trace.heap.slotAt? handle with
  | none =>
      simp [Heap.isOccupied, found, added]
  | some slot =>
      by_cases marked : slot.marked = true <;>
        simp [marked, Heap.isMarked, Heap.isOccupied, found, added]

theorem isMarkedAt_mark
    {trace : Trace}
    {handle : Handle}
    {index : Nat}
    (marked : (trace.mark handle).heap.isMarkedAt index = true) :
    trace.heap.isMarkedAt index = true ∨ index = handle.index := by
  unfold mark at marked
  split at marked
  · exact .inl marked
  · split at marked
    · exact .inl marked
    · by_cases isHandle : index = handle.index
      · exact .inr isHandle
      · refine .inl ?_
        rwa [Heap.isMarkedAt, Array.getElem?_setIfInBounds,
          if_neg fun same => isHandle same.symm] at marked

theorem adds_mark
    (trace : Trace)
    (handle : Handle) :
    Adds trace (trace.mark handle) := by
  obtain ⟨onTop, isAdded⟩ := added_mark trace handle
  refine ⟨onTop, fun pushed logged => ⟨?_, fun other => ?_, fun index marked => ?_⟩⟩
  · rw [isAdded]
    split
    · rename_i fresh
      have notPushed : handle ∉ pushed := by
        rw [logged.marked, fresh.2]
        exact Bool.false_ne_true
      exact List.nodup_append.mpr
        ⟨logged.once, List.nodup_singleton handle, fun earlier member later isLater same =>
          notPushed (List.mem_singleton.mp isLater ▸ same ▸ member)⟩
    · rw [List.append_nil]
      exact logged.once
  · rw [isAdded, List.mem_append, logged.marked, isMarked_mark]
    split
    · rename_i fresh
      rw [List.mem_singleton]
      exact or_congr_right (and_iff_left fresh.1).symm
    · rename_i notFresh
      refine or_congr_right' fun notMarked => iff_of_false List.not_mem_nil ?_
      rintro ⟨rfl, occupied⟩
      exact notFresh ⟨occupied, Bool.eq_false_iff.mpr notMarked⟩
  · rcases isMarkedAt_mark marked with before | isHandle
    · exact logged.nameable index before
    · rw [isHandle]
      exact handle.index_lt_bound

theorem adds_markChildren
    (trace : Trace)
    (handle : Handle) :
    Adds trace (trace.markChildren handle) := by
  unfold markChildren
  split
  · exact .refl trace
  · exact (adds_mark trace _).trans (adds_mark _ _)

/-- Processing ends after at most as many turns as there is work, with nothing pending. -/
theorem exists_turns_drain (trace : Trace) :
    ∃ turns ≤ trace.work, takeNext^[turns] trace = ⟨trace.drain, []⟩ := by
  induction trace using Trace.drain.induct with
  | case1 heap =>
      refine ⟨0, Nat.zero_le _, ?_⟩
      rw [drain]
      rfl
  | case2 heap handle others inductionHypothesis =>
      obtain ⟨turns, few, reaches⟩ := inductionHypothesis
      have lessWork := work_markChildren_le ⟨heap, others⟩ handle
      refine ⟨turns + 1, ?_, ?_⟩
      · simp only [work, List.length_cons] at few lessWork ⊢
        omega
      · rw [Function.iterate_succ_apply, takeNext, drain]
        exact reaches

theorem Logged.drain
    {trace : Trace}
    {pushed : List Handle}
    (logged : Logged pushed trace.heap) :
    Logged (pushed ++ trace.drainPushes) trace.drain := by
  induction trace using Trace.drain.induct generalizing pushed with
  | case1 heap =>
      rw [Trace.drain, drainPushes, List.append_nil]
      exact logged
  | case2 heap handle others inductionHypothesis =>
      rw [Trace.drain, drainPushes, ← List.append_assoc]
      exact inductionHypothesis ((adds_markChildren ⟨heap, others⟩ handle).2 pushed logged)

theorem Logged.run
    {trace : Trace}
    {pushed : List Handle}
    (logged : Logged pushed trace.heap)
    (call : Call) :
    Logged (pushed ++ call.pushes trace) (call.run trace).heap := by
  cases call with
  | mark handle =>
      exact (adds_mark trace handle).2 pushed logged
  | process =>
      exact logged.drain

theorem Logged.runCalls
    {trace : Trace}
    {pushed : List Handle}
    (logged : Logged pushed trace.heap)
    (calls : List Call) :
    Logged (pushed ++ trace.pushes calls) (trace.runCalls calls).heap := by
  induction calls generalizing trace pushed with
  | nil =>
      rw [pushes, List.append_nil]
      exact logged
  | cons call rest inductionHypothesis =>
      rw [pushes, ← List.append_assoc]
      exact inductionHypothesis (logged.run call)

theorem Invariant.runCalls
    {heap : Heap}
    {roots : List Handle}
    {trace : Trace}
    (invariant : Invariant heap roots trace)
    (calls : List Call) :
    Invariant heap (roots ++ given calls) (trace.runCalls calls) := by
  induction calls generalizing roots trace with
  | nil =>
      rw [given, List.filterMap_nil, List.append_nil]
      exact invariant
  | cons call rest inductionHypothesis =>
      cases call with
      | mark handle =>
          have later := inductionHypothesis (invariant.markRoot handle)
          rwa [List.append_assoc] at later
      | process =>
          exact inductionHypothesis invariant.drain

theorem runCalls_snoc
    (trace : Trace)
    (calls : List Call)
    (last : Call) :
    trace.runCalls (calls ++ [last]) = last.run (trace.runCalls calls) := by
  rw [runCalls, List.foldl_append]
  rfl

/-- Between two calls, what is marked is pending or has its occupied children marked. -/
theorem Invariant.pending_or_childrenMarked
    {heap : Heap}
    {roots : List Handle}
    {trace : Trace}
    (invariant : Invariant heap roots trace)
    {handle : Handle}
    (marked : trace.heap.isMarked handle = true) :
    handle ∈ trace.pending ∨ trace.heap.ChildrenMarked handle := by
  refine or_iff_not_imp_left.mpr fun notPending object child found held occupied => ?_
  exact invariant.childrenMarked handle object child marked notPending
    ((invariant.sameObjects handle).symm.trans found) held
    ((invariant.sameOccupied child).symm.trans occupied)

/--
Whatever a heap holds, and in whatever order handles are marked and the pending ones are
processed after its marks have been cleared: between any two calls every marked slot is
pending or has all its occupied children marked, and processing what is pending ends, after
no more turns than there are unmarked slots and pending handles.  It leaves nothing
pending.  The marked slots are then the ones that the given handles reach through occupied
slots, and exactly these have become pending, each of them once.
-/
theorem runCalls_marks_closure
    (heap : Heap)
    (calls : List Call) :
    let start := heap.clearMarks.startTrace
    let before := start.runCalls calls
    let after := start.runCalls (calls ++ [.process])
    (∀ index,
      before.heap.isMarkedAt index = true →
      ∃ handle : Handle,
        handle.index = index ∧
          (handle ∈ before.pending ∨ before.heap.ChildrenMarked handle)) ∧
      (∃ turns ≤ before.work, takeNext^[turns] before = after) ∧
      after.pending = [] ∧
      (∀ index,
        after.heap.isMarkedAt index = true ↔
          ∃ handle : Handle, handle.index = index ∧ heap.Reaches (given calls) handle) ∧
      (start.pushes (calls ++ [.process])).Nodup ∧
      (∀ handle,
        handle ∈ start.pushes (calls ++ [.process]) ↔ heap.Reaches (given calls) handle) := by
  intro start before after
  have nothingMarked : Logged [] start.heap :=
    .start heap
  have loggedBefore := nothingMarked.runCalls calls
  have logged := nothingMarked.runCalls (calls ++ [.process])
  have invariant : Invariant heap (given calls) before :=
    (Invariant.start heap).runCalls calls
  have isProcessed : after = ⟨before.drain, []⟩ := runCalls_snoc start calls .process
  have reached
      (handle : Handle) :
      after.heap.isMarked handle = true ↔ heap.Reaches (given calls) handle := by
    rw [isProcessed]
    exact invariant.drain.marked_iff handle
  refine ⟨fun index marked => ?_, ?_, ?_, fun index => ?_, logged.once, fun handle => ?_⟩
  · obtain ⟨handle, isIndex, isMarked⟩ := (loggedBefore.isMarkedAt_iff index).mp marked
    exact ⟨handle, isIndex, invariant.pending_or_childrenMarked isMarked⟩
  · rw [isProcessed]
    exact exists_turns_drain before
  · rw [isProcessed]
  · rw [logged.isMarkedAt_iff index]
    exact exists_congr fun handle => and_congr_right fun _ => reached handle
  · rw [← reached handle]
    exact logged.marked handle

end Trace

end ArenaLisp
