import ArenaLisp.Heap.Basic

namespace ArenaLisp

/-!
# Tracing

Marking starts from some handles and follows both handles of every pair.  The
mark is set when a slot is put on the list of pending handles, so no slot is
put there twice and a cycle is followed once.

The trace ends because each step either takes a pending handle away or turns an
unmarked slot into a pending one: the number of unmarked slots and of pending
handles together never grows, and it falls with every handle taken.
-/

/-- Marking in progress: the heap, and the marked handles whose children are due. -/
structure Trace where
  heap : Heap
  /-- The pending handles, the one to be taken next first. -/
  pending : List Handle
  deriving Repr, DecidableEq

namespace Trace

/-- The pending handles in the order in which they were added. -/
def oldestFirst (trace : Trace) : List Handle :=
  trace.pending.reverse

/-- Marks the slot of a handle and makes it pending, unless it is empty or marked. -/
def mark (trace : Trace) (handle : Handle) : Trace :=
  match trace.heap.slotAt? handle with
  | none => trace
  | some slot =>
      if slot.marked then
        trace
      else
        { heap :=
            { trace.heap with
              slots :=
                trace.heap.slots.setIfInBounds handle.index
                  (some { slot with marked := true }) }
          pending := handle :: trace.pending }

/-- Marks every handle of a list, in its order. -/
def markAll (trace : Trace) (handles : List Handle) : Trace :=
  handles.foldl mark trace

/-- Marks the children of the object that a handle names. -/
def markChildren (trace : Trace) (handle : Handle) : Trace :=
  match (trace.heap.get? handle).bind Object.children? with
  | none => trace
  | some (car, cdr) => (trace.mark car).mark cdr

/-- How much is left to do: unmarked slots and pending handles. -/
def work (trace : Trace) : Nat :=
  trace.heap.unmarkedCount + trace.pending.length

/-- Marking a slot adds no work: what it makes pending was unmarked before. -/
theorem work_mark_le (trace : Trace) (handle : Handle) :
    (trace.mark handle).work ≤ trace.work := by
  unfold mark
  split
  · exact Nat.le_refl _
  · rename_i slot found
    split
    · exact Nat.le_refl _
    · rename_i notMarked
      simp only [Heap.slotAt?, Option.join_eq_some_iff] at found
      obtain ⟨inBounds, slotHere⟩ := Array.getElem?_eq_some_iff.mp found
      have countedBefore :
          0 < trace.heap.unmarkedCount :=
        Array.countP_pos_iff.mpr
          ⟨some slot, Array.mem_of_getElem? found, by simp [notMarked]⟩
      have oneLess :
          (trace.heap.slots.setIfInBounds handle.index
              (some { slot with marked := true })).countP
              (fun slot => slot.any fun occupied => !occupied.marked) =
            trace.heap.unmarkedCount - 1 := by
        rw [Array.setIfInBounds, dif_pos inBounds, Array.countP_set inBounds, slotHere]
        simp [notMarked, Heap.unmarkedCount]
      simp only [work, Heap.unmarkedCount, List.length_cons] at oneLess countedBefore ⊢
      omega

/-- Marking the children of a handle adds no work. -/
theorem work_markChildren_le (trace : Trace) (handle : Handle) :
    (trace.markChildren handle).work ≤ trace.work := by
  unfold markChildren
  split
  · exact Nat.le_refl _
  · exact Nat.le_trans (work_mark_le _ _) (work_mark_le _ _)

/-- Follows the children of pending handles until none is pending. -/
def drain : Trace → Heap
  | ⟨heap, []⟩ => heap
  | ⟨heap, handle :: others⟩ =>
      drain (markChildren ⟨heap, others⟩ handle)
termination_by trace => trace.work
decreasing_by
  have noMoreWork := work_markChildren_le ⟨heap, others⟩ handle
  simp only [work, List.length_cons] at noMoreWork ⊢
  omega

end Trace

namespace Heap

/-- The trace that has nothing pending. -/
def startTrace (heap : Heap) : Trace where
  heap := heap
  pending := []

/-- The heap in which exactly what the roots reach is marked. -/
def markFrom (heap : Heap) (roots : List Handle) : Heap :=
  (heap.clearMarks.startTrace.markAll roots).drain

end Heap

end ArenaLisp
