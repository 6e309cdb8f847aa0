import ArenaLisp.Machine.Basic
import ArenaLisp.Heap.Trace

namespace ArenaLisp

/-!
# Collection

A collection marks what the bindings and the operand stack reach, empties every
other occupied slot, and sets the number of objects at which the next one is
due.  Objects never move: a handle that survives names the same object.
-/

namespace Machine

/--
Empties a slot and drops every binding of its handle.  A slot that is already
empty is an error, and then nothing changes.
-/
def free (handle : Handle) : Action Unit := do
  if (← get).heap.isOccupied handle then
    modify fun machine =>
      { machine with environment := machine.environment.purge handle }
    let _ ← onHeap (Heap.release handle)
  else
    throw (.doubleFree handle)

/-- Empties the slots of a list of handles, in its order. -/
def freeAll (handles : List Handle) : Action Unit :=
  handles.forM free

/-- Marks what the roots reach, and answers with the occupied slots left unmarked. -/
def markRoots : Action (List Handle) := do
  modify fun machine => { machine with heap := machine.heap.markFrom machine.roots }
  return (← get).heap.unmarked

/-- Clears the marks, sets the next threshold, and counts and records the collection. -/
def finishCollection (liveBefore freed : Nat) : Action Unit :=
  modify fun machine =>
    let heap := machine.heap.clearMarks.adjustThreshold
    let collections := machine.collections + 1
    { machine with heap := heap, collections := collections }.record
      (.collected
        { number := collections
          liveBefore := liveBefore
          freed := freed
          remaining := heap.live
          capacity := heap.capacity
          nextThreshold := heap.threshold })

/-- Empties every slot that no root reaches, and answers with their number. -/
def collect : Action Nat := do
  let liveBefore := (← get).heap.live
  let garbage ← markRoots
  freeAll garbage
  finishCollection liveBefore garbage.length
  return garbage.length

end Machine

end ArenaLisp
