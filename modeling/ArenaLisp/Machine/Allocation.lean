import ArenaLisp.Machine.Collection

namespace ArenaLisp

/-!
# Allocation

Every object is placed by way of `Machine.reserve`, which first collects when
the heap is at its threshold or full.  What a new object refers to must
therefore be reachable from a root at that moment: `consFromStack` takes its two
parts from the operand stack only after the collection.
-/

namespace Machine

/-- Collects if a collection is due. -/
def reserve : Action Unit := do
  if (← get).heap.needsCollection then
    let _ ← collect

/-- Places an object, after a collection if one is due. -/
def allocate (object : Object) : Action Handle := do
  reserve
  place object

/-- Replaces the top two entries of the operand stack, cdr above car, by their pair's handle. -/
def consFromStack : Action Handle := do
  reserve
  let cdr ← pop
  let car ← pop
  place (.pair car cdr)

/-- Puts every handle of a list on the operand stack, in its order. -/
def pushAll (handles : List Handle) : Action Unit :=
  handles.forM push

/-- Puts one pair for each item in front of a tail; the last item comes first. -/
def consAll (tail : Handle) : List Handle → Action Handle
  | [] => pure tail
  | item :: earlier => do
      push item
      push tail
      consAll (← consFromStack) earlier

/--
The handle of a new list of the given items.  The items lie on the operand
stack while the list is built.
-/
def list (items : List Handle) : Action Handle := do
  pushAll items
  let empty ← allocate .nil
  let result ← consAll empty items.reverse
  let _ ← discard items.length
  return result

/-- Places a callable and binds it under its own name. -/
def install (callable : Callable) : Action Handle := do
  let handle ← allocate callable.toObject
  bindName callable.name handle
  return handle

end Machine

end ArenaLisp
