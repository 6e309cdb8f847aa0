import ArenaLisp.Transition

namespace ArenaLisp

/-!
# The operand stack

Callables find their operands on this stack, and every entry is a root of the
collector.  The list of entries starts at the top.

Taking several entries exists in two forms that differ when there are too few:
`popMany` refuses and changes nothing, `discard` has by then emptied the stack.
-/

/-- A stack of handles, top entry first. -/
structure OperandStack where
  entries : List Handle
  deriving Repr, DecidableEq

namespace OperandStack

/-- The stack without entries. -/
def empty : OperandStack where
  entries := []

/-- The number of entries. -/
def size (stack : OperandStack) : Nat :=
  stack.entries.length

/-- Whether there is no entry. -/
def isEmpty (stack : OperandStack) : Bool :=
  stack.entries.isEmpty

/-- The entries from the bottom of the stack to its top. -/
def bottomUp (stack : OperandStack) : List Handle :=
  stack.entries.reverse

/-- The stack with one more entry on top. -/
def push (stack : OperandStack) (handle : Handle) : OperandStack where
  entries := handle :: stack.entries

/-- The stack without its top entries, as many as given or all there are. -/
def drop (stack : OperandStack) (count : Nat) : OperandStack where
  entries := stack.entries.drop count

/-- Whether there are at least as many entries as given. -/
def covers (stack : OperandStack) (count : Nat) : Bool :=
  (stack.entries.take count).length == count

/-- Takes the top entry. -/
def pop : Transition OperandStack Handle := fun stack =>
  match stack.entries with
  | [] => (.error .stackUnderflow, stack)
  | top :: below => (.ok top, ⟨below⟩)

/-- Takes entries one after the other and answers with the last one taken. -/
def discard (count : Nat) : Transition OperandStack (Option Handle) := fun stack =>
  if stack.covers count then
    (.ok (stack.entries.take count).getLast?, stack.drop count)
  else
    (.error .stackUnderflow, empty)

/-- Takes entries at once and answers with them, the top entry first. -/
def popMany (count : Nat) : Transition OperandStack (List Handle) := fun stack =>
  if stack.covers count then
    (.ok (stack.entries.take count), stack.drop count)
  else
    (.error .stackUnderflow, stack)

/-- The entry that lies the given number of places below the top. -/
def peek (depth : Nat) (stack : OperandStack) : Except Error Handle :=
  match stack.entries[depth]? with
  | some handle => .ok handle
  | none => .error .stackUnderflow

/-- A stack covers a number of entries exactly when it is not smaller. -/
theorem covers_iff
    {stack : OperandStack}
    {count : Nat} :
    stack.covers count = true ↔ count ≤ stack.size := by
  simp only [covers, size, List.length_take, beq_iff_eq]
  omega

end OperandStack

end ArenaLisp
