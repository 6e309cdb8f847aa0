import ArenaLisp.Machine.Basic

namespace ArenaLisp

/-!
# Single steps

What the steps that never allocate do to a machine: looking at an object, and
moving entries on and off the operand stack.  A machine is compared with itself with
other entries, or with another history of what happened and went wrong.
-/

namespace Machine

/-- The machine with other stack entries, the top one first. -/
def withEntries (machine : Machine) (entries : List Handle) : Machine :=
  { machine with stack := ⟨entries⟩ }

/-- The machine with other diagnostics and another journal. -/
def withHistory
    (machine : Machine)
    (diagnostics : List Error)
    (journal : List Event) :
    Machine :=
  { machine with diagnostics, journal }

variable {machine : Machine}

@[simp]
theorem entries_withEntries (entries : List Handle) :
    (machine.withEntries entries).stack.entries = entries :=
  rfl

@[simp]
theorem heap_withEntries (entries : List Handle) :
    (machine.withEntries entries).heap = machine.heap :=
  rfl

theorem withEntries_self (machine : Machine) :
    machine.withEntries machine.stack.entries = machine :=
  rfl

/-- Looking at an occupied slot finds its object. -/
theorem look_found
    {handle : Handle}
    {object : Object}
    (found : machine.heap.get? handle = some object) :
    look handle machine = (.ok object, machine) := by
  simp [look, Transition.observe, Machine.object, found]

theorem lookInteger_found
    {handle : Handle}
    {object : Object}
    (found : machine.heap.get? handle = some object) :
    lookInteger handle machine = (object.integerValue, machine) := by
  rw [lookInteger, Transition.bind_apply, look_found found]
  rfl

theorem push_eq (handle : Handle) (machine : Machine) :
    push handle machine = (.ok (), machine.withEntries (handle :: machine.stack.entries)) :=
  rfl

/-- The machine that has bound a name. -/
def binding (machine : Machine) (name : String) (value : Handle) : Machine :=
  { machine with environment := machine.environment.define name value }.record
    (.bound name value)

theorem bindName_eq (name : String) (value : Handle) (machine : Machine) :
    bindName name value machine = (.ok (), machine.binding name value) :=
  rfl

theorem pop_cons
    {top : Handle}
    {below : List Handle}
    (entries : machine.stack.entries = top :: below) :
    pop machine = (.ok top, machine.withEntries below) := by
  rw [pop, onStack_apply, OperandStack.pop, entries]
  rfl

/-- Taking entries that are there takes them off the stack and does nothing else. -/
theorem popMany_append
    {taken below : List Handle}
    (entries : machine.stack.entries = taken ++ below) :
    popMany taken.length machine = (.ok taken, machine.withEntries below) := by
  have enough : taken.length ≤ machine.stack.size := by
    simp [OperandStack.size, entries]
  rw [popMany, onStack_apply, OperandStack.popMany,
    if_pos (OperandStack.covers_iff.mpr enough), OperandStack.drop, entries, List.take_left,
    List.drop_left]
  rfl

theorem discard_append
    {taken below : List Handle}
    (entries : machine.stack.entries = taken ++ below) :
    ∃ last, discard taken.length machine = (.ok last, machine.withEntries below) := by
  have enough : taken.length ≤ machine.stack.size := by
    simp [OperandStack.size, entries]
  refine ⟨(machine.stack.entries.take taken.length).getLast?, ?_⟩
  rw [discard, onStack_apply, OperandStack.discard,
    if_pos (OperandStack.covers_iff.mpr enough), OperandStack.drop, entries, List.drop_left]
  rfl

theorem peek_found
    {depth : Nat}
    {handle : Handle}
    (entry : machine.stack.entries[depth]? = some handle) :
    peek depth machine = (.ok handle, machine) := by
  simp [peek, Transition.observe, OperandStack.peek, entry]

end Machine

end ArenaLisp
