import ArenaLisp.Evaluation.Basic
import ArenaLisp.Proofs.StrictBuiltins

namespace ArenaLisp

/-!
# Disciplined operations

What an operation owes to the machine that calls it: it takes exactly its
operands off the stack, keeps the machine well formed, and neither empties nor
changes a slot that the entries below its operands reach.  It may run out of
memory, and then the entries below its operands are still there.

The ten builtin operations are disciplined if the interpreter that they call is,
whatever other operations the machine's callables run.
-/

namespace Machine

/-- Every callable in the heap runs an operation of a given set. -/
def RunsOnly (operations : Operation → Prop) (machine : Machine) : Prop :=
  ∀ handle object callable,
    machine.heap.get? handle = some object →
    object.callable? = some callable →
    operations callable.operation

/-- The operations of a machine without custom operations. -/
def IsBuiltin (operation : Operation) : Prop :=
  ∃ builtin, operation = .builtin builtin

instance : DecidablePred IsBuiltin
  | .builtin builtin => isTrue ⟨builtin, rfl⟩
  | .custom _ => isFalse (by rintro ⟨_, ⟨⟩⟩)

/-- A well-formed machine whose callables run operations of a given set. -/
structure Orderly (operations : Operation → Prop) (machine : Machine) : Prop
    extends WellFormed machine where
  runsOnly : machine.RunsOnly operations

/-- Whether a machine is orderly can be seen from its roots and its slots one by one. -/
theorem Orderly.of_slots
    {operations : Operation → Prop}
    {machine : Machine}
    (consistent : machine.heap.Consistent)
    (rootsOccupied : ∀ handle ∈ machine.roots, machine.heap.isOccupied handle = true)
    (slotsOrderly :
      ∀ slot ∈ machine.heap.slots.toList,
        ∀ occupied ∈ slot,
          (∀ child ∈ occupied.object.handles, machine.heap.isOccupied child = true) ∧
            ∀ callable ∈ occupied.object.callable?, operations callable.operation) :
    machine.Orderly operations := by
  have foundOrderly
      {handle : Handle}
      {object : Object}
      (found : machine.heap.get? handle = some object) :
      (∀ child ∈ object.handles, machine.heap.isOccupied child = true) ∧
        ∀ callable ∈ object.callable?, operations callable.operation := by
    obtain ⟨slot, member, rfl⟩ := Heap.exists_slot_of_get? found
    exact slotsOrderly (some slot) member slot rfl
  refine ⟨⟨consistent, ?_, ?_, ?_⟩, ?_⟩
  · intro handle member
    exact rootsOccupied handle (mem_roots_iff.mpr (.inl member))
  · intro handle member
    exact rootsOccupied handle (mem_roots_iff.mpr (.inr member))
  · intro parent object child found held
    exact (foundOrderly found).1 child held
  · intro handle object callable found isCallable
    exact (foundOrderly found).2 callable isCallable

theorem WellFormed.orderly
    {machine : Machine}
    (wellFormed : machine.WellFormed) :
    machine.Orderly fun _ => True :=
  ⟨wellFormed, fun _ _ _ _ _ => trivial⟩

/--
What an evaluation owes to the entries on the stack: it leaves exactly these and
a value in an occupied slot, or it runs out of memory above them.
-/
structure Answers
    (operations : Operation → Prop)
    (before : Heap)
    (below : List Handle)
    (result : Except Error Handle)
    (after : Machine) :
    Prop where
  orderly : after.Orderly operations
  keeps : Heap.Keeps below before after.heap
  value :
    ∀ handle,
      result = .ok handle →
      after.stack.entries = below ∧ after.heap.isOccupied handle = true
  failure :
    ∀ error,
      result = .error error →
      error = .outOfMemory ∧ below <:+ after.stack.entries

/--
What an operation owes to the entries below its operands.  Besides running out of
memory it may fail with a recoverable error, once it has taken its operands.
-/
structure Settles
    (operations : Operation → Prop)
    (before : Heap)
    (below : List Handle)
    (result : Except Error Handle)
    (after : Machine) :
    Prop where
  orderly : after.Orderly operations
  keeps : Heap.Keeps below before after.heap
  value :
    ∀ handle,
      result = .ok handle →
      after.stack.entries = below ∧ after.heap.isOccupied handle = true
  recoverable :
    ∀ error, result = .error error → error.isFatal = false → after.stack.entries = below
  fatal :
    ∀ error,
      result = .error error →
      error.isFatal = true →
      error = .outOfMemory ∧ below <:+ after.stack.entries

end Machine

/--
Every operation of a set settles when a given interpreter runs it with operands
that are on the stack of an orderly machine.
-/
def Settling
    (library : Library)
    (operations : Operation → Prop)
    (inner : Evaluator) :
    Prop :=
  ∀ operation given machine,
    operations operation →
    Machine.Orderly operations machine →
    given ≤ machine.stack.size →
    (operation.procedure library inner given).Ensures machine
      (Machine.Settles operations machine.heap (machine.stack.entries.drop given))

/-- An operation settles to the entries below its operands, however these are given. -/
theorem Settling.of_entries
    {library : Library}
    {operations : Operation → Prop}
    {inner : Evaluator}
    (settling : Settling library operations inner)
    {operation : Operation}
    (known : operations operation)
    {machine : Machine}
    (orderly : machine.Orderly operations)
    {operands below : List Handle}
    (entries : machine.stack.entries = operands ++ below) :
    (operation.procedure library inner operands.length).Ensures machine
      (Machine.Settles operations machine.heap below) := by
  have enough : operands.length ≤ machine.stack.size := by
    simp [OperandStack.size, entries]
  have settles := settling operation operands.length machine known orderly enough
  rwa [entries, List.drop_left] at settles

/-- The operations of a set settle with whatever nesting limit they are run. -/
def Disciplined (library : Library) (operations : Operation → Prop) : Prop :=
  ∀ limit, Settling library operations (evaluator library limit)

/-- An interpreter that answers on every expression that a stack entry reaches. -/
def Evaluator.Safe (operations : Operation → Prop) (evaluator : Evaluator) : Prop :=
  ∀ machine expression,
    Machine.Orderly operations machine →
    machine.heap.Reaches machine.stack.entries expression →
    (evaluator.evaluate expression).Ensures machine
      (Machine.Answers operations machine.heap machine.stack.entries)

namespace Machine

variable {operations : Operation → Prop} {machine : Machine}

namespace Orderly

theorem withFewerEntries
    (orderly : machine.Orderly operations)
    {entries : List Handle}
    (fewer : ∀ handle ∈ entries, handle ∈ machine.stack.entries) :
    (machine.withEntries entries).Orderly operations :=
  ⟨orderly.toWellFormed.withFewerEntries fewer, orderly.runsOnly⟩

/-- Taking entries off the stack keeps a machine orderly. -/
theorem popped
    (orderly : machine.Orderly operations)
    {taken below : List Handle}
    (entries : machine.stack.entries = taken ++ below) :
    (machine.withEntries below).Orderly operations := by
  refine orderly.withFewerEntries fun handle member => ?_
  rw [entries]
  exact List.mem_append_right _ member

theorem push
    (orderly : machine.Orderly operations)
    {handle : Handle}
    (occupied : machine.heap.isOccupied handle = true) :
    (machine.withEntries (handle :: machine.stack.entries)).Orderly operations :=
  ⟨orderly.toWellFormed.push occupied, orderly.runsOnly⟩

/-- Whether a machine is orderly depends on its heap, its bindings and its entries alone. -/
theorem of_same
    (orderly : machine.Orderly operations)
    {other : Machine}
    (sameHeap : other.heap = machine.heap)
    (sameEnvironment : other.environment = machine.environment)
    (sameStack : other.stack = machine.stack) :
    other.Orderly operations := by
  obtain ⟨⟨consistent, bindingsOccupied, entriesOccupied, closed⟩, runsOnly⟩ := orderly
  rw [RunsOnly, ← sameHeap] at runsOnly
  rw [← sameHeap] at consistent bindingsOccupied entriesOccupied closed
  rw [← sameEnvironment] at bindingsOccupied
  rw [← sameStack] at entriesOccupied
  exact ⟨⟨consistent, bindingsOccupied, entriesOccupied, closed⟩, runsOnly⟩

theorem record
    (orderly : machine.Orderly operations)
    (event : Event) :
    (machine.record event).Orderly operations :=
  orderly.of_same rfl rfl rfl

theorem binding
    (orderly : machine.Orderly operations)
    (name : String)
    {value : Handle}
    (occupied : machine.heap.isOccupied value = true) :
    (machine.binding name value).Orderly operations :=
  have defined := orderly.toWellFormed.define name occupied
  ⟨⟨defined.consistent, defined.bindingsOccupied, defined.entriesOccupied, defined.closed⟩,
    orderly.runsOnly⟩

theorem reserved
    (orderly : machine.Orderly operations) :
    machine.reserved.Orderly operations := by
  have counted := orderly.consistent.toCounted
  have keeps := keeps_reserved counted
  obtain ⟨sameEnvironment, sameStack, _⟩ := reserved_frame machine
  have rootOccupied : ∀ root ∈ machine.roots, machine.reserved.heap.isOccupied root = true :=
    fun root member =>
      (keeps.reaches (.root member (orderly.toWellFormed.rootsOccupied root member))).isOccupied
  refine ⟨⟨(reserved_consistent orderly.consistent).1, ?_, ?_,
    closed_reserved counted orderly.closed⟩, ?_⟩
  · intro value member
    rw [sameEnvironment] at member
    exact rootOccupied value (mem_roots_iff.mpr (.inl member))
  · intro entry member
    rw [sameStack] at member
    exact rootOccupied entry (mem_roots_iff.mpr (.inr member))
  · intro handle object callable found
    exact orderly.runsOnly handle object callable (get?_of_reserved counted found)

/-- An allocation keeps a machine orderly that already had what the new object needs. -/
theorem placed
    {after : Machine}
    {object : Object}
    {handle : Handle}
    (orderly : machine.Orderly operations)
    (placed : Placed machine object handle after)
    (heldReachable : ∀ child ∈ object.handles, machine.Reachable child)
    (entries : ∀ entry ∈ after.stack.entries, entry ∈ machine.stack.entries)
    (knownCallable : ∀ callable, object.callable? = some callable → operations callable.operation) :
    after.Orderly operations := by
  refine ⟨placed.wellFormed orderly.toWellFormed heldReachable entries, ?_⟩
  intro other otherObject callable found isCallable
  rcases placed.only orderly.consistent.toCounted found with ⟨_, rfl⟩ | before
  · exact knownCallable callable isCallable
  · exact orderly.runsOnly other otherObject callable before isCallable

end Orderly

theorem Answers.settles
    {before : Heap}
    {below : List Handle}
    {result : Except Error Handle}
    {after : Machine}
    (answers : Answers operations before below result after) :
    Settles operations before below result after where
  orderly := answers.orderly
  keeps := answers.keeps
  value := answers.value
  recoverable := by
    intro error failed recoverable
    obtain ⟨rfl, _⟩ := answers.failure error failed
    exact absurd recoverable (by decide)
  fatal := fun error failed _ => answers.failure error failed

/-- An answer that is found without changing the stack or the heap. -/
theorem Answers.unchanged
    (orderly : machine.Orderly operations)
    {handle : Handle}
    (occupied : machine.heap.isOccupied handle = true) :
    Answers operations machine.heap machine.stack.entries (.ok handle) machine where
  orderly := orderly
  keeps := Heap.Keeps.refl _ _
  value := by
    intro _ same
    cases same
    exact ⟨rfl, occupied⟩
  failure := by
    intro _ same
    cases same

/-- Steps before an answer only have to keep what the entries reach. -/
theorem Answers.after_keeps
    {before between : Heap}
    {below : List Handle}
    {result : Except Error Handle}
    {after : Machine}
    (answers : Answers operations between below result after)
    (keeps : Heap.Keeps below before between) :
    Answers operations before below result after :=
  ⟨answers.orderly, keeps.trans answers.keeps, answers.value, answers.failure⟩

/-- An evaluation that starts where another one has left a value. -/
theorem Answers.trans
    {before : Heap}
    {below : List Handle}
    {value : Handle}
    {between after : Machine}
    {result : Except Error Handle}
    (first : Answers operations before below (.ok value) between)
    (second : Answers operations between.heap between.stack.entries result after) :
    Answers operations before below result after := by
  rw [(first.value value rfl).1] at second
  exact second.after_keeps first.keeps

/-- What the entries reached before, they still reach with the value on top of them. -/
theorem Answers.reaches_above
    {before : Heap}
    {below : List Handle}
    {value handle : Handle}
    {after : Machine}
    (answers : Answers operations before below (.ok value) after)
    (reached : before.Reaches below handle) :
    after.heap.Reaches (value :: after.stack.entries) handle := by
  have still := answers.keeps.reaches reached
  rw [(answers.value value rfl).1]
  exact still.of_subset fun _ member => List.mem_cons_of_mem value member

/-- Running out of memory above some entries is running out of memory above fewer. -/
theorem Answers.failure_below
    {before : Heap}
    {taken below : List Handle}
    {error : Error}
    {after : Machine}
    (answers : Answers operations before (taken ++ below) (.error error) after) :
    Answers operations before below (.error error) after where
  orderly := answers.orderly
  keeps := answers.keeps.below
  value := by
    intro _ same
    cases same
  failure := by
    intro _ same
    cases same
    obtain ⟨isOutOfMemory, still⟩ := answers.failure error rfl
    exact ⟨isOutOfMemory, (List.suffix_append taken below).trans still⟩

/-- A value may be answered once the entries above some others have been taken. -/
theorem Answers.value_below
    {before : Heap}
    {taken below : List Handle}
    {value : Handle}
    {after : Machine}
    (answers : Answers operations before (taken ++ below) (.ok value) after) :
    Answers operations before below (.ok value) (after.withEntries below) := by
  obtain ⟨entries, occupied⟩ := answers.value value rfl
  refine ⟨answers.orderly.popped entries, answers.keeps.below, ?_, ?_⟩
  · intro _ same
    cases same
    exact ⟨rfl, occupied⟩
  · intro _ same
    cases same

/-- The allocation of a leaf answers. -/
theorem allocate_answers
    (orderly : machine.Orderly operations)
    {object : Object}
    (noHandles : object.handles = [])
    (notCallable : object.callable? = none) :
    Answers operations machine.heap machine.stack.entries
      (allocate object machine).1 (allocate object machine).2 := by
  have counted := orderly.consistent.toCounted
  rcases allocate_cases orderly.consistent object with
    ⟨failed, _⟩ | ⟨handle, after, succeeded, placed, sameEntries, _⟩
  · obtain ⟨_, sameStack, _⟩ := reserved_frame machine
    rw [failed]
    refine ⟨orderly.reserved, keeps_entries (keeps_reserved counted), ?_, ?_⟩
    · intro _ same
      cases same
    · intro _ same
      cases same
      rw [sameStack]
      exact ⟨rfl, List.suffix_refl _⟩
  · rw [succeeded]
    refine ⟨?_, keeps_entries (placed.keeps counted), ?_, ?_⟩
    · refine orderly.placed placed ?_ (fun entry member => sameEntries ▸ member) ?_
      · simp [noHandles]
      · simp [notCallable]
    · intro _ same
      cases same
      exact ⟨sameEntries, Heap.isOccupied_of_get? placed.found⟩
    · intro _ same
      cases same

/-- The replacement of two entries by their pair answers to the entries below them. -/
theorem consFromStack_answers
    (orderly : machine.Orderly operations)
    {car cdr : Handle}
    {below : List Handle}
    (entries : machine.stack.entries = cdr :: car :: below) :
    Answers operations machine.heap below
      (consFromStack machine).1 (consFromStack machine).2 := by
  have counted := orderly.consistent.toCounted
  have keepsBelow
      {after : Heap}
      (keeps : Heap.Keeps machine.roots machine.heap after) :
      Heap.Keeps below machine.heap after := by
    have keepsEntries := keeps_entries keeps
    rw [entries] at keepsEntries
    exact @Heap.Keeps.below _ _ below [cdr, car] keepsEntries
  rcases consFromStack_cases orderly.consistent entries with
    ⟨failed, _⟩ | ⟨handle, after, succeeded, placed, sameEntries, _⟩
  · obtain ⟨_, sameStack, _⟩ := reserved_frame machine
    have reservedEntries : machine.reserved.stack.entries = [cdr, car] ++ below := by
      rw [sameStack, entries]
      rfl
    rw [failed]
    refine ⟨orderly.reserved.popped reservedEntries, keepsBelow (keeps_reserved counted), ?_, ?_⟩
    · intro _ same
      cases same
    · intro _ same
      cases same
      exact ⟨rfl, List.suffix_refl _⟩
  · rw [succeeded]
    refine ⟨?_, keepsBelow (placed.keeps counted), ?_, ?_⟩
    · have onStack
          {child : Handle}
          (held : child ∈ (Object.pair car cdr).handles) :
          child ∈ machine.stack.entries := by
        rw [entries]
        simp only [Object.handles, List.mem_cons, List.not_mem_nil, or_false] at held
        rcases held with rfl | rfl <;> simp
      refine orderly.placed placed ?_ ?_ ?_
      · intro child held
        exact reachable_of_entries (orderly.toWellFormed.reaches_entry (onStack held))
      · intro entry member
        rw [sameEntries] at member
        simp [entries, member]
      · simp [Object.callable?]
    · intro _ same
      cases same
      exact ⟨sameEntries, Heap.isOccupied_of_get? placed.found⟩
    · intro _ same
      cases same

/-- The machine that has recorded a recoverable error. -/
def remembering (machine : Machine) (error : Error) : Machine :=
  { machine with diagnostics := remember machine.diagnostics error }.record (.recovered error)

theorem recover_recoverable
    {error : Error}
    (recoverable : error.isFatal = false)
    (machine : Machine) :
    recover error machine = allocate .void (machine.remembering error) := by
  simp only [recover, recoverable, Bool.false_eq_true, ↓reduceIte, Transition.bind_apply,
    Transition.modify_apply, note]
  rfl

theorem recover_fatal
    {error : Error}
    (fatal : error.isFatal = true)
    (machine : Machine) :
    recover error machine = (.error error, machine) := by
  simp only [recover, fatal, ↓reduceIte, Transition.throw_apply]

theorem Orderly.remembering
    (orderly : machine.Orderly operations)
    (error : Error) :
    (machine.remembering error).Orderly operations :=
  orderly.of_same rfl rfl rfl

/-- The recovery of a recoverable error answers. -/
theorem recover_answers
    (orderly : machine.Orderly operations)
    {error : Error}
    (recoverable : error.isFatal = false) :
    Answers operations machine.heap machine.stack.entries
      (recover error machine).1 (recover error machine).2 := by
  rw [recover_recoverable recoverable]
  exact allocate_answers (orderly.remembering error) rfl rfl

end Machine

end ArenaLisp
