import ArenaLisp.Proofs.Collection
import ArenaLisp.Proofs.Steps

namespace ArenaLisp

/-!
# Well-formed machines

No handle dangles: every handle that a binding, a stack entry or an occupied pair
holds names an occupied slot, and the heap's counters are consistent.  On such a
machine an expression that a stack entry reaches can be followed to its leaves.
-/

namespace Machine

structure WellFormed (machine : Machine) : Prop where
  consistent : machine.heap.Consistent
  bindingsOccupied :
    ∀ handle ∈ machine.environment.values, machine.heap.isOccupied handle = true
  entriesOccupied :
    ∀ handle ∈ machine.stack.entries, machine.heap.isOccupied handle = true
  closed : machine.heap.Closed

variable {machine : Machine}

theorem reachable_of_entries
    {handle : Handle}
    (reached : machine.heap.Reaches machine.stack.entries handle) :
    machine.Reachable handle :=
  reached.of_subset fun _ member => mem_roots_iff.mpr (.inr member)

/-- What keeps everything reachable keeps everything that the stack reaches. -/
theorem keeps_entries
    {after : Heap}
    (keeps : Heap.Keeps machine.roots machine.heap after) :
    Heap.Keeps machine.stack.entries machine.heap after :=
  keeps.of_subset fun _ member => mem_roots_iff.mpr (.inr member)

namespace WellFormed

theorem rootsOccupied
    (wellFormed : machine.WellFormed) :
    ∀ handle ∈ machine.roots, machine.heap.isOccupied handle = true := by
  intro handle member
  rcases mem_roots_iff.mp member with bound | entry
  · exact wellFormed.bindingsOccupied handle bound
  · exact wellFormed.entriesOccupied handle entry

theorem reachable_root
    (wellFormed : machine.WellFormed)
    {root : Handle}
    (member : root ∈ machine.roots) :
    machine.Reachable root :=
  .root member (wellFormed.rootsOccupied root member)

theorem reaches_entry
    (wellFormed : machine.WellFormed)
    {handle : Handle}
    (member : handle ∈ machine.stack.entries) :
    machine.heap.Reaches machine.stack.entries handle :=
  .root member (wellFormed.entriesOccupied handle member)

theorem reachable_binding
    (wellFormed : machine.WellFormed)
    {name : String}
    {value : Handle}
    (found : machine.environment.get? name = some value) :
    machine.Reachable value :=
  have member := Environment.mem_values_of_get? found
  .root (mem_roots_iff.mpr (.inl member)) (wellFormed.bindingsOccupied value member)

/-- With the same roots, and what these reach unchanged, nothing more is reachable. -/
theorem reachable_of_keeps
    (wellFormed : machine.WellFormed)
    {after : Machine}
    (sameRoots : after.roots = machine.roots)
    (keeps : Heap.Keeps machine.roots machine.heap after.heap)
    {handle : Handle}
    (reached : after.Reachable handle) :
    machine.Reachable handle := by
  rw [Reachable, sameRoots] at reached
  exact (keeps.reaches_iff wellFormed.closed wellFormed.rootsOccupied handle).mp reached

/-- Another stack of occupied handles keeps a machine well formed. -/
theorem withEntries
    (wellFormed : machine.WellFormed)
    {entries : List Handle}
    (occupied : ∀ handle ∈ entries, machine.heap.isOccupied handle = true) :
    (machine.withEntries entries).WellFormed :=
  ⟨wellFormed.consistent, wellFormed.bindingsOccupied, occupied, wellFormed.closed⟩

theorem push
    (wellFormed : machine.WellFormed)
    {handle : Handle}
    (occupied : machine.heap.isOccupied handle = true) :
    (machine.withEntries (handle :: machine.stack.entries)).WellFormed := by
  refine wellFormed.withEntries fun entry member => ?_
  rcases List.mem_cons.mp member with isHandle | below
  · exact isHandle ▸ occupied
  · exact wellFormed.entriesOccupied entry below

/-- Fewer entries keep a machine well formed. -/
theorem withFewerEntries
    (wellFormed : machine.WellFormed)
    {entries : List Handle}
    (fewer : ∀ handle ∈ entries, handle ∈ machine.stack.entries) :
    (machine.withEntries entries).WellFormed :=
  wellFormed.withEntries fun handle member =>
    wellFormed.entriesOccupied handle (fewer handle member)

/-- Binding an occupied handle keeps a machine well formed. -/
theorem define
    (wellFormed : machine.WellFormed)
    {value : Handle}
    (name : String)
    (occupied : machine.heap.isOccupied value = true) :
    { machine with environment := machine.environment.define name value }.WellFormed := by
  refine ⟨wellFormed.consistent, fun handle member => ?_, wellFormed.entriesOccupied,
    wellFormed.closed⟩
  rcases Environment.mem_values_define member with isValue | before
  · exact isValue ▸ occupied
  · exact wellFormed.bindingsOccupied handle before

end WellFormed

end Machine

end ArenaLisp
