import ArenaLisp.Proofs.Lists.Shape
import ArenaLisp.Proofs.Plans.Operations

namespace ArenaLisp

/-!
# Regular machines

A machine is regular if its heap is shaped and nothing has ever been recovered from a
malformed chain of operands.  Whatever changes a machine once keeps it regular, as long
as a new pair holds objects that are there, its cdr as part of a list, and the error that
is remembered is another one.
-/

namespace Machine

/-- Every pair is part of a list that ends in nil, and no call ever met another chain. -/
structure Regular (machine : Machine) : Prop where
  consistent : machine.heap.Consistent
  shaped : machine.heap.Shaped
  notRemembered : .malformedList ∉ machine.diagnostics
  notRecovered : .recovered .malformedList ∉ machine.journal

variable {machine : Machine}

namespace Regular

theorem of_same
    (regular : machine.Regular)
    {other : Machine}
    (sameHeap : other.heap = machine.heap)
    (sameDiagnostics : other.diagnostics = machine.diagnostics)
    (sameJournal : other.journal = machine.journal) :
    other.Regular := by
  obtain ⟨consistent, shaped, notRemembered, notRecovered⟩ := regular
  rw [← sameHeap] at consistent shaped
  rw [← sameDiagnostics] at notRemembered
  rw [← sameJournal] at notRecovered
  exact ⟨consistent, shaped, notRemembered, notRecovered⟩

theorem withEntries
    (regular : machine.Regular)
    (entries : List Handle) :
    (machine.withEntries entries).Regular :=
  regular.of_same rfl rfl rfl

/-- Any event but one may be noted. -/
theorem record
    (regular : machine.Regular)
    {event : Event}
    (harmless : event ≠ .recovered .malformedList) :
    (machine.record event).Regular where
  consistent := regular.consistent
  shaped := regular.shaped
  notRemembered := regular.notRemembered
  notRecovered := by
    intro member
    rcases List.mem_cons.mp member with isEvent | before
    · exact harmless isEvent.symm
    · exact regular.notRecovered before

theorem marked
    (regular : machine.Regular) :
    machine.marked.Regular := by
  obtain ⟨slots, marked, _⟩ := Heap.sameCounters_markFrom machine.heap machine.roots
  have consistent : (machine.heap.markFrom machine.roots).Consistent := by
    refine ⟨counted_markFrom regular.consistent.toCounted, ?_, ?_⟩
    · rw [marked]
      exact regular.consistent.thresholdLow
    · rw [Heap.capacity_markFrom, marked]
      exact regular.consistent.thresholdHigh
  exact ⟨consistent, regular.shaped.congr (Heap.get?_markFrom machine.heap machine.roots),
    regular.notRemembered, regular.notRecovered⟩

theorem collected
    (regular : machine.Regular) :
    machine.collected.Regular := by
  have counted := regular.consistent.toCounted
  have subset
      (handle : Handle)
      (object : Object)
      (found : machine.collected.heap.get? handle = some object) :
      machine.heap.get? handle = some object := by
    have reached : machine.Reachable handle :=
      (isOccupied_sweptHeap_iff counted handle).mp (Heap.isOccupied_of_get? found)
    rwa [← get?_sweptHeap_of_reachable counted reached]
  have swept :
      { machine with
        heap := machine.sweptHeap
        collections := machine.collections + 1 }.Regular :=
    ⟨(sweptHeap_counters counted).1,
      regular.shaped.of_subset (closed_collected counted regular.shaped.closed) subset,
      regular.notRemembered, regular.notRecovered⟩
  exact swept.record (by rintro ⟨⟩)

/-- A sweep leaves the objects that the whole collection leaves. -/
theorem swept
    (regular : machine.Regular) :
    machine.swept.Regular := by
  have counted := regular.consistent.toCounted
  have marked : (machine.heap.markFrom machine.roots).Consistent := regular.marked.consistent
  obtain ⟨released, _⟩ :=
    marked.releaseAll (garbage_occupied counted.capacityBound) (garbage_nodup counted)
  obtain ⟨_, initial, threshold, capacity⟩ :=
    Heap.releaseAll_fields (machine.heap.markFrom machine.roots) machine.garbage
  have consistent :
      ((machine.heap.markFrom machine.roots).releaseAll machine.garbage).Consistent := by
    refine ⟨released, ?_, ?_⟩
    · rw [initial, threshold]
      exact marked.thresholdLow
    · rw [threshold, capacity]
      exact marked.thresholdHigh
  exact ⟨consistent,
    regular.collected.shaped.congr fun handle => (Heap.get?_clearMarks _ handle).symm,
    regular.notRemembered, regular.notRecovered⟩

theorem placing
    (regular : machine.Regular)
    {object : Object}
    {index : Nat}
    (free : machine.heap.nextFree? = some index)
    (held : ∀ child ∈ object.handles, machine.heap.isOccupied child = true)
    (tail : ∀ car cdr, object = .pair car cdr → machine.heap.GoesOn cdr) :
    (machine.placing object index).Regular := by
  have bounded := regular.consistent.capacityBound
  have slot := Heap.slotAt?_place bounded object free
  have isFree := Heap.isFreeAt_of_findFree? free
  have fresh : machine.heap.isOccupied (Handle.ofIndex index) = false := by
    rw [Heap.isFreeAt_eq_not_isOccupied bounded (Heap.lt_capacity_of_isFreeAt isFree)] at isFree
    simpa using isFree
  have found : (Heap.place object machine.heap).2.get? (Handle.ofIndex index) = some object := by
    simp [Heap.get?, slot]
  have others
      (other : Handle)
      (distinct : other ≠ Handle.ofIndex index) :
      (Heap.place object machine.heap).2.get? other = machine.heap.get? other := by
    simp [Heap.get?, slot, distinct]
  have filled : { machine with heap := (Heap.place object machine.heap).2 }.Regular :=
    ⟨regular.consistent.place object free,
      regular.shaped.extended fresh found others held tail,
      regular.notRemembered, regular.notRecovered⟩
  exact filled.record (by rintro ⟨⟩)

theorem placed
    (regular : machine.Regular)
    {object : Object}
    (held : ∀ child ∈ object.handles, machine.heap.isOccupied child = true)
    (tail : ∀ car cdr, object = .pair car cdr → machine.heap.GoesOn cdr) :
    (place object machine).2.Regular := by
  rcases place_cases object machine with ⟨failed, _⟩ | ⟨index, succeeded, free⟩
  · rw [failed]
    exact regular
  · rw [succeeded]
    exact regular.placing free held tail

theorem remembered
    (regular : machine.Regular)
    {error : Error}
    (harmless : error ≠ .malformedList) :
    { machine with diagnostics := remember machine.diagnostics error }.Regular where
  consistent := regular.consistent
  shaped := regular.shaped
  notRecovered := regular.notRecovered
  notRemembered := by
    have notAdded : .malformedList ∉ [error] :=
      fun member => harmless (List.mem_singleton.mp member).symm
    intro member
    rw [remember] at member
    split at member
    · rcases List.mem_append.mp member with kept | added
      · exact regular.notRemembered (List.mem_of_mem_drop kept)
      · exact notAdded added
    · rcases List.mem_append.mp member with kept | added
      · exact regular.notRemembered kept
      · exact notAdded added

theorem binding
    (regular : machine.Regular)
    (name : String)
    (value : Handle) :
    (machine.binding name value).Regular := by
  have defined :
      { machine with environment := machine.environment.define name value }.Regular :=
    regular.of_same rfl rfl rfl
  exact defined.record (by rintro ⟨⟩)

open Plan

theorem throughout_onStack
    {Value : Type}
    (regular : machine.Regular)
    (step : Transition OperandStack Value) :
    (Plan.onStack step).Throughout Regular machine :=
  .perform regular (regular.of_same rfl rfl rfl)

theorem throughout_push
    (regular : machine.Regular)
    (handle : Handle) :
    (Plan.push handle).Throughout Regular machine :=
  regular.throughout_onStack _

theorem throughout_pop
    (regular : machine.Regular) :
    Plan.pop.Throughout Regular machine :=
  regular.throughout_onStack _

theorem throughout_discard
    (regular : machine.Regular)
    (count : Nat) :
    (Plan.discard count).Throughout Regular machine :=
  regular.throughout_onStack _

theorem throughout_bindName
    (regular : machine.Regular)
    (name : String)
    (value : Handle) :
    (Plan.bindName name value).Throughout Regular machine :=
  .perform regular (regular.binding name value)

/-- Marked, swept and collected, a regular machine is regular each time. -/
theorem preserves_collect : Plan.collect.Preserves Regular := by
  intro machine regular
  have sweeps := freeAll_garbage regular.consistent.toCounted
  have swept : (freeAll machine.garbage machine.marked).2.Regular := by
    rw [sweeps]
    exact regular.swept
  refine (Throughout.observe _ regular).bind_value rfl ?_
  refine (Throughout.perform regular regular.marked).bind_value rfl ?_
  refine (Throughout.perform regular.marked swept).bind_value (congrArg some sweeps) ?_
  refine (Throughout.perform regular.swept regular.collected).bind_value rfl ?_
  exact .pure _ regular.collected

theorem preserves_reserve : Plan.reserve.Preserves Regular := by
  refine .bind (.observe _) fun _ => ?_
  split
  · exact preserves_collect.bind fun _ => .pure ()
  · exact .pure ()

/-- A leaf can be allocated anywhere. -/
theorem preserves_allocate
    {object : Object}
    (noHandles : object.handles = []) :
    (Plan.allocate object).Preserves Regular := by
  refine preserves_reserve.bind fun _ => .perform fun machine regular => regular.placed ?_ ?_
  · simp [noHandles]
  · rintro car cdr rfl
    cases noHandles

theorem preserves_recover
    {error : Error}
    (harmless : error ≠ .malformedList) :
    (Plan.recover error).Preserves Regular := by
  unfold Plan.recover
  split
  · exact .throw error
  · have remembers (machine : Machine) (regular : machine.Regular) :=
      regular.remembered harmless
    have notes (machine : Machine) (regular : machine.Regular) :=
      regular.record fun same => harmless (Event.recovered.inj same)
    exact (Preserves.perform remembers).bind fun _ =>
      (Preserves.perform notes).bind fun _ => preserves_allocate rfl

end Regular

end Machine

end ArenaLisp
