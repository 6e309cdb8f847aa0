import ArenaLisp.Proofs.ElementarySteps

namespace ArenaLisp

/-!
# The course of an evaluation

The journal tells which expressions an evaluation has come to, and in which order.
Nothing that an evaluation does between two of them adds a callable to the heap.
-/

/-- A callable that runs a builtin operation, and has its operands evaluated as that demands. -/
def Callable.IsStandard (callable : Callable) : Prop :=
  ∃ builtin : Builtin,
    callable.operation = .builtin builtin ∧
      callable.evaluatesOperands = builtin.evaluatesOperands

instance : DecidablePred Callable.IsStandard
  | ⟨_, .builtin builtin, evaluatesOperands⟩ =>
      decidable_of_iff (evaluatesOperands = builtin.evaluatesOperands)
        ⟨fun same => ⟨builtin, rfl, same⟩, by rintro ⟨_, ⟨⟩, same⟩; exact same⟩
  | ⟨_, .custom _, _⟩ => isFalse (by rintro ⟨_, ⟨⟩, _⟩)

namespace Machine

/-- The expression whose evaluation begins with an event. -/
def expression? : Event → Option Handle
  | .evaluating expression => some expression
  | _ => none

/-- The expressions whose evaluation began in the course of some events, the first one first. -/
def evaluated (events : List Event) : List Handle :=
  events.reverse.filterMap expression?

/-- Every callable in the heap is standard. -/
def StandardCallables (machine : Machine) : Prop :=
  ∀ handle object callable,
    machine.heap.get? handle = some object →
    object.callable? = some callable →
    callable.IsStandard

theorem StandardCallables.of_slots
    {machine : Machine}
    (slotsStandard :
      ∀ slot ∈ machine.heap.slots.toList,
        ∀ occupied ∈ slot,
          ∀ callable ∈ occupied.object.callable?, callable.IsStandard) :
    machine.StandardCallables := by
  intro handle object callable found isCallable
  obtain ⟨slot, member, rfl⟩ := Heap.exists_slot_of_get? found
  exact slotsStandard (some slot) member slot rfl callable isCallable

theorem StandardCallables.runsOnly
    {machine : Machine}
    (standard : machine.StandardCallables) :
    machine.RunsOnly IsBuiltin := by
  intro handle object callable found isCallable
  obtain ⟨builtin, isOperation, _⟩ := standard handle object callable found isCallable
  exact ⟨builtin, isOperation⟩

/--
What happens to a machine while some expressions are evaluated: the evaluations that
begin are of some of them, in their order, and no callable is added.
-/
structure Visits (nodes : List Handle) (before after : Machine) : Prop where
  callables :
    ∀ handle object callable,
      after.heap.get? handle = some object →
      object.callable? = some callable →
      before.heap.get? handle = some object
  journal :
    ∃ events, after.journal = events ++ before.journal ∧ (evaluated events).Sublist nodes

namespace Visits

variable {nodes earlier later : List Handle} {before between after : Machine}

theorem standard
    (visits : Visits nodes before after)
    (standard : before.StandardCallables) :
    after.StandardCallables := by
  intro handle object callable found isCallable
  exact standard handle object callable
    (visits.callables handle object callable found isCallable) isCallable

theorem refl (machine : Machine) : Visits [] machine machine :=
  ⟨fun _ _ _ found _ => found, [], rfl, List.Sublist.refl _⟩

theorem trans
    (first : Visits earlier before between)
    (second : Visits later between after) :
    Visits (earlier ++ later) before after := by
  obtain ⟨firstEvents, firstJournal, firstOrder⟩ := first.journal
  obtain ⟨secondEvents, secondJournal, secondOrder⟩ := second.journal
  refine ⟨fun handle object callable found isCallable => ?_, secondEvents ++ firstEvents, ?_, ?_⟩
  · exact first.callables handle object callable
      (second.callables handle object callable found isCallable) isCallable
  · rw [secondJournal, firstJournal, List.append_assoc]
  · rw [evaluated, List.reverse_append, List.filterMap_append]
    exact firstOrder.append secondOrder

theorem mono
    (visits : Visits earlier before after)
    (sublist : earlier.Sublist later) :
    Visits later before after := by
  obtain ⟨events, journal, order⟩ := visits.journal
  exact ⟨visits.callables, events, journal, order.trans sublist⟩

/-- Moves of entries are not recorded and add no object. -/
theorem withEntries
    (visits : Visits nodes before after)
    (entries : List Handle) :
    Visits nodes before (after.withEntries entries) :=
  ⟨visits.callables, visits.journal⟩

theorem popped
    (visits : Visits nodes before after) :
    Visits nodes before (pop after).2 :=
  ⟨visits.callables, visits.journal⟩

theorem discarded
    (visits : Visits nodes before after)
    (count : Nat) :
    Visits nodes before (discard count after).2 :=
  ⟨visits.callables, visits.journal⟩

theorem of_withEntries
    {entries : List Handle}
    (visits : Visits nodes (before.withEntries entries) after) :
    Visits nodes before after :=
  ⟨visits.callables, visits.journal⟩

theorem evaluating
    (machine : Machine)
    (expression : Handle) :
    Visits [expression] machine (machine.record (.evaluating expression)) :=
  ⟨fun _ _ _ found _ => found, [.evaluating expression], rfl, List.Sublist.refl _⟩

end Visits

variable {machine : Machine}

theorem reserved_visits
    (counted : machine.heap.Counted) :
    Visits [] machine machine.reserved := by
  have callables :
      ∀ handle object callable,
        machine.reserved.heap.get? handle = some object →
        object.callable? = some callable →
        machine.heap.get? handle = some object :=
    fun _ _ _ found _ => get?_of_reserved counted found
  refine ⟨callables, ?_⟩
  rcases reserved_cases machine with same | ⟨same, _⟩
  · rw [same]
    exact ⟨[_], rfl, List.Sublist.refl _⟩
  · rw [same]
    exact ⟨[], rfl, List.Sublist.refl _⟩

theorem place_visits
    (bounded : machine.heap.capacity ≤ Handle.bound)
    {object : Object}
    (uncallable : object.callable? = none) :
    Visits [] machine (place object machine).2 := by
  rcases place_cases object machine with ⟨failed, _⟩ | ⟨index, placed, free⟩
  · rw [failed]
    exact .refl machine
  · rw [placed]
    refine ⟨?_, [_], rfl, List.Sublist.refl _⟩
    intro handle found callable isFound isCallable
    have inHeap : (Heap.place object machine.heap).2.get? handle = some found := isFound
    rw [Heap.get?, Heap.slotAt?_place bounded object free handle] at inHeap
    split at inHeap
    · simp only [Option.map_some, Option.some.injEq] at inHeap
      rw [← inHeap, uncallable] at isCallable
      cases isCallable
    · exact inHeap

theorem allocate_visits
    (consistent : machine.heap.Consistent)
    {object : Object}
    (uncallable : object.callable? = none) :
    Visits [] machine (allocate object machine).2 := by
  rw [allocate_eq consistent.toCounted, reserved_sameEntries]
  exact (reserved_visits consistent.toCounted).trans
    (place_visits (reserved_consistent consistent).1.capacityBound uncallable)

theorem recover_visits
    (consistent : machine.heap.Consistent)
    (error : Error) :
    Visits [] machine (recover error machine).2 := by
  cases severity : error.isFatal with
  | true =>
      rw [recover_fatal severity]
      exact .refl machine
  | false =>
      have remembers : Visits [] machine (machine.remembering error) :=
        ⟨fun _ _ _ found _ => found, [.recovered error], rfl, List.Sublist.refl _⟩
      have stillConsistent : (machine.remembering error).heap.Consistent :=
        consistent
      rw [recover_recoverable severity]
      exact remembers.trans (allocate_visits stillConsistent rfl)

theorem binding_visits
    (name : String)
    (value : Handle) :
    Visits [] machine (machine.binding name value) :=
  ⟨fun _ _ _ found _ => found, [.bound name value], rfl, List.Sublist.refl _⟩

end Machine

namespace Builtin

open Machine

variable {machine : Machine}

/-- A strict operation that has taken its operands comes to no expression. -/
theorem finish_visits
    (consistent : machine.heap.Consistent)
    (answer : Except Error (Answer Handle)) :
    Visits [] machine (finish answer machine).2 := by
  rcases answer with error | value | value | part
  · exact .refl machine
  · exact allocate_visits consistent rfl
  · exact allocate_visits consistent rfl
  · exact .refl machine

theorem concludeDefinition_visits
    (consistent : machine.heap.Consistent)
    (name : String)
    (value : Handle)
    {taken below : List Handle}
    (entries : machine.stack.entries = taken ++ below)
    (two : taken.length = 2) :
    Visits [] machine (concludeDefinition name value machine).2 := by
  have stillConsistent : ((machine.binding name value).withEntries below).heap.Consistent :=
    consistent
  rw [concludeDefinition_eq entries two]
  exact ((binding_visits name value).withEntries below).trans
    (allocate_visits stillConsistent rfl)

end Builtin

namespace Evaluator

open Machine

variable {machine : Machine}

theorem evaluateSymbol_visits
    (consistent : machine.heap.Consistent)
    (name : String) :
    Visits [] machine (evaluateSymbol name machine).2 := by
  cases bound : machine.environment.get? name with
  | some value =>
      rw [evaluateSymbol_bound bound]
      exact .refl machine
  | none =>
      rw [evaluateSymbol_unbound bound]
      exact recover_visits consistent _

end Evaluator

end ArenaLisp
