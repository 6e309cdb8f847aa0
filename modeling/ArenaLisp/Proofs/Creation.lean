import ArenaLisp.Machine.Creation
import ArenaLisp.Proofs.Discipline

namespace ArenaLisp

/-!
# Building a machine

A blank machine is orderly, and installing a callable keeps it so.  Installation is
an allocation and a binding, and can only run out of memory.
-/

namespace Heap

theorem consistent_create
    {capacity : Nat}
    (capacityBound : capacity ≤ Handle.bound)
    (initialThreshold : Nat) :
    (create capacity initialThreshold).Consistent := by
  have positive : 1 ≤ Handle.bound := by
    decide
  have noneOccupied : (create capacity initialThreshold).occupiedCount = 0 := by
    simp [occupiedCount, create]
  refine ⟨⟨?_, noneOccupied.symm, ?_, ?_⟩, Nat.le_refl _, ?_⟩
  · rw [capacity_create]
    omega
  · simp only [create, clamp]
    omega
  · rw [capacity_create]
    simp only [create, clamp]
    omega
  · rw [capacity_create]
    simp only [create, clamp]
    omega

theorem get?_create
    (capacity initialThreshold : Nat)
    (handle : Handle) :
    (create capacity initialThreshold).get? handle = none := by
  simp only [get?, slotAt?, create, Array.getElem?_replicate]
  split <;> rfl

end Heap

namespace Machine

variable {operations : Operation → Prop} {machine : Machine}

theorem blank_orderly
    {capacity : Nat}
    (capacityBound : capacity ≤ Handle.bound)
    (initialThreshold : Nat)
    (eagerDefinitions : Bool) :
    (blank capacity initialThreshold eagerDefinitions).Orderly operations := by
  have nothing
      (handle : Handle) :
      (blank capacity initialThreshold eagerDefinitions).heap.get? handle = none :=
    Heap.get?_create capacity initialThreshold handle
  refine ⟨⟨Heap.consistent_create capacityBound initialThreshold, ?_, ?_, ?_⟩, ?_⟩
  · intro handle member
    cases member
  · intro handle member
    cases member
  · intro parent object child found
    rw [nothing] at found
    cases found
  · intro handle object callable found
    rw [nothing] at found
    cases found

/-- An installation either finds every slot in use, or places the callable and binds it. -/
theorem install_cases
    (orderly : machine.Orderly operations)
    {callable : Callable}
    (known : operations callable.operation) :
    (install callable machine = (.error .outOfMemory, machine.reserved) ∧ machine.Saturated) ∨
      ∃ handle placed,
        install callable machine = (.ok handle, placed.binding callable.name handle) ∧
          Placed machine callable.toObject handle placed ∧
          placed.stack.entries = machine.stack.entries ∧
          placed.Orderly operations ∧
          ¬machine.Saturated := by
  rcases allocate_cases orderly.consistent callable.toObject with
    ⟨failed, saturated⟩ | ⟨handle, after, succeeded, placed, sameEntries, room⟩
  · refine .inl ⟨?_, saturated⟩
    simp only [install, Transition.bind_apply, failed]
  · have noHandles : callable.toObject.handles = [] := by
      cases callable with
      | mk name operation evaluatesOperands =>
          cases evaluatesOperands <;> rfl
    refine .inr ⟨handle, after, ?_, placed, sameEntries, ?_, room⟩
    · simp only [install, Transition.bind_apply, succeeded, bindName_eq, Transition.pure_apply]
    · refine orderly.placed placed ?_ (fun entry member => sameEntries ▸ member) ?_
      · simp [noHandles]
      · intro found isCallable
        rw [Object.callable?_toObject, Option.some.injEq] at isCallable
        exact isCallable ▸ known

/-- Installs some builtin operations. -/
def installAll (builtins : List Builtin) : Action Unit :=
  builtins.forM fun builtin => do
    let _ ← install builtin.callable

theorem installAll_cons
    (builtin : Builtin)
    (rest : List Builtin)
    (machine : Machine) :
    installAll (builtin :: rest) machine =
      (install builtin.callable >>= fun _ => installAll rest : Action Unit) machine := by
  have unfolded :
      installAll (builtin :: rest) =
        ((do let _ ← install builtin.callable : Action Unit) >>= fun _ => installAll rest) :=
    rfl
  rw [unfolded]
  simp only [Transition.bind_apply]
  rcases install builtin.callable machine with ⟨_ | _, _⟩ <;> rfl

/-- Installing builtin operations keeps a machine orderly and leaves the stack as it was. -/
theorem installAll_orderly
    {builtins : List Builtin}
    {after : Machine}
    (orderly : machine.Orderly IsBuiltin)
    (installed : installAll builtins machine = (.ok (), after)) :
    after.Orderly IsBuiltin ∧ after.stack.entries = machine.stack.entries := by
  induction builtins generalizing machine with
  | nil =>
      cases installed
      exact ⟨orderly, rfl⟩
  | cons builtin rest inductionHypothesis =>
      rw [installAll_cons, Transition.bind_apply] at installed
      rcases @install_cases IsBuiltin machine orderly builtin.callable ⟨builtin, rfl⟩ with
        ⟨failed, _⟩ | ⟨handle, placed, succeeded, isPlaced, sameEntries, placedOrderly, _⟩
      · rw [failed] at installed
        cases installed
      · rw [succeeded] at installed
        have bound := placedOrderly.binding builtin.name (Heap.isOccupied_of_get? isPlaced.found)
        obtain ⟨orderlyAfter, sameAfter⟩ := inductionHypothesis bound installed
        exact ⟨orderlyAfter, sameAfter.trans sameEntries⟩

/-- A machine has been created once every builtin operation has been installed. -/
theorem installAll_of_create
    {configuration : Configuration}
    (created : create configuration = .ok machine) :
    installAll Builtin.all
        (blank configuration.capacity configuration.initialThreshold
          configuration.eagerDefinitions) =
      (.ok (), machine) := by
  unfold create at created
  split at created
  · rename_i started
    cases created
    exact started
  · cases created

/-- A fresh machine is orderly. -/
theorem create_orderly
    {configuration : Configuration}
    (capacityBound : configuration.capacity ≤ Handle.bound)
    (created : create configuration = .ok machine) :
    machine.Orderly IsBuiltin :=
  (installAll_orderly (blank_orderly capacityBound _ _) (installAll_of_create created)).1

/-- Nothing lies on the stack of a fresh machine. -/
theorem entries_create
    {configuration : Configuration}
    (capacityBound : configuration.capacity ≤ Handle.bound)
    (created : create configuration = .ok machine) :
    machine.stack.entries = [] :=
  (installAll_orderly (blank_orderly capacityBound _ _) (installAll_of_create created)).2

end Machine

end ArenaLisp
