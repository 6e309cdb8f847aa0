import ArenaLisp.Proofs.Discipline
import ArenaLisp.Proofs.Reference.Unfolding

namespace ArenaLisp

/-!
# What a machine stands for

A machine represents a world if its bindings unfold into the bindings of the world
and its diagnostics are the newest ones of the world.  An answer of the machine
refines an answer of the reference if memory has run out, or if the two match and
the machine represents the world that the reference ends in.
-/

namespace Machine

/-- As many of the newest errors as a machine keeps. -/
def recent (errors : List Error) : List Error :=
  errors.drop (errors.length - maxDiagnostics)

theorem remember_recent
    (errors : List Error)
    (error : Error) :
    remember (recent errors) error = recent (errors ++ [error]) := by
  have kept : (recent errors).length = errors.length - (errors.length - maxDiagnostics) :=
    List.length_drop
  have one : (errors ++ [error]).length = errors.length + 1 := by
    simp
  by_cases full : (recent errors).length = maxDiagnostics
  · have oneMore :
        (errors ++ [error]).length - maxDiagnostics = errors.length - maxDiagnostics + 1 := by
      omega
    have inside : errors.length - maxDiagnostics + 1 ≤ errors.length := by
      simp only [maxDiagnostics] at full kept ⊢
      omega
    rw [remember, if_pos full, recent, recent, oneMore, List.drop_drop,
      List.drop_append_of_le_length inside]
  · have none : (errors ++ [error]).length - maxDiagnostics = 0 := by
      omega
    have noneBefore : errors.length - maxDiagnostics = 0 := by
      omega
    rw [remember, if_neg full, recent, recent, none, noneBefore, List.drop_zero, List.drop_zero]

/-- A machine with a given number of slots stands for a world. -/
structure Represents (capacity : Nat) (machine : Machine) (world : World) : Prop where
  capacity : machine.heap.capacity = capacity
  bindings :
    ∀ name,
      Option.Rel machine.heap.Unfolds (machine.environment.get? name) (world.bindings name)
  diagnostics : machine.diagnostics = recent world.diagnostics
  eagerDefinitions : machine.eagerDefinitions = world.eagerDefinitions

/-- The same error, or a value and its tree. -/
inductive Matches (heap : Heap) : Except Error Handle → Except Error Tree → Prop where
  | value
      {handle : Handle}
      {tree : Tree}
      (unfolds : heap.Unfolds handle tree) :
      Matches heap (.ok handle) (.ok tree)
  | error
      {error : Error}
      (recoverable : error.isFatal = false) :
      Matches heap (.error error) (.error error)

/-- An answer of the machine against an answer of the reference. -/
def Refines
    (capacity : Nat)
    (reference : Except Error Tree × World)
    (result : Except Error Handle)
    (after : Machine) :
    Prop :=
  result = .error .outOfMemory ∨
    Matches after.heap result reference.1 ∧ Represents capacity after reference.2

/-- A value of the machine against a value of the reference. -/
def RefinesValue
    (capacity : Nat)
    (reference : Tree × World)
    (result : Except Error Handle)
    (after : Machine) :
    Prop :=
  Refines capacity (.ok reference.1, reference.2) result after

variable
  {capacity : Nat}
  {machine : Machine}
  {world : World}

namespace Represents

theorem unfolds_binding
    (represents : Represents capacity machine world)
    {name : String}
    {value : Handle}
    (bound : machine.environment.get? name = some value) :
    ∃ tree, world.bindings name = some tree ∧ machine.heap.Unfolds value tree := by
  have related := represents.bindings name
  rw [bound] at related
  generalize isTree : world.bindings name = binding at related
  cases related with
  | some unfolds =>
      exact ⟨_, rfl, unfolds⟩

/-- Steps that leave alone what surrounds the stack keep what a machine stands for. -/
theorem of_sameSurroundings
    (represents : Represents capacity machine world)
    (wellFormed : machine.WellFormed)
    {after : Machine}
    (same : SameSurroundings machine after) :
    Represents capacity after world where
  capacity := same.capacity.trans represents.capacity
  bindings := by
    intro name
    rw [same.environment]
    cases bound : machine.environment.get? name with
    | none =>
        have related := represents.bindings name
        rw [bound] at related
        generalize world.bindings name = binding at related ⊢
        cases related
        exact .none
    | some value =>
        obtain ⟨tree, isTree, unfolds⟩ := represents.unfolds_binding bound
        have member := Environment.mem_values_of_get? bound
        have reached := Heap.Reaches.root member (wellFormed.bindingsOccupied value member)
        rw [isTree]
        exact .some (unfolds.of_keeps same.keepsBound reached)
  diagnostics := same.diagnostics.trans represents.diagnostics
  eagerDefinitions := same.eagerDefinitions.trans represents.eagerDefinitions

/-- What a machine stands for has nothing to do with its stack. -/
theorem withEntries
    (represents : Represents capacity machine world)
    (entries : List Handle) :
    Represents capacity (machine.withEntries entries) world :=
  ⟨represents.capacity, represents.bindings, represents.diagnostics, represents.eagerDefinitions⟩

theorem binding
    (represents : Represents capacity machine world)
    (name : String)
    {value : Handle}
    {tree : Tree}
    (unfolds : machine.heap.Unfolds value tree) :
    Represents capacity (machine.binding name value) (world.define name tree) where
  capacity := represents.capacity
  bindings := by
    intro other
    have bound :
        (machine.binding name value).environment.get? other =
          if other = name then some value else machine.environment.get? other :=
      Environment.get?_define machine.environment name other value
    rw [bound, World.define]
    by_cases same : other = name
    · simp only [same, ↓reduceIte]
      exact .some unfolds
    · simp only [same, ↓reduceIte]
      exact represents.bindings other
  diagnostics := represents.diagnostics
  eagerDefinitions := represents.eagerDefinitions

theorem remembering
    (represents : Represents capacity machine world)
    (error : Error) :
    Represents capacity (machine.remembering error) (world.recover error).2 where
  capacity := represents.capacity
  bindings := represents.bindings
  diagnostics := by
    rw [World.recover, ← remember_recent, ← represents.diagnostics]
    rfl
  eagerDefinitions := represents.eagerDefinitions

end Represents

theorem RefinesValue.unfolds
    {reference : Tree × World}
    {value : Handle}
    {after : Machine}
    (refines : RefinesValue capacity reference (.ok value) after) :
    after.heap.Unfolds value reference.1 ∧ Represents capacity after reference.2 := by
  rcases refines with failed | ⟨isMatch, represents⟩
  · cases failed
  · cases isMatch with
    | value unfolds =>
        exact ⟨unfolds, represents⟩

/-- The reference never fails to give a value. -/
theorem RefinesValue.outOfMemory
    {reference : Tree × World}
    {error : Error}
    {after : Machine}
    (refines : RefinesValue capacity reference (.error error) after) :
    error = .outOfMemory := by
  rcases refines with failed | ⟨isMatch, _⟩
  · cases failed
    rfl
  · cases isMatch

variable {operations : Operation → Prop}

/-- The allocation of a leaf refines the tree that it stands for. -/
theorem allocate_refines
    (wellFormed : machine.WellFormed)
    (represents : Represents capacity machine world)
    {tree : Tree}
    {object : Object}
    (stored : tree.leafObject? = some object) :
    RefinesValue capacity (tree, world)
      (allocate object machine).1 (allocate object machine).2 := by
  rcases allocate_cases wellFormed.consistent object with
    ⟨failed, _⟩ | ⟨handle, after, succeeded, placed, _, _⟩
  · rw [failed]
    exact .inl rfl
  · rw [succeeded]
    refine .inr ⟨.value (.leaf placed.found stored), ?_⟩
    exact represents.of_sameSurroundings wellFormed
      (placed.sameSurroundings wellFormed.consistent.toCounted)

theorem recover_refines
    (orderly : machine.Orderly operations)
    (represents : Represents capacity machine world)
    {error : Error}
    (recoverable : error.isFatal = false) :
    RefinesValue capacity (world.recover error)
      (recover error machine).1 (recover error machine).2 := by
  rw [recover_recoverable recoverable]
  exact allocate_refines (orderly.remembering error).toWellFormed
    (represents.remembering error) rfl

end Machine

end ArenaLisp
