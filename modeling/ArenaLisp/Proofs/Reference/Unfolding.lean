import ArenaLisp.Proofs.Reachability
import ArenaLisp.Proofs.Reference.Interpreter
import Mathlib.Data.Fintype.Card

namespace ArenaLisp

/-!
# Unfolding handles into trees

A handle unfolds into a tree if following the handles of pairs from it ends
everywhere.  The tree is determined by what the handle reaches, and it is no higher
than the heap has slots, because no path in it meets a slot twice.
-/

namespace Heap

/-- Following the handles of pairs from a handle gives a tree. -/
inductive Unfolds (heap : Heap) : Handle → Tree → Prop where
  | leaf
      {handle : Handle}
      {object : Object}
      {tree : Tree}
      (found : heap.get? handle = some object)
      (stored : tree.leafObject? = some object) :
      Unfolds heap handle tree
  | pair
      {handle carHandle cdrHandle : Handle}
      {car cdr : Tree}
      (found : heap.get? handle = some (.pair carHandle cdrHandle))
      (carUnfolds : Unfolds heap carHandle car)
      (cdrUnfolds : Unfolds heap cdrHandle cdr) :
      Unfolds heap handle (.pair car cdr)

namespace Unfolds

variable
  {heap : Heap}
  {handle : Handle}
  {object : Object}
  {tree : Tree}

theorem exists_object
    (unfolds : heap.Unfolds handle tree) :
    ∃ object, heap.get? handle = some object := by
  cases unfolds with
  | leaf found _ =>
      exact ⟨_, found⟩
  | pair found _ _ =>
      exact ⟨_, found⟩

/-- What is found under a handle decides the outermost shape of its tree. -/
theorem cases_found
    (unfolds : heap.Unfolds handle tree)
    (found : heap.get? handle = some object) :
    tree.leafObject? = some object ∨
      ∃ carHandle cdrHandle car cdr,
        object = .pair carHandle cdrHandle ∧
          tree = .pair car cdr ∧
          heap.Unfolds carHandle car ∧
          heap.Unfolds cdrHandle cdr := by
  cases unfolds with
  | leaf foundLeaf stored =>
      rw [found, Option.some.injEq] at foundLeaf
      exact .inl (foundLeaf ▸ stored)
  | pair foundPair carUnfolds cdrUnfolds =>
      rw [found, Option.some.injEq] at foundPair
      exact .inr ⟨_, _, _, _, foundPair, rfl, carUnfolds, cdrUnfolds⟩

theorem of_pair
    {carHandle cdrHandle : Handle}
    (unfolds : heap.Unfolds handle tree)
    (found : heap.get? handle = some (.pair carHandle cdrHandle)) :
    ∃ car cdr,
      tree = .pair car cdr ∧ heap.Unfolds carHandle car ∧ heap.Unfolds cdrHandle cdr := by
  rcases unfolds.cases_found found with stored | ⟨_, _, car, cdr, same, rfl, onCar, onCdr⟩
  · exact absurd stored (Tree.leafObject?_ne_pair tree)
  · obtain ⟨rfl, rfl⟩ := Object.pair.inj same
    exact ⟨car, cdr, rfl, onCar, onCdr⟩

/-- A handle unfolds into one tree at most. -/
theorem unique
    {other : Tree}
    (unfolds : heap.Unfolds handle tree)
    (otherUnfolds : heap.Unfolds handle other) :
    tree = other := by
  induction unfolds generalizing other with
  | leaf found stored =>
      rcases otherUnfolds.cases_found found with otherStored | ⟨_, _, _, _, rfl, _⟩
      · exact Tree.leafObject?_injective stored otherStored
      · exact absurd stored (Tree.leafObject?_ne_pair _)
  | pair found _ _ onCar onCdr =>
      obtain ⟨car, cdr, rfl, carUnfolds, cdrUnfolds⟩ := otherUnfolds.of_pair found
      rw [onCar carUnfolds, onCdr cdrUnfolds]

/-- A tree that is reached stays the same as long as what is reached stays. -/
theorem of_keeps
    {roots : List Handle}
    {after : Heap}
    (unfolds : heap.Unfolds handle tree)
    (keeps : Heap.Keeps roots heap after)
    (reached : heap.Reaches roots handle) :
    after.Unfolds handle tree := by
  induction unfolds with
  | leaf found stored =>
      exact .leaf ((keeps _ reached).trans found) stored
  | pair found carUnfolds cdrUnfolds onCar onCdr =>
      obtain ⟨carObject, carFound⟩ := carUnfolds.exists_object
      obtain ⟨cdrObject, cdrFound⟩ := cdrUnfolds.exists_object
      exact .pair ((keeps _ reached).trans found)
        (onCar (.step reached found (by simp [Object.handles]) (isOccupied_of_get? carFound)))
        (onCdr (.step reached found (by simp [Object.handles]) (isOccupied_of_get? cdrFound)))

theorem all_of_keeps
    {roots handles : List Handle}
    {trees : List Tree}
    {after : Heap}
    (allUnfold : List.Forall₂ heap.Unfolds handles trees)
    (keeps : Heap.Keeps roots heap after)
    (areRoots : ∀ handle ∈ handles, handle ∈ roots) :
    List.Forall₂ after.Unfolds handles trees := by
  induction allUnfold with
  | nil =>
      exact .nil
  | cons first _ inductionHypothesis =>
      obtain ⟨object, found⟩ := first.exists_object
      have reached := Reaches.root (areRoots _ List.mem_cons_self) (isOccupied_of_get? found)
      exact .cons (first.of_keeps keeps reached)
        (inductionHypothesis fun handle member => areRoots handle (List.mem_cons_of_mem _ member))

/-- Below a tree there are trees of every smaller height. -/
theorem exists_of_le_height
    {height : Nat}
    (unfolds : heap.Unfolds handle tree)
    (low : height ≤ tree.height) :
    ∃ below subtree, heap.Unfolds below subtree ∧ subtree.height = height := by
  induction unfolds with
  | @leaf handle object tree found stored =>
      refine ⟨handle, tree, .leaf found stored, ?_⟩
      have flat := Tree.height_of_leafObject? stored
      omega
  | @pair handle carHandle cdrHandle car cdr found carUnfolds cdrUnfolds onCar onCdr =>
      by_cases whole : height = (Tree.pair car cdr).height
      · exact ⟨handle, .pair car cdr, .pair found carUnfolds cdrUnfolds, whole.symm⟩
      · simp only [Tree.height] at low whole
        by_cases inCar : height ≤ car.height
        · exact onCar inCar
        · exact onCdr (by omega)

theorem height_lt_capacity
    (unfolds : heap.Unfolds handle tree) :
    tree.height < heap.capacity := by
  have choice
      (height : Fin (tree.height + 1)) :
      ∃ below subtree, heap.Unfolds below subtree ∧ subtree.height = height.val :=
    unfolds.exists_of_le_height (Nat.le_of_lt_succ height.isLt)
  choose below subtree subtreeUnfolds subtreeHeight using choice
  have inside
      (height : Fin (tree.height + 1)) :
      (below height).index < heap.capacity := by
    obtain ⟨object, found⟩ := (subtreeUnfolds height).exists_object
    exact index_lt_capacity_of_get? found
  -- Trees of different heights are different, so they unfold from different handles.
  have injective :
      Function.Injective fun height : Fin (tree.height + 1) =>
        (⟨(below height).index, inside height⟩ : Fin heap.capacity) := by
    intro first second sameIndex
    have sameHandle : below first = below second :=
      Handle.eq_of_index_eq (congrArg (fun slot : Fin heap.capacity => slot.val) sameIndex)
    have secondUnfolds := subtreeUnfolds second
    rw [← sameHandle] at secondUnfolds
    have sameTree := (subtreeUnfolds first).unique secondUnfolds
    refine Fin.ext ?_
    rw [← subtreeHeight first, ← subtreeHeight second, sameTree]
  have atMost := Fintype.card_le_of_injective _ injective
  rw [Fintype.card_fin, Fintype.card_fin] at atMost
  exact atMost

theorem views_related
    (unfolds : heap.Unfolds handle tree)
    (found : heap.get? handle = some object) :
    View.Related heap.Unfolds object.view tree.view := by
  rcases unfolds.cases_found found with stored | ⟨_, _, car, cdr, rfl, rfl, onCar, onCdr⟩
  · cases tree with
    | integer value =>
        cases stored
        exact .integer value
    | pair car cdr =>
        simp [Tree.leafObject?] at stored
    | builtin operation =>
        cases stored
        cases operation <;> exact .other _
    | nil | void | boolean | symbol =>
        cases stored
        exact .other _
  · exact .pair onCar onCdr

/-- An object and the leaf that it is stored for have the same name, truth and list end. -/
theorem leaf_questions
    (stored : tree.leafObject? = some object) :
    object.symbolName = tree.symbolName ∧
      object.isTruthy = tree.isTruthy ∧
      object.isListEnd = tree.isProper ∧
      Reference.operands tree = [] := by
  cases tree with
  | pair car cdr =>
      simp [Tree.leafObject?] at stored
  | boolean value =>
      cases stored
      cases value <;> exact ⟨rfl, rfl, rfl, rfl⟩
  | builtin operation =>
      cases stored
      cases operation <;> exact ⟨rfl, rfl, rfl, rfl⟩
  | nil | void | integer | symbol =>
      cases stored
      exact ⟨rfl, rfl, rfl, rfl⟩

theorem symbolName_eq
    (unfolds : heap.Unfolds handle tree)
    (found : heap.get? handle = some object) :
    object.symbolName = tree.symbolName := by
  rcases unfolds.cases_found found with stored | ⟨_, _, car, cdr, rfl, rfl, _, _⟩
  · exact (leaf_questions stored).1
  · rfl

theorem isTruthy_eq
    (unfolds : heap.Unfolds handle tree)
    (found : heap.get? handle = some object) :
    object.isTruthy = tree.isTruthy := by
  rcases unfolds.cases_found found with stored | ⟨_, _, car, cdr, rfl, rfl, _, _⟩
  · exact (leaf_questions stored).2.1
  · rfl

/-- A chain that goes on with no pair ends with its tree. -/
theorem isListEnd_eq
    (unfolds : heap.Unfolds handle tree)
    (found : heap.get? handle = some object)
    (noPair : object.children? = none) :
    object.isListEnd = tree.isProper ∧ Reference.operands tree = [] := by
  rcases unfolds.cases_found found with stored | ⟨_, _, car, cdr, rfl, rfl, _, _⟩
  · exact (leaf_questions stored).2.2
  · simp [Object.children?] at noPair

/-- The callable objects are the ones whose trees are builtin operations. -/
theorem callable_cases
    (unfolds : heap.Unfolds handle tree)
    (found : heap.get? handle = some object) :
    (object.callable? = none ∧ ∀ operation, tree ≠ .builtin operation) ∨
      ∃ operation, tree = .builtin operation ∧ object.callable? = some operation.callable := by
  rcases unfolds.cases_found found with stored | ⟨_, _, car, cdr, rfl, rfl, _, _⟩
  · cases tree with
    | pair car cdr =>
        simp [Tree.leafObject?] at stored
    | builtin operation =>
        cases stored
        exact .inr ⟨operation, rfl, Object.callable?_toObject operation.callable⟩
    | nil | void | integer | boolean | symbol =>
        cases stored
        exact .inl ⟨rfl, by simp⟩
  · exact .inl ⟨rfl, by simp⟩

theorem renderWithin_eq
    (levels : Nat)
    (unfolds : heap.Unfolds handle tree) :
    heap.renderWithin levels handle = tree.renderWithin levels := by
  induction levels generalizing handle tree with
  | zero =>
      rfl
  | succ levels inductionHypothesis =>
      cases unfolds with
      | leaf found stored =>
          cases tree with
          | pair car cdr =>
              simp [Tree.leafObject?] at stored
          | boolean value =>
              cases stored
              cases value <;> simp [renderWithin, found, leafText, Tree.renderWithin]
          | builtin operation =>
              cases stored
              cases operation <;>
                simp [renderWithin, found, leafText, Tree.renderWithin, Builtin.callable,
                  Callable.toObject, Builtin.evaluatesOperands]
          | nil | void | integer | symbol =>
              cases stored
              simp [renderWithin, found, leafText, Tree.renderWithin]
      | pair found carUnfolds cdrUnfolds =>
          simp only [renderWithin, found, inductionHypothesis carUnfolds,
            inductionHypothesis cdrUnfolds, Tree.renderWithin]

/-- A handle and its tree have the same text. -/
theorem render_eq
    (unfolds : heap.Unfolds handle tree) :
    heap.render handle = tree.render :=
  unfolds.renderWithin_eq (renderingDepth + 1)

end Unfolds

end Heap

end ArenaLisp
