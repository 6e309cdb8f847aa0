import ArenaLisp.Proofs.Lists.Shape

namespace ArenaLisp

/-!
# Expressions as trees of handles

An expression whose cars and cdrs never lead back is a tree in which every node is a
handle; what several pairs share occurs several times.  The tree is read off the heap
when the evaluation starts.  It stays in place as long as what is reached stays.
-/

/-- A tree of handles: those of pairs have two parts, all others are leaves. -/
inductive Expansion where
  | leaf (handle : Handle)
  | pair (handle : Handle) (car cdr : Expansion)
  deriving Repr, DecidableEq

namespace Expansion

/-- The handle that is unfolded. -/
def root : Expansion → Handle
  | .leaf handle | .pair handle _ _ => handle

/-- The number of nodes on the longest way down. -/
def height : Expansion → Nat
  | .leaf _ => 1
  | .pair _ car cdr => max car.height cdr.height + 1

/-- All nodes, each one before those below it and a car before its cdr. -/
def nodes : Expansion → List Handle
  | .leaf handle => [handle]
  | .pair handle car cdr => handle :: (car.nodes ++ cdr.nodes)

/-- The cars along a chain of cdrs. -/
def items : Expansion → List Expansion
  | .leaf _ => []
  | .pair _ car cdr => car :: cdr.items

theorem height_positive (expansion : Expansion) : 0 < expansion.height := by
  cases expansion <;> simp [height]

/-- An item lies below the chain that it is an item of. -/
theorem height_lt_of_mem_items
    {chain item : Expansion}
    (member : item ∈ chain.items) :
    item.height < chain.height := by
  induction chain with
  | leaf handle =>
      simp [items] at member
  | pair handle car cdr _ inductionHypothesis =>
      simp only [items, List.mem_cons] at member
      simp only [height]
      rcases member with rfl | later
      · omega
      · have lower := inductionHypothesis later
        omega

/-- The nodes of the items are nodes of the chain, in the same order. -/
theorem nodes_items (chain : Expansion) : (chain.items.flatMap nodes).Sublist chain.nodes := by
  induction chain with
  | leaf handle =>
      exact List.nil_sublist _
  | pair handle car cdr _ inductionHypothesis =>
      rw [items, List.flatMap_cons, nodes]
      exact (inductionHypothesis.append_left car.nodes).cons handle

/-- Whether every node is what a heap has under its handle. -/
def LiesIn (heap : Heap) : Expansion → Prop
  | .leaf handle => ∃ object, heap.get? handle = some object ∧ object.children? = none
  | .pair handle car cdr =>
      heap.get? handle = some (.pair car.root cdr.root) ∧ car.LiesIn heap ∧ cdr.LiesIn heap

variable {heap : Heap} {expansion : Expansion}

theorem LiesIn.exists_object
    (lies : expansion.LiesIn heap) :
    ∃ object, heap.get? expansion.root = some object := by
  cases expansion with
  | leaf handle =>
      obtain ⟨object, found, _⟩ := lies
      exact ⟨object, found⟩
  | pair handle car cdr =>
      exact ⟨_, lies.1⟩

theorem LiesIn.isOccupied
    (lies : expansion.LiesIn heap) :
    heap.isOccupied expansion.root = true :=
  Heap.isOccupied_iff.mpr lies.exists_object

/-- An expression stays in place as long as what is reached stays. -/
theorem LiesIn.of_keeps
    {roots : List Handle}
    {after : Heap}
    (lies : expansion.LiesIn heap)
    (keeps : Heap.Keeps roots heap after)
    (reached : heap.Reaches roots expansion.root) :
    expansion.LiesIn after := by
  induction expansion with
  | leaf handle =>
      obtain ⟨object, found, noPair⟩ := lies
      exact ⟨object, (keeps _ reached).trans found, noPair⟩
  | pair handle car cdr onCar onCdr =>
      obtain ⟨found, carLies, cdrLies⟩ := lies
      have carReached := reached.step found (by simp [Object.handles]) carLies.isOccupied
      have cdrReached := reached.step found (by simp [Object.handles]) cdrLies.isOccupied
      exact ⟨(keeps _ reached).trans found, onCar carLies carReached, onCdr cdrLies cdrReached⟩

/-- A handle is unfolded to one expansion only. -/
theorem LiesIn.unique
    {other : Expansion}
    (lies : expansion.LiesIn heap)
    (otherLies : other.LiesIn heap)
    (sameRoot : expansion.root = other.root) :
    expansion = other := by
  induction expansion generalizing other with
  | leaf handle =>
      obtain ⟨object, found, noPair⟩ := lies
      cases other with
      | leaf otherHandle =>
          exact congrArg Expansion.leaf sameRoot
      | pair otherHandle car cdr =>
          obtain rfl : handle = otherHandle := sameRoot
          cases found.symm.trans otherLies.1
          cases noPair
  | pair handle car cdr onCar onCdr =>
      obtain ⟨found, carLies, cdrLies⟩ := lies
      cases other with
      | leaf otherHandle =>
          obtain rfl : handle = otherHandle := sameRoot
          obtain ⟨object, otherFound, noPair⟩ := otherLies
          cases found.symm.trans otherFound
          cases noPair
      | pair otherHandle otherCar otherCdr =>
          obtain rfl : handle = otherHandle := sameRoot
          obtain ⟨otherFound, otherCarLies, otherCdrLies⟩ := otherLies
          have sameParts := found.symm.trans otherFound
          simp only [Option.some.injEq, Object.pair.injEq] at sameParts
          rw [onCar carLies otherCarLies sameParts.1, onCdr cdrLies otherCdrLies sameParts.2]

theorem LiesIn.item
    {chain item : Expansion}
    (lies : chain.LiesIn heap)
    (member : item ∈ chain.items) :
    item.LiesIn heap := by
  induction chain with
  | leaf handle =>
      simp [items] at member
  | pair handle car cdr _ inductionHypothesis =>
      obtain ⟨_, carLies, cdrLies⟩ := lies
      rcases List.mem_cons.mp member with rfl | later
      · exact carLies
      · exact inductionHypothesis cdrLies later

/-- What the root refers to is unfolded below it. -/
theorem LiesIn.refers
    {child : Handle}
    (lies : expansion.LiesIn heap)
    (refers : heap.Refers expansion.root child) :
    ∃ part : Expansion,
      part.root = child ∧ part.LiesIn heap ∧ part.height < expansion.height := by
  obtain ⟨object, found, held⟩ := refers
  cases expansion with
  | leaf handle =>
      obtain ⟨leaf, leafFound, noPair⟩ := lies
      cases found.symm.trans leafFound
      cases object <;> simp_all [Object.handles, Object.children?]
  | pair handle car cdr =>
      obtain ⟨pairFound, carLies, cdrLies⟩ := lies
      cases found.symm.trans pairFound
      simp only [Object.handles, List.mem_cons, List.not_mem_nil, or_false] at held
      simp only [height]
      rcases held with rfl | rfl
      · exact ⟨car, rfl, carLies, by omega⟩
      · exact ⟨cdr, rfl, cdrLies, by omega⟩

/-- What a way down from the root comes to is unfolded below it. -/
theorem LiesIn.below
    {handle : Handle}
    (lies : expansion.LiesIn heap)
    (leads : Relation.TransGen heap.Refers expansion.root handle) :
    ∃ part : Expansion,
      part.root = handle ∧ part.LiesIn heap ∧ part.height < expansion.height := by
  induction leads with
  | single refers =>
      exact lies.refers refers
  | tail _ refers inductionHypothesis =>
      obtain ⟨between, rfl, betweenLies, betweenLower⟩ := inductionHypothesis
      obtain ⟨part, isPart, partLies, partLower⟩ := betweenLies.refers refers
      exact ⟨part, isPart, partLies, partLower.trans betweenLower⟩

end Expansion

namespace Heap

variable {heap : Heap}

/-- Whether no way down from a handle ever leads back to where it has been. -/
def Acyclic (heap : Heap) (handle : Handle) : Prop :=
  ∀ below,
    Relation.ReflTransGen heap.Refers handle below →
    ¬Relation.TransGen heap.Refers below below

/-- From an acyclic handle every way down comes to an end. -/
theorem Acyclic.wellFounded
    {root : Handle}
    (acyclic : heap.Acyclic root) :
    WellFounded fun child parent =>
      Relation.ReflTransGen heap.Refers root parent ∧ heap.Refers parent child := by
  refine wellFounded_of_acyclic fun handle cycle => ?_
  have refers : Relation.TransGen heap.Refers handle handle :=
    Relation.TransGen.mono (fun _ _ step => step.2) _ _ cycle
  obtain ⟨_, step, _⟩ := Relation.TransGen.head'_iff.mp cycle
  exact acyclic handle step.1 refers

/-- An acyclic expression on a heap without dangling handles is a tree. -/
theorem Acyclic.exists_expansion
    {root : Handle}
    (acyclic : heap.Acyclic root)
    (closed : heap.Closed)
    (occupied : heap.isOccupied root = true) :
    ∃ expansion : Expansion, expansion.root = root ∧ expansion.LiesIn heap := by
  have below
      (handle : Handle)
      (reached : Relation.ReflTransGen heap.Refers root handle)
      (occupied : heap.isOccupied handle = true) :
      ∃ expansion : Expansion, expansion.root = handle ∧ expansion.LiesIn heap := by
    induction handle using acyclic.wellFounded.induction with
    | _ handle inductionHypothesis =>
        obtain ⟨object, found⟩ := isOccupied_iff.mp occupied
        cases parts : object.children? with
        | none =>
            exact ⟨.leaf handle, rfl, object, found, parts⟩
        | some children =>
            obtain ⟨car, cdr⟩ := children
            obtain rfl := Object.children?_eq_some_iff.mp parts
            have expands
                {child : Handle}
                (held : child ∈ (Object.pair car cdr).handles) :
                ∃ expansion : Expansion, expansion.root = child ∧ expansion.LiesIn heap := by
              have refers : heap.Refers handle child := ⟨_, found, held⟩
              exact inductionHypothesis child ⟨reached, refers⟩ (reached.tail refers)
                (closed handle _ child found held)
            obtain ⟨carExpansion, rfl, carLies⟩ := expands List.mem_cons_self
            obtain ⟨cdrExpansion, rfl, cdrLies⟩ :=
              expands (List.mem_cons_of_mem _ List.mem_cons_self)
            exact ⟨.pair handle carExpansion cdrExpansion, rfl, found, carLies, cdrLies⟩
  exact below root .refl occupied

/-- What is unfolded to a tree is acyclic: every way down comes to lower trees. -/
theorem acyclic_of_liesIn
    {expansion : Expansion}
    (lies : expansion.LiesIn heap) :
    heap.Acyclic expansion.root := by
  intro below reached cycle
  obtain ⟨part, rfl, partLies, _⟩ := lies.below (.trans_right reached cycle)
  obtain ⟨again, sameRoot, againLies, lower⟩ := partLies.below cycle
  rw [againLies.unique partLies sameRoot] at lower
  exact lt_irrefl _ lower

end Heap

end ArenaLisp
