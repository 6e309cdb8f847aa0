import ArenaLisp.Heap.Rendering
import ArenaLisp.Proofs.Discipline
import ArenaLisp.Proofs.StrictAnswers
import Mathlib.Data.Fintype.EquivFin

namespace ArenaLisp

/-!
# Mirrored machines

Two machines mirror each other if they hold the same objects in different slots.  A
relation between handles says which slot corresponds to which: it relates the roots
of the same name or place, it follows the handles of pairs, and it never relates a
handle to two others.

Whether memory runs out depends on the number of reachable slots alone, so of two
mirrored machines the smaller one runs out first.
-/

/-- Two objects that differ in nothing but the handles of pairs. -/
inductive Object.Alike (twin : Handle → Handle → Prop) : Object → Object → Prop where
  | leaf
      {object : Object}
      (noHandles : object.handles = []) :
      Alike twin object object
  | pair
      {firstCar firstCdr secondCar secondCdr : Handle}
      (cars : twin firstCar secondCar)
      (cdrs : twin firstCdr secondCdr) :
      Alike twin (.pair firstCar firstCdr) (.pair secondCar secondCdr)

namespace Object.Alike

variable
  {twin : Handle → Handle → Prop}
  {first second : Object}

/-- What does not depend on the parts of a pair is the same for objects that are alike. -/
theorem same
    (alike : Alike twin first second)
    {Property : Type}
    (property : Object → Property)
    (blind :
      ∀ firstCar firstCdr secondCar secondCdr,
        property (.pair firstCar firstCdr) = property (.pair secondCar secondCdr)) :
    property first = property second := by
  cases alike with
  | leaf _ =>
      rfl
  | pair _ _ =>
      exact blind _ _ _ _

theorem view_related
    (alike : Alike twin first second) :
    View.Related twin first.view second.view := by
  cases alike with
  | leaf noHandles =>
      cases first with
      | pair car cdr =>
          simp [Object.handles] at noHandles
      | integer value =>
          exact .integer value
      | nil | void | boolean | symbol | function | specialForm =>
          exact .other _
  | pair cars cdrs =>
      exact .pair cars cdrs

theorem trans
    {laterTwin : Handle → Handle → Prop}
    {third : Object}
    (alike : Alike twin first second)
    (later : Alike laterTwin second third) :
    Alike (Relation.Comp twin laterTwin) first third := by
  cases alike with
  | leaf noHandles =>
      cases later with
      | leaf _ =>
          exact .leaf noHandles
      | pair _ _ =>
          simp [Object.handles] at noHandles
  | pair cars cdrs =>
      cases later with
      | leaf noHandles =>
          simp [Object.handles] at noHandles
      | pair laterCars laterCdrs =>
          exact .pair ⟨_, cars, laterCars⟩ ⟨_, cdrs, laterCdrs⟩

end Object.Alike

namespace Machine

/--
Two machines that hold the same under corresponding handles.  The first one is not
larger, and as large as the second if sizes are to be exact.
-/
structure Mirrors
    (exact : Prop)
    (twin : Handle → Handle → Prop)
    (first second : Machine) :
    Prop where
  entries : List.Forall₂ twin first.stack.entries second.stack.entries
  bindings :
    ∀ name, Option.Rel twin (first.environment.get? name) (second.environment.get? name)
  objects :
    ∀ firstHandle secondHandle,
      twin firstHandle secondHandle →
      ∃ firstObject secondObject,
        first.heap.get? firstHandle = some firstObject ∧
          second.heap.get? secondHandle = some secondObject ∧
          Object.Alike twin firstObject secondObject
  oneToOne :
    ∀ firstHandle secondHandle firstOther secondOther,
      twin firstHandle secondHandle →
      twin firstOther secondOther →
      (firstHandle = firstOther ↔ secondHandle = secondOther)
  eagerDefinitions : first.eagerDefinitions = second.eagerDefinitions
  diagnostics : first.diagnostics = second.diagnostics
  notLarger : first.heap.capacity ≤ second.heap.capacity
  sameSize : exact → first.heap.capacity = second.heap.capacity

/-- Related lists relate every element of the second to one of the first. -/
theorem exists_mem_of_forall₂
    {twin : Handle → Handle → Prop}
    {firstHandles secondHandles : List Handle}
    (related : List.Forall₂ twin firstHandles secondHandles)
    {secondHandle : Handle}
    (member : secondHandle ∈ secondHandles) :
    ∃ firstHandle ∈ firstHandles, twin firstHandle secondHandle := by
  induction related with
  | nil =>
      cases member
  | cons twins _ inductionHypothesis =>
      rcases List.mem_cons.mp member with rfl | later
      · exact ⟨_, List.mem_cons_self, twins⟩
      · obtain ⟨firstHandle, firstLater, laterTwins⟩ := inductionHypothesis later
        exact ⟨firstHandle, List.mem_cons_of_mem _ firstLater, laterTwins⟩

/-- Lists that are related to the same list one after the other are related in one step. -/
theorem forall₂_comp
    {twin laterTwin : Handle → Handle → Prop}
    {first second third : List Handle}
    (related : List.Forall₂ twin first second)
    (later : List.Forall₂ laterTwin second third) :
    List.Forall₂ (Relation.Comp twin laterTwin) first third := by
  induction related generalizing third with
  | nil =>
      cases later
      exact .nil
  | cons twins _ inductionHypothesis =>
      cases later with
      | cons laterTwins rest =>
          exact .cons ⟨_, twins, laterTwins⟩ (inductionHypothesis rest)

variable
  {exact : Prop}
  {twin : Handle → Handle → Prop}
  {first second : Machine}

namespace Mirrors

theorem isOccupied
    (mirrors : Mirrors exact twin first second)
    {firstHandle secondHandle : Handle}
    (twins : twin firstHandle secondHandle) :
    first.heap.isOccupied firstHandle = true ∧ second.heap.isOccupied secondHandle = true := by
  obtain ⟨firstObject, secondObject, firstFound, secondFound, _⟩ :=
    mirrors.objects _ _ twins
  exact ⟨Heap.isOccupied_of_get? firstFound, Heap.isOccupied_of_get? secondFound⟩

/-- Machines of one size mirror each other both ways. -/
theorem symm
    (mirrors : Mirrors exact twin first second)
    (isExact : exact) :
    Mirrors exact (flip twin) second first where
  entries := (List.Forall₂.flip mirrors.entries)
  bindings := by
    intro name
    have related := mirrors.bindings name
    generalize first.environment.get? name = firstValue at related ⊢
    generalize second.environment.get? name = secondValue at related ⊢
    cases related with
    | some twins =>
        exact .some twins
    | none =>
        exact .none
  objects := by
    intro secondHandle firstHandle twins
    obtain ⟨firstObject, secondObject, firstFound, secondFound, alike⟩ :=
      mirrors.objects _ _ twins
    refine ⟨secondObject, firstObject, secondFound, firstFound, ?_⟩
    cases alike with
    | leaf noHandles =>
        exact .leaf noHandles
    | pair cars cdrs =>
        exact .pair cars cdrs
  oneToOne := by
    intro secondHandle firstHandle secondOther firstOther twins otherTwins
    exact (mirrors.oneToOne _ _ _ _ twins otherTwins).symm
  eagerDefinitions := mirrors.eagerDefinitions.symm
  diagnostics := mirrors.diagnostics.symm
  notLarger := Nat.le_of_eq (mirrors.sameSize isExact).symm
  sameSize := fun _ => (mirrors.sameSize isExact).symm

/-- What mirrors a machine that mirrors a third one mirrors the third. -/
theorem trans
    {third : Machine}
    {laterTwin : Handle → Handle → Prop}
    (mirrors : Mirrors exact twin first second)
    (later : Mirrors exact laterTwin second third) :
    Mirrors exact (Relation.Comp twin laterTwin) first third where
  entries := forall₂_comp mirrors.entries later.entries
  bindings := by
    intro name
    have related := mirrors.bindings name
    have laterRelated := later.bindings name
    generalize first.environment.get? name = firstValue at related ⊢
    generalize second.environment.get? name = secondValue at related laterRelated
    generalize third.environment.get? name = thirdValue at laterRelated ⊢
    cases related with
    | none =>
        cases laterRelated
        exact .none
    | some twins =>
        cases laterRelated with
        | some laterTwins =>
            exact .some ⟨_, twins, laterTwins⟩
  objects := by
    rintro firstHandle thirdHandle ⟨secondHandle, twins, laterTwins⟩
    obtain ⟨firstObject, secondObject, firstFound, secondFound, alike⟩ :=
      mirrors.objects _ _ twins
    obtain ⟨sameObject, thirdObject, sameFound, thirdFound, laterAlike⟩ :=
      later.objects _ _ laterTwins
    rw [secondFound, Option.some.injEq] at sameFound
    subst sameFound
    exact ⟨firstObject, thirdObject, firstFound, thirdFound, alike.trans laterAlike⟩
  oneToOne := by
    rintro firstHandle thirdHandle firstOther thirdOther ⟨secondHandle, twins, laterTwins⟩
      ⟨secondOther, otherTwins, otherLaterTwins⟩
    exact (mirrors.oneToOne _ _ _ _ twins otherTwins).trans
      (later.oneToOne _ _ _ _ laterTwins otherLaterTwins)
  eagerDefinitions := mirrors.eagerDefinitions.trans later.eagerDefinitions
  diagnostics := mirrors.diagnostics.trans later.diagnostics
  notLarger := mirrors.notLarger.trans later.notLarger
  sameSize := fun isExact => (mirrors.sameSize isExact).trans (later.sameSize isExact)

/-- Every root of the second machine is the twin of a root of the first. -/
theorem exists_root
    (mirrors : Mirrors exact twin first second)
    {secondHandle : Handle}
    (member : secondHandle ∈ second.roots) :
    ∃ firstHandle, twin firstHandle secondHandle ∧ firstHandle ∈ first.roots := by
  rcases mem_roots_iff.mp member with bound | entry
  · obtain ⟨name, found⟩ := Environment.mem_values_iff.mp bound
    have related := mirrors.bindings name
    rw [found] at related
    cases isTwin : first.environment.get? name with
    | none =>
        rw [isTwin] at related
        cases related
    | some firstHandle =>
        rw [isTwin] at related
        cases related with
        | some twins =>
            exact ⟨firstHandle, twins,
              mem_roots_iff.mpr (.inl (Environment.mem_values_of_get? isTwin))⟩
  · obtain ⟨firstHandle, onFirst, twins⟩ := exists_mem_of_forall₂ mirrors.entries entry
    exact ⟨firstHandle, twins, mem_roots_iff.mpr (.inr onFirst)⟩

/-- Every slot that the second machine reaches is the twin of one that the first reaches. -/
theorem exists_twin
    (mirrors : Mirrors exact twin first second)
    {secondHandle : Handle}
    (reached : second.Reachable secondHandle) :
    ∃ firstHandle, twin firstHandle secondHandle ∧ first.Reachable firstHandle := by
  induction reached with
  | root member occupied =>
      obtain ⟨firstHandle, twins, firstMember⟩ := mirrors.exists_root member
      exact ⟨firstHandle, twins, .root firstMember (mirrors.isOccupied twins).1⟩
  | step _ found held _ inductionHypothesis =>
      obtain ⟨firstParent, twins, firstReached⟩ := inductionHypothesis
      obtain ⟨firstObject, secondObject, firstFound, secondFound, alike⟩ :=
        mirrors.objects _ _ twins
      rw [found, Option.some.injEq] at secondFound
      subst secondFound
      cases alike with
      | leaf noHandles =>
          simp [noHandles] at held
      | pair cars cdrs =>
          simp only [Object.handles, List.mem_cons, List.not_mem_nil, or_false] at held
          rcases held with rfl | rfl
          · exact ⟨_, cars, .step firstReached firstFound (by simp [Object.handles])
              (mirrors.isOccupied cars).1⟩
          · exact ⟨_, cdrs, .step firstReached firstFound (by simp [Object.handles])
              (mirrors.isOccupied cdrs).1⟩

/-- If every slot of the second machine is reachable, so is every slot of the first. -/
theorem saturated
    (mirrors : Mirrors exact twin first second)
    (bounded : second.heap.capacity ≤ Handle.bound)
    (secondSaturated : second.Saturated) :
    first.Saturated := by
  have choice
      (slot : Fin second.heap.capacity) :
      ∃ firstHandle,
        twin firstHandle (Handle.ofIndex slot.val) ∧ first.Reachable firstHandle :=
    mirrors.exists_twin (secondSaturated slot.val slot.isLt)
  choose firstHandle twins reached using choice
  have inside
      (slot : Fin second.heap.capacity) :
      (firstHandle slot).index < first.heap.capacity := by
    obtain ⟨object, found⟩ := (reached slot).exists_object
    exact Heap.index_lt_capacity_of_get? found
  let place (slot : Fin second.heap.capacity) : Fin first.heap.capacity :=
    ⟨(firstHandle slot).index, inside slot⟩
  have injective : Function.Injective place := by
    intro slot other samePlace
    have sameFirst : firstHandle slot = firstHandle other :=
      Handle.eq_of_index_eq
        (congrArg (fun index : Fin first.heap.capacity => index.val) samePlace)
    have sameSecond :=
      (mirrors.oneToOne _ _ _ _ (twins slot) (twins other)).mp sameFirst
    refine Fin.ext ?_
    rw [← Handle.index_ofIndex (Nat.lt_of_lt_of_le slot.isLt bounded), sameSecond,
      Handle.index_ofIndex (Nat.lt_of_lt_of_le other.isLt bounded)]
  -- An injection into a set that is not larger meets all of it.
  have bijective : Function.Bijective place := by
    rw [Fintype.bijective_iff_injective_and_card, Fintype.card_fin, Fintype.card_fin]
    have atMost := Fintype.card_le_of_injective place injective
    rw [Fintype.card_fin, Fintype.card_fin] at atMost
    exact ⟨injective, Nat.le_antisymm atMost mirrors.notLarger⟩
  intro index indexInside
  obtain ⟨slot, isPlace⟩ := bijective.surjective ⟨index, indexInside⟩
  have isFirst : firstHandle slot = Handle.ofIndex index := by
    have sameIndex : (firstHandle slot).index = index := congrArg Fin.val isPlace
    rw [← sameIndex, Handle.ofIndex_index]
  exact isFirst ▸ reached slot

/-- The twins that both machines can still reach. -/
def reachableTwins
    (twin : Handle → Handle → Prop)
    (first second : Machine)
    (firstHandle secondHandle : Handle) :
    Prop :=
  twin firstHandle secondHandle ∧ first.Reachable firstHandle ∧ second.Reachable secondHandle

/-- The reachable twins, and the slots of a new object. -/
def twinsAfter
    (twin : Handle → Handle → Prop)
    (first second : Machine)
    (firstNew secondNew : Handle)
    (firstHandle secondHandle : Handle) :
    Prop :=
  reachableTwins twin first second firstHandle secondHandle ∨
    firstHandle = firstNew ∧ secondHandle = secondNew

/-- Twins among the roots are reachable. -/
theorem reachableTwins_of_roots
    (mirrors : Mirrors exact twin first second)
    {firstHandle secondHandle : Handle}
    (twins : twin firstHandle secondHandle)
    (firstMember : firstHandle ∈ first.roots)
    (secondMember : secondHandle ∈ second.roots) :
    reachableTwins twin first second firstHandle secondHandle :=
  have occupied := mirrors.isOccupied twins
  ⟨twins, .root firstMember occupied.1, .root secondMember occupied.2⟩

theorem entries_reachable
    (mirrors : Mirrors exact twin first second) :
    List.Forall₂ (reachableTwins twin first second) first.stack.entries second.stack.entries := by
  have restricted
      {firstHandles secondHandles : List Handle}
      (related : List.Forall₂ twin firstHandles secondHandles)
      (firstRoots : ∀ handle ∈ firstHandles, handle ∈ first.roots)
      (secondRoots : ∀ handle ∈ secondHandles, handle ∈ second.roots) :
      List.Forall₂ (reachableTwins twin first second) firstHandles secondHandles := by
    induction related with
    | nil =>
        exact .nil
    | cons twins _ inductionHypothesis =>
        refine .cons (mirrors.reachableTwins_of_roots twins (firstRoots _ List.mem_cons_self)
          (secondRoots _ List.mem_cons_self)) (inductionHypothesis ?_ ?_)
        · exact fun handle member => firstRoots handle (List.mem_cons_of_mem _ member)
        · exact fun handle member => secondRoots handle (List.mem_cons_of_mem _ member)
  exact restricted mirrors.entries
    (fun _ member => mem_roots_iff.mpr (.inr member))
    (fun _ member => mem_roots_iff.mpr (.inr member))

theorem bindings_reachable
    (mirrors : Mirrors exact twin first second)
    (name : String) :
    Option.Rel (reachableTwins twin first second)
      (first.environment.get? name) (second.environment.get? name) := by
  have related := mirrors.bindings name
  cases isFirst : first.environment.get? name with
  | none =>
      rw [isFirst] at related
      cases isSecond : second.environment.get? name with
      | none =>
          exact .none
      | some secondHandle =>
          rw [isSecond] at related
          cases related
  | some firstHandle =>
      rw [isFirst] at related
      cases isSecond : second.environment.get? name with
      | none =>
          rw [isSecond] at related
          cases related
      | some secondHandle =>
          rw [isSecond] at related
          cases related with
          | some twins =>
              exact .some (mirrors.reachableTwins_of_roots twins
                (mem_roots_iff.mpr (.inl (Environment.mem_values_of_get? isFirst)))
                (mem_roots_iff.mpr (.inl (Environment.mem_values_of_get? isSecond))))

/-- What reachable twins hold are reachable twins again. -/
theorem objects_reachable
    (mirrors : Mirrors exact twin first second)
    {firstHandle secondHandle : Handle}
    (reachable : reachableTwins twin first second firstHandle secondHandle) :
    ∃ firstObject secondObject,
      first.heap.get? firstHandle = some firstObject ∧
        second.heap.get? secondHandle = some secondObject ∧
        Object.Alike (reachableTwins twin first second) firstObject secondObject := by
  obtain ⟨twins, firstReached, secondReached⟩ := reachable
  obtain ⟨firstObject, secondObject, firstFound, secondFound, alike⟩ :=
    mirrors.objects _ _ twins
  refine ⟨firstObject, secondObject, firstFound, secondFound, ?_⟩
  cases alike with
  | leaf noHandles =>
      exact .leaf noHandles
  | pair cars cdrs =>
      have carsOccupied := mirrors.isOccupied cars
      have cdrsOccupied := mirrors.isOccupied cdrs
      refine .pair ⟨cars, ?_, ?_⟩ ⟨cdrs, ?_, ?_⟩
      · exact .step firstReached firstFound (by simp [Object.handles]) carsOccupied.1
      · exact .step secondReached secondFound (by simp [Object.handles]) carsOccupied.2
      · exact .step firstReached firstFound (by simp [Object.handles]) cdrsOccupied.1
      · exact .step secondReached secondFound (by simp [Object.handles]) cdrsOccupied.2

/-- What mirrored machines can reach, they still hold after each has placed a like object. -/
theorem placed
    (mirrors : Mirrors exact twin first second)
    {firstObject secondObject : Object}
    {firstNew secondNew : Handle}
    {firstAfter secondAfter : Machine}
    (firstPlaced : Placed first firstObject firstNew firstAfter)
    (secondPlaced : Placed second secondObject secondNew secondAfter)
    (firstCounted : first.heap.Counted)
    (secondCounted : second.heap.Counted)
    (alike : Object.Alike (reachableTwins twin first second) firstObject secondObject)
    (entries :
      List.Forall₂ (reachableTwins twin first second)
        firstAfter.stack.entries secondAfter.stack.entries) :
    Mirrors exact (twinsAfter twin first second firstNew secondNew) firstAfter secondAfter where
  entries := entries.imp fun _ _ twins => .inl twins
  bindings := by
    intro name
    rw [firstPlaced.environment, secondPlaced.environment]
    have related := mirrors.bindings_reachable name
    generalize first.environment.get? name = firstValue at related ⊢
    generalize second.environment.get? name = secondValue at related ⊢
    cases related with
    | some twins =>
        exact .some (.inl twins)
    | none =>
        exact .none
  objects := by
    have weaken
        {firstObject secondObject : Object}
        (alike : Object.Alike (reachableTwins twin first second) firstObject secondObject) :
        Object.Alike (twinsAfter twin first second firstNew secondNew)
          firstObject secondObject := by
      cases alike with
      | leaf noHandles =>
          exact .leaf noHandles
      | pair cars cdrs =>
          exact .pair (.inl cars) (.inl cdrs)
    rintro firstHandle secondHandle (reachable | ⟨rfl, rfl⟩)
    · obtain ⟨firstFoundObject, secondFoundObject, firstFound, secondFound, foundAlike⟩ :=
        mirrors.objects_reachable reachable
      obtain ⟨_, firstReached, secondReached⟩ := reachable
      exact ⟨firstFoundObject, secondFoundObject,
        (firstPlaced.keeps firstCounted _ firstReached).trans firstFound,
        (secondPlaced.keeps secondCounted _ secondReached).trans secondFound,
        weaken foundAlike⟩
    · exact ⟨firstObject, secondObject, firstPlaced.found, secondPlaced.found, weaken alike⟩
  oneToOne := by
    -- The slot of the new object was not reachable on either side.
    rintro firstHandle secondHandle firstOther secondOther
      (⟨twins, firstReached, secondReached⟩ | ⟨rfl, rfl⟩)
      (⟨otherTwins, firstOtherReached, secondOtherReached⟩ | ⟨rfl, rfl⟩)
    · exact mirrors.oneToOne _ _ _ _ twins otherTwins
    · constructor
      · rintro rfl
        exact absurd firstReached (firstPlaced.fresh firstCounted)
      · rintro rfl
        exact absurd secondReached (secondPlaced.fresh secondCounted)
    · constructor
      · rintro rfl
        exact absurd firstOtherReached (firstPlaced.fresh firstCounted)
      · rintro rfl
        exact absurd secondOtherReached (secondPlaced.fresh secondCounted)
    · exact ⟨fun _ => rfl, fun _ => rfl⟩
  eagerDefinitions := by
    rw [firstPlaced.eagerDefinitions, secondPlaced.eagerDefinitions, mirrors.eagerDefinitions]
  diagnostics := by
    rw [firstPlaced.diagnostics, secondPlaced.diagnostics, mirrors.diagnostics]
  notLarger := by
    rw [firstPlaced.capacity, secondPlaced.capacity]
    exact mirrors.notLarger
  sameSize := by
    intro isExact
    rw [firstPlaced.capacity, secondPlaced.capacity]
    exact mirrors.sameSize isExact

/-- Two stacks may be exchanged for any two whose entries are twins. -/
theorem withEntries
    (mirrors : Mirrors exact twin first second)
    {firstEntries secondEntries : List Handle}
    (entries : List.Forall₂ twin firstEntries secondEntries) :
    Mirrors exact twin (first.withEntries firstEntries) (second.withEntries secondEntries) :=
  ⟨entries, mirrors.bindings, mirrors.objects, mirrors.oneToOne, mirrors.eagerDefinitions,
    mirrors.diagnostics, mirrors.notLarger, mirrors.sameSize⟩

theorem push
    (mirrors : Mirrors exact twin first second)
    {firstHandle secondHandle : Handle}
    (twins : twin firstHandle secondHandle) :
    Mirrors exact twin (first.withEntries (firstHandle :: first.stack.entries))
      (second.withEntries (secondHandle :: second.stack.entries)) :=
  mirrors.withEntries (.cons twins mirrors.entries)

/-- Entries of the same number may be taken off both stacks. -/
theorem popped
    (mirrors : Mirrors exact twin first second)
    {firstTaken secondTaken firstBelow secondBelow : List Handle}
    (firstEntries : first.stack.entries = firstTaken ++ firstBelow)
    (secondEntries : second.stack.entries = secondTaken ++ secondBelow)
    (sameNumber : firstTaken.length = secondTaken.length) :
    List.Forall₂ twin firstTaken secondTaken ∧
      Mirrors exact twin (first.withEntries firstBelow) (second.withEntries secondBelow) := by
  have entries := mirrors.entries
  rw [firstEntries, secondEntries] at entries
  have taken := List.forall₂_take_append _ _ _ entries
  have below := List.forall₂_drop_append _ _ _ entries
  rw [← sameNumber, List.take_left] at taken
  rw [← sameNumber, List.drop_left] at below
  exact ⟨taken, mirrors.withEntries below⟩

theorem binding
    (mirrors : Mirrors exact twin first second)
    (name : String)
    {firstHandle secondHandle : Handle}
    (twins : twin firstHandle secondHandle) :
    Mirrors exact twin (first.binding name firstHandle) (second.binding name secondHandle) where
  entries := mirrors.entries
  bindings := by
    intro other
    have firstBound :
        (first.binding name firstHandle).environment.get? other =
          if other = name then some firstHandle else first.environment.get? other :=
      Environment.get?_define first.environment name other firstHandle
    have secondBound :
        (second.binding name secondHandle).environment.get? other =
          if other = name then some secondHandle else second.environment.get? other :=
      Environment.get?_define second.environment name other secondHandle
    rw [firstBound, secondBound]
    by_cases same : other = name
    · rw [if_pos same, if_pos same]
      exact .some twins
    · rw [if_neg same, if_neg same]
      exact mirrors.bindings other
  objects := mirrors.objects
  oneToOne := mirrors.oneToOne
  eagerDefinitions := mirrors.eagerDefinitions
  diagnostics := mirrors.diagnostics
  notLarger := mirrors.notLarger
  sameSize := mirrors.sameSize

theorem record
    (mirrors : Mirrors exact twin first second)
    (firstEvent secondEvent : Event) :
    Mirrors exact twin (first.record firstEvent) (second.record secondEvent) :=
  ⟨mirrors.entries, mirrors.bindings, mirrors.objects, mirrors.oneToOne,
    mirrors.eagerDefinitions, mirrors.diagnostics, mirrors.notLarger, mirrors.sameSize⟩

theorem remembering
    (mirrors : Mirrors exact twin first second)
    (error : Error) :
    Mirrors exact twin (first.remembering error) (second.remembering error) where
  entries := mirrors.entries
  bindings := mirrors.bindings
  objects := mirrors.objects
  oneToOne := mirrors.oneToOne
  eagerDefinitions := mirrors.eagerDefinitions
  diagnostics := congrArg (fun diagnostics => remember diagnostics error) mirrors.diagnostics
  notLarger := mirrors.notLarger
  sameSize := mirrors.sameSize

theorem alike_found
    (mirrors : Mirrors exact twin first second)
    {firstHandle secondHandle : Handle}
    (twins : twin firstHandle secondHandle)
    {firstObject secondObject : Object}
    (firstFound : first.heap.get? firstHandle = some firstObject)
    (secondFound : second.heap.get? secondHandle = some secondObject) :
    Object.Alike twin firstObject secondObject := by
  obtain ⟨firstSame, secondSame, firstIs, secondIs, alike⟩ := mirrors.objects _ _ twins
  rw [firstFound, Option.some.injEq] at firstIs
  rw [secondFound, Option.some.injEq] at secondIs
  subst firstIs
  subst secondIs
  exact alike

/-- Twins have the same text. -/
theorem render_eq
    (mirrors : Mirrors exact twin first second)
    {firstHandle secondHandle : Handle}
    (twins : twin firstHandle secondHandle) :
    first.heap.render firstHandle = second.heap.render secondHandle := by
  have renderWithin_eq
      (levels : Nat) :
      first.heap.renderWithin levels firstHandle =
        second.heap.renderWithin levels secondHandle := by
    induction levels generalizing firstHandle secondHandle with
    | zero =>
        rfl
    | succ levels inductionHypothesis =>
        obtain ⟨firstObject, secondObject, firstFound, secondFound, alike⟩ :=
          mirrors.objects _ _ twins
        cases alike with
        | leaf noHandles =>
            cases firstObject with
            | pair car cdr =>
                simp [Object.handles] at noHandles
            | _ =>
                simp [Heap.renderWithin, firstFound, secondFound]
        | pair cars cdrs =>
            simp only [Heap.renderWithin, firstFound, secondFound, inductionHypothesis cars,
              inductionHypothesis cdrs]
  exact renderWithin_eq (Heap.renderingDepth + 1)

end Mirrors

end Machine

end ArenaLisp
