import ArenaLisp.Proofs.ElementarySteps
import Mathlib.Data.Fintype.EquivFin
import Mathlib.Order.WellFounded

namespace ArenaLisp

/-!
# The shape of lists

Two things can go wrong with a chain of pairs: it can end in something that ends no
list, and it can lead back to itself.  A heap is shaped if neither ever happens, garbage
included.  Slot numbers say nothing about this, because slots are used again.

A collection keeps a heap shaped since it adds nothing and takes no object away whose
holder stays.  A new object keeps it shaped since nothing holds its slot yet.
-/

namespace Heap

/-- Whether the object of one handle holds another handle. -/
def Refers (heap : Heap) (parent child : Handle) : Prop :=
  ∃ object, heap.get? parent = some object ∧ child ∈ object.handles

/-- Whether a handle names what the cdr of a pair may be: nil or another pair. -/
def GoesOn (heap : Heap) (handle : Handle) : Prop :=
  heap.get? handle = some .nil ∨ ∃ car cdr, heap.get? handle = some (.pair car cdr)

/-- A heap whose pairs make up lists that end in nil. -/
structure Shaped (heap : Heap) : Prop where
  closed : heap.Closed
  tails : ∀ pair car cdr, heap.get? pair = some (.pair car cdr) → heap.GoesOn cdr
  acyclic : ∀ handle, ¬Relation.TransGen heap.Refers handle handle

/-- The items of a list that ends in nil after as many pairs. -/
inductive Spine (heap : Heap) : Handle → List Handle → Prop where
  | nil
      {handle : Handle}
      (found : heap.get? handle = some .nil) :
      Spine heap handle []
  | cons
      {handle car cdr : Handle}
      {items : List Handle}
      (found : heap.get? handle = some (.pair car cdr))
      (rest : Spine heap cdr items) :
      Spine heap handle (car :: items)

variable {heap before after : Heap}

theorem GoesOn.isOccupied
    {handle : Handle}
    (goesOn : heap.GoesOn handle) :
    heap.isOccupied handle = true := by
  rcases goesOn with isNil | ⟨car, cdr, isPair⟩
  · exact isOccupied_of_get? isNil
  · exact isOccupied_of_get? isPair

/-- What goes on still does where it is found unchanged. -/
theorem GoesOn.congr
    {handle : Handle}
    (goesOn : before.GoesOn handle)
    (same : after.get? handle = before.get? handle) :
    after.GoesOn handle := by
  rwa [GoesOn, same]

/-- There are finitely many handles, so what never leads back to itself comes to an end. -/
theorem wellFounded_of_acyclic
    {relation : Handle → Handle → Prop}
    (acyclic : ∀ handle, ¬Relation.TransGen relation handle handle) :
    WellFounded fun child parent => relation parent child := by
  have finite : Finite Handle :=
    Finite.of_injective
      (fun handle => (⟨handle.index, handle.index_lt_bound⟩ : Fin Handle.bound))
      fun first second same => Handle.eq_of_index_eq (Fin.mk.inj same)
  have transitive :
      IsTrans Handle fun child parent => Relation.TransGen relation parent child :=
    ⟨fun _ _ _ first second => second.trans first⟩
  have irreflexive :
      Std.Irrefl fun child parent => Relation.TransGen relation parent child :=
    ⟨acyclic⟩
  have closure := Finite.wellFounded_of_trans_of_irrefl fun child parent =>
    Relation.TransGen relation parent child
  exact Subrelation.wf (fun refers => .single refers) closure

theorem Shaped.wellFounded
    (shaped : heap.Shaped) :
    WellFounded fun child parent => heap.Refers parent child :=
  wellFounded_of_acyclic shaped.acyclic

/-- Every chain of pairs in a shaped heap is a list that ends in nil. -/
theorem Shaped.exists_spine
    (shaped : heap.Shaped)
    {handle : Handle}
    (goesOn : heap.GoesOn handle) :
    ∃ items, heap.Spine handle items := by
  induction handle using shaped.wellFounded.induction with
  | _ handle inductionHypothesis =>
      rcases goesOn with isNil | ⟨car, cdr, isPair⟩
      · exact ⟨[], .nil isNil⟩
      · have refers : heap.Refers handle cdr :=
          ⟨_, isPair, List.mem_cons_of_mem car (List.mem_singleton_self cdr)⟩
        obtain ⟨items, rest⟩ :=
          inductionHypothesis cdr refers (shaped.tails handle car cdr isPair)
        exact ⟨car :: items, .cons isPair rest⟩

/-- A shape is one of the objects, and of nothing else in a heap. -/
theorem Shaped.congr
    (shaped : before.Shaped)
    (same : ∀ handle, after.get? handle = before.get? handle) :
    after.Shaped where
  closed := by
    intro parent object child found held
    rw [isOccupied_congr (same child)]
    exact shaped.closed parent object child ((same parent).symm.trans found) held
  tails := by
    intro pair car cdr isPair
    exact (shaped.tails pair car cdr ((same pair).symm.trans isPair)).congr (same cdr)
  acyclic := by
    have sameReferences : after.Refers = before.Refers := by
      funext parent child
      rw [Refers, Refers, same parent]
    rw [sameReferences]
    exact shaped.acyclic

/-- A closed part of a shaped heap is shaped. -/
theorem Shaped.of_subset
    (shaped : before.Shaped)
    (closed : after.Closed)
    (subset :
      ∀ handle object, after.get? handle = some object → before.get? handle = some object) :
    after.Shaped where
  closed := closed
  tails := by
    intro pair car cdr isPair
    have goesOn := shaped.tails pair car cdr (subset pair _ isPair)
    have occupied := closed pair _ cdr isPair (List.mem_cons_of_mem car List.mem_cons_self)
    obtain ⟨object, found⟩ := isOccupied_iff.mp occupied
    exact goesOn.congr (found.trans (subset cdr object found).symm)
  acyclic := by
    intro handle cycle
    have stillRefers :
        ∀ parent child, after.Refers parent child → before.Refers parent child := by
      rintro parent child ⟨object, found, held⟩
      exact ⟨object, subset parent object found, held⟩
    exact shaped.acyclic handle (Relation.TransGen.mono stillRefers _ _ cycle)

section

variable
  {new : Handle}
  {object : Object}
  (shaped : before.Shaped)
  (fresh : before.isOccupied new = false)
  (found : after.get? new = some object)
  (others : ∀ other, other ≠ new → after.get? other = before.get? other)
  (held : ∀ child ∈ object.handles, before.isOccupied child = true)

include fresh in
theorem ne_of_fresh
    {handle : Handle}
    (occupied : before.isOccupied handle = true) :
    handle ≠ new := by
  rintro rfl
  rw [fresh] at occupied
  cases occupied

include shaped fresh found others held in
/-- No object holds the new one, and all others hold what they held before. -/
theorem refers_of_extended
    {parent child : Handle}
    (refers : after.Refers parent child) :
    child ≠ new ∧ (parent ≠ new → before.Refers parent child) := by
  obtain ⟨holder, foundHolder, holds⟩ := refers
  by_cases isNew : parent = new
  · subst isNew
    rw [found, Option.some.injEq] at foundHolder
    exact ⟨ne_of_fresh fresh (held child (foundHolder ▸ holds)), fun distinct =>
      absurd rfl distinct⟩
  · rw [others parent isNew] at foundHolder
    exact ⟨ne_of_fresh fresh (shaped.closed parent holder child foundHolder holds),
      fun _ => ⟨holder, foundHolder, holds⟩⟩

include shaped fresh found others held in
/-- A chain that starts at an old object never comes to the new one. -/
theorem chain_of_extended
    {first last : Handle}
    (chain : Relation.TransGen after.Refers first last) :
    last ≠ new ∧ (first ≠ new → Relation.TransGen before.Refers first last) := by
  induction chain with
  | single refers =>
      obtain ⟨distinct, before⟩ := refers_of_extended shaped fresh found others held refers
      exact ⟨distinct, fun isOld => .single (before isOld)⟩
  | tail _ refers inductionHypothesis =>
      obtain ⟨distinct, before⟩ := refers_of_extended shaped fresh found others held refers
      exact ⟨distinct, fun isOld =>
        (inductionHypothesis.2 isOld).tail (before inductionHypothesis.1)⟩

include shaped fresh found others held in
/-- A new object keeps a heap shaped if what it holds is there, its cdr as part of a list. -/
theorem Shaped.extended
    (tail : ∀ car cdr, object = .pair car cdr → before.GoesOn cdr) :
    after.Shaped where
  closed := by
    intro parent holder child foundHolder holds
    have stays
        (occupied : before.isOccupied child = true) :
        after.isOccupied child = true := by
      rwa [isOccupied_congr (others child (ne_of_fresh fresh occupied))]
    by_cases isNew : parent = new
    · subst isNew
      rw [found, Option.some.injEq] at foundHolder
      exact stays (held child (foundHolder ▸ holds))
    · rw [others parent isNew] at foundHolder
      exact stays (shaped.closed parent holder child foundHolder holds)
  tails := by
    intro pair car cdr isPair
    have stays
        (goesOn : before.GoesOn cdr) :
        after.GoesOn cdr :=
      goesOn.congr (others cdr (ne_of_fresh fresh goesOn.isOccupied))
    by_cases isNew : pair = new
    · subst isNew
      rw [found, Option.some.injEq] at isPair
      exact stays (tail car cdr isPair)
    · rw [others pair isNew] at isPair
      exact stays (shaped.tails pair car cdr isPair)
  acyclic := by
    intro handle cycle
    obtain ⟨distinct, before⟩ := chain_of_extended shaped fresh found others held cycle
    exact shaped.acyclic handle (before distinct)

end

end Heap

end ArenaLisp
