import ArenaLisp.Proofs.CollectionFrame

namespace ArenaLisp

/-!
# How long a heap goes without a collection

A collection sets the threshold to twice the number of survivors, within bounds.  Nothing
but a placement adds to the live count, and each adds one.  So as many objects as have
survived are placed before the next collection is due, or as many as there are free slots
if these are fewer; and no collection is due below the initial threshold.
-/

namespace Heap

variable {before between after : Heap}

/-- One heap becomes another in which these bounds are the same. -/
structure SameBounds (before after : Heap) : Prop where
  capacity : after.capacity = before.capacity
  initialThreshold : after.initialThreshold = before.initialThreshold

theorem SameBounds.trans
    (first : SameBounds before between)
    (second : SameBounds between after) :
    SameBounds before after :=
  ⟨second.capacity.trans first.capacity,
    second.initialThreshold.trans first.initialThreshold⟩

theorem sameBounds_runAll
    (heap : Heap)
    (steps : List Step) :
    SameBounds heap (heap.runAll steps) :=
  ⟨(runAll_constants heap steps).1, (runAll_constants heap steps).2⟩

/-- The threshold is the one that an adjustment sets for a given number of survivors. -/
def AdjustedFor (survivors : Nat) (heap : Heap) : Prop :=
  heap.threshold = clamp heap.initialThreshold heap.capacity (2 * survivors)

/-- A number of placements that survivors leave room for, and that brings a collection about. -/
def Spaced (heap : Heap) (survivors placed : Nat) : Prop :=
  min survivors (heap.capacity - survivors) ≤ placed ∧
    heap.initialThreshold - survivors ≤ placed

/-- Between two adjustments the threshold stays, and the live count grows by placements only. -/
structure Grows (before : Heap) (placed : Nat) (after : Heap) : Prop where
  live : after.live ≤ before.live + placed
  threshold : after.threshold = before.threshold

namespace Grows

variable {placed more : Nat}

theorem refl (heap : Heap) : Grows heap 0 heap :=
  ⟨le_rfl, rfl⟩

theorem trans
    (first : Grows before placed between)
    (second : Grows between more after) :
    Grows before (placed + more) after := by
  refine ⟨?_, second.threshold.trans first.threshold⟩
  have fewFirst := first.live
  have fewSecond := second.live
  omega

theorem of_sameOccupancy
    (same : SameOccupancy before after) :
    Grows before 0 after := by
  obtain ⟨slots, rfl, _⟩ := same
  exact ⟨le_rfl, rfl⟩

/-- One case for each use: only a placement that succeeds adds to the live count. -/
theorem step
    {step : Step}
    (noAdjustment : step ≠ .adjustThreshold)
    (heap : Heap) :
    Grows heap (step.placed? heap).toList.length (step.run heap) := by
  cases step with
  | place object =>
      cases found : heap.nextFree? with
      | none =>
          simp only [Step.run, Step.placed?, place_full object found]
          exact refl heap
      | some index =>
          simp only [Step.run, Step.placed?, place_found object found]
          exact ⟨le_rfl, rfl⟩
  | release handle =>
      cases occupied : heap.isOccupied handle with
      | false =>
          simp only [Step.run, release_empty occupied]
          exact refl heap
      | true =>
          obtain ⟨object, _, released⟩ := release_occupied occupied
          simp only [Step.run, released]
          exact ⟨Nat.sub_le _ _, rfl⟩
  | clearMarks =>
      exact of_sameOccupancy (sameOccupancy_clearMarks heap)
  | mark handle pending =>
      exact of_sameOccupancy (sameOccupancy_mark ⟨heap, pending⟩ handle)
  | drain pending =>
      exact of_sameOccupancy (sameOccupancy_drain ⟨heap, pending⟩)
  | adjustThreshold =>
      exact absurd rfl noAdjustment

theorem runAll
    {steps : List Step}
    (noAdjustment : .adjustThreshold ∉ steps)
    (heap : Heap) :
    Grows heap (heap.placements steps).length (heap.runAll steps) := by
  induction steps generalizing heap with
  | nil =>
      exact refl heap
  | cons first rest inductionHypothesis =>
      obtain ⟨notFirst, notRest⟩ := not_or.mp (mt List.mem_cons.mpr noAdjustment)
      rw [placements, List.length_append]
      exact (step (Ne.symm notFirst) heap).trans (inductionHypothesis notRest _)

end Grows

theorem placements_quiet
    {steps : List Step}
    (quiet : ∀ step ∈ steps, step.isQuiet = true)
    (heap : Heap) :
    heap.placements steps = [] := by
  induction steps generalizing heap with
  | nil =>
      rfl
  | cons first rest inductionHypothesis =>
      have isQuiet := quiet first List.mem_cons_self
      have noPlacement : first.isPlacement = false := by
        cases first with
        | place object =>
            cases isQuiet
        | _ =>
            rfl
      rw [placements, Step.placed?_eq_none noPlacement, inductionHypothesis fun step member =>
        quiet step (List.mem_cons_of_mem first member)]
      rfl

namespace Quiet

theorem sameBounds
    (quiet : Quiet before after) :
    SameBounds before after := by
  obtain ⟨steps, _, rfl⟩ := quiet
  exact sameBounds_runAll before steps

theorem grows
    (quiet : Quiet before after) :
    Grows before 0 after := by
  obtain ⟨steps, isQuiet, rfl⟩ := quiet
  have noAdjustment : .adjustThreshold ∉ steps :=
    fun member => Bool.false_ne_true (isQuiet _ member)
  have grows := Grows.runAll noAdjustment before
  rwa [placements_quiet isQuiet] at grows

end Quiet

/--
From an adjustment for all that is live to the next collection that is due, there is one
placement at least for each survivor or each free slot, and for each object that is
missing to the initial threshold.
-/
theorem AdjustedFor.spaced
    {placed : Nat}
    (adjusted : before.AdjustedFor before.live)
    (inBounds : before.initialThreshold ≤ before.capacity)
    (sameBounds : SameBounds before after)
    (grows : Grows before placed after)
    (due : after.needsCollection = true) :
    before.Spaced before.live placed := by
  have reached : after.threshold ≤ after.live ∨ after.capacity ≤ after.live := by
    simpa [needsCollection, isFull] using due
  have few := grows.live
  rw [grows.threshold, adjusted, sameBounds.capacity, clamp] at reached
  constructor <;> omega

end Heap

end ArenaLisp
