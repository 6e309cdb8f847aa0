import ArenaLisp.Machine.Creation
import ArenaLisp.Proofs.Deeds
import ArenaLisp.Proofs.Slots.Spacing

namespace ArenaLisp

/-!
# Collections are spaced out

A run of a machine is a journey along landmarks: objects are placed, the heap is
collected, or the threshold is adjusted apart from a collection.  In between, slots may
be released and anything else may happen.  The journal shows the placements and the
collections, so it fixes these landmarks.

A collection that is made to reserve a slot is one that is due.  The interpreter makes no
other ones.
-/

/-- Something that happens to a heap in the course of a run. -/
inductive Landmark where
  | placed
  /-- A collection, whether it was due, and how many objects are live after it. -/
  | collected (due : Bool) (remaining : Nat)
  | adjusted
  deriving Repr, DecidableEq

/-- What a journal shows of a landmark. -/
inductive Sight where
  | placed
  | collected (remaining : Nat)
  deriving Repr, DecidableEq

namespace Landmark

/-- A placement, or a collection that was due. -/
def IsAutomatic : Landmark → Prop
  | .placed => True
  | .collected due _ => due = true
  | .adjusted => False

/-- What the journal shows of a landmark, if anything. -/
def sight? : Landmark → Option Sight
  | .placed => some .placed
  | .collected _ remaining => some (.collected remaining)
  | .adjusted => none

/-- The landmark that a sight is of, if its collections are all due. -/
def ofSight : Sight → Landmark
  | .placed => .placed
  | .collected remaining => .collected true remaining

/-- If all its collections were due, the journal shows every landmark of a run. -/
theorem eq_map_ofSight
    {landmarks : List Landmark}
    (automatic : ∀ landmark ∈ landmarks, landmark.IsAutomatic) :
    landmarks = (landmarks.filterMap sight?).map ofSight := by
  induction landmarks with
  | nil =>
      rfl
  | cons landmark rest inductionHypothesis =>
      obtain ⟨isAutomatic, restAutomatic⟩ := List.forall_mem_cons.mp automatic
      have sameRest := inductionHypothesis restAutomatic
      cases landmark with
      | placed =>
          exact congrArg (List.cons .placed) sameRest
      | collected due remaining =>
          cases isAutomatic
          exact congrArg (List.cons (.collected true remaining)) sameRest
      | adjusted =>
          cases isAutomatic

end Landmark

/-- What an event of a journal shows of a landmark. -/
def Event.sight? : Event → Option Sight
  | .placed _ => some .placed
  | .collected summary => some (.collected summary.remaining)
  | .bound _ _ | .evaluating _ | .recovered _ => none

namespace Machine

/-- The placements and collections that the journal shows, the oldest first. -/
def sights (machine : Machine) : List Sight :=
  (machine.journal.filterMap Event.sight?).reverse

/-- A part of a run with at most one landmark. -/
inductive Leg : Machine → Option Landmark → Machine → Prop where
  /-- No slot is filled, and the threshold stays. -/
  | quiet
      {before after : Machine}
      (quiet : Heap.Quiet before.heap after.heap)
      (unseen : after.sights = before.sights) :
      Leg before none after
  | placing
      {before after : Machine}
      {object : Object}
      {handle : Handle}
      (placed : place object before = (.ok handle, after)) :
      Leg before (some .placed) after
  | collecting
      {before after : Machine}
      {freed : Nat}
      (collected : collect before = (.ok freed, after)) :
      Leg before (some (.collected before.heap.needsCollection after.heap.live)) after
  | adjusting
      {before after : Machine}
      (adjusted : after.heap = before.heap.adjustThreshold)
      (unseen : after.sights = before.sights) :
      Leg before (some .adjusted) after

/-- A run, with its landmarks in their order. -/
inductive Journey : Machine → List Landmark → Machine → Prop where
  | done (machine : Machine) : Journey machine [] machine
  | leg
      {before between after : Machine}
      {landmark : Option Landmark}
      {later : List Landmark}
      (first : Leg before landmark between)
      (rest : Journey between later after) :
      Journey before (landmark.toList ++ later) after

variable {before between after : Machine} {landmarks : List Landmark}

theorem sights_record
    (event : Event)
    (machine : Machine) :
    (machine.record event).sights = machine.sights ++ event.sight?.toList := by
  rw [sights, record, List.filterMap_cons]
  cases event.sight? with
  | none =>
      exact (List.append_nil _).symm
  | some sight =>
      exact List.reverse_cons

/-- A collection that is finished leaves the threshold adjusted to its survivors. -/
theorem collect_adjusts
    {freed : Nat}
    (collected : collect before = (.ok freed, after)) :
    Heap.SameBounds before.heap after.heap ∧
      after.heap.AdjustedFor after.heap.live ∧
      after.sights = before.sights ++ [.collected after.heap.live] := by
  obtain ⟨heap, environment, quiet, ⟨_, finished⟩ | ⟨_, failed⟩⟩ := collect_cases before
  · cases finished.symm.trans collected
    have bounds :=
      quiet.sameBounds.trans (Heap.sameBounds_runAll heap [.clearMarks, .adjustThreshold])
    exact ⟨bounds, rfl, sights_record _ _⟩
  · cases failed.symm.trans collected

/-- A leg shows its landmark in the journal and keeps the bounds of the heap. -/
theorem Leg.spec
    {landmark : Option Landmark}
    (leg : Leg before landmark after) :
    Heap.SameBounds before.heap after.heap ∧
      after.sights = before.sights ++ (landmark.bind Landmark.sight?).toList := by
  cases leg with
  | quiet quiet unseen =>
      exact ⟨quiet.sameBounds, by rw [unseen]; exact (List.append_nil _).symm⟩
  | @placing _ object handle placed =>
      rcases place_cases object before with ⟨failed, _⟩ | ⟨index, succeeded, _⟩
      · cases failed.symm.trans placed
      · cases succeeded.symm.trans placed
        exact ⟨Heap.sameBounds_runAll before.heap [.place object], sights_record _ _⟩
  | collecting collected =>
      obtain ⟨bounds, _, shown⟩ := collect_adjusts collected
      exact ⟨bounds, shown⟩
  | adjusting adjusted unseen =>
      refine ⟨?_, by rw [unseen]; exact (List.append_nil _).symm⟩
      rw [adjusted]
      exact Heap.sameBounds_runAll before.heap [.adjustThreshold]

/-- Where there is no landmark but placements, the live count grows by these only. -/
theorem Leg.grows
    {landmark : Option Landmark}
    (leg : Leg before landmark after)
    (onlyPlaced : ∀ found ∈ landmark.toList, found = .placed) :
    Heap.Grows before.heap landmark.toList.length after.heap := by
  cases leg with
  | quiet quiet _ =>
      exact quiet.grows
  | @placing _ object handle placed =>
      rcases place_cases object before with ⟨failed, _⟩ | ⟨index, succeeded, free⟩
      · cases failed.symm.trans placed
      · cases succeeded.symm.trans placed
        have placedOne : ((Heap.Step.place object).placed? before.heap).toList.length = 1 := by
          rw [Heap.Step.placed?, Heap.place_found object free]
          rfl
        have grows := @Heap.Grows.step (.place object) (by rintro ⟨⟩) before.heap
        rwa [placedOne] at grows
  | collecting | adjusting =>
      cases onlyPlaced _ List.mem_cons_self

namespace Journey

variable {final : Machine} {later : List Landmark}

theorem trans
    (first : Journey before landmarks between)
    (second : Journey between later after) :
    Journey before (landmarks ++ later) after := by
  induction first with
  | done =>
      exact second
  | leg leg _ inductionHypothesis =>
      rw [List.append_assoc]
      exact .leg leg (inductionHypothesis second)

theorem single
    {landmark : Option Landmark}
    (leg : Leg before landmark after) :
    Journey before landmark.toList after := by
  rw [← List.append_nil landmark.toList]
  exact .leg leg (.done after)

/-- A journey may be interrupted between any two landmarks. -/
theorem split
    {first second : List Landmark}
    (journey : Journey before (first ++ second) after) :
    ∃ between, Journey before first between ∧ Journey between second after := by
  generalize isWhole : first ++ second = landmarks at journey
  induction journey generalizing first with
  | done machine =>
      obtain ⟨rfl, rfl⟩ := List.append_eq_nil_iff.mp isWhole
      exact ⟨machine, .done machine, .done machine⟩
  | @leg before next after landmark later leg rest inductionHypothesis =>
      cases landmark with
      | none =>
          obtain ⟨between, earlier, remaining⟩ := inductionHypothesis isWhole
          exact ⟨between, .leg leg earlier, remaining⟩
      | some landmark =>
          rcases List.append_eq_cons_iff.mp isWhole with ⟨rfl, rfl⟩ | ⟨others, rfl, isRest⟩
          · exact ⟨before, .done before, .leg leg rest⟩
          · obtain ⟨between, earlier, remaining⟩ := inductionHypothesis isRest.symm
            exact ⟨between, .leg leg earlier, remaining⟩

/-- The first landmark is reached along a part of the journey without landmarks. -/
theorem uncons
    {landmark : Landmark}
    (journey : Journey before (landmark :: later) after) :
    ∃ start next,
      Journey before [] start ∧ Leg start (some landmark) next ∧ Journey next later after := by
  generalize isWhole : landmark :: later = landmarks at journey
  induction journey with
  | done =>
      cases isWhole
  | @leg before next after found others leg rest inductionHypothesis =>
      cases found with
      | none =>
          obtain ⟨start, further, quiet, reached, remaining⟩ := inductionHypothesis isWhole
          exact ⟨start, further, .leg leg quiet, reached, remaining⟩
      | some found =>
          cases isWhole
          exact ⟨before, next, .done before, leg, rest⟩

theorem spec
    (journey : Journey before landmarks after) :
    Heap.SameBounds before.heap after.heap ∧
      after.sights = before.sights ++ landmarks.filterMap Landmark.sight? := by
  induction journey with
  | done machine =>
      exact ⟨⟨rfl, rfl⟩, (List.append_nil _).symm⟩
  | @leg before next after landmark later leg rest inductionHypothesis =>
      obtain ⟨legBounds, legShown⟩ := leg.spec
      obtain ⟨restBounds, restShown⟩ := inductionHypothesis
      refine ⟨legBounds.trans restBounds, ?_⟩
      rw [restShown, legShown, List.filterMap_append, List.append_assoc]
      cases landmark with
      | none =>
          rfl
      | some landmark =>
          simp only [Option.bind_some, Option.toList_some, List.filterMap_cons,
            List.filterMap_nil]
          cases landmark.sight? <;> rfl

theorem grows
    (journey : Journey before landmarks after)
    (onlyPlaced : ∀ landmark ∈ landmarks, landmark = .placed) :
    Heap.Grows before.heap landmarks.length after.heap := by
  induction journey with
  | done machine =>
      exact .refl machine.heap
  | leg leg rest inductionHypothesis =>
      obtain ⟨legPlaced, restPlaced⟩ := List.forall_mem_append.mp onlyPlaced
      rw [List.length_append]
      exact (leg.grows legPlaced).trans (inductionHypothesis restPlaced)

/-- Between a collection and the next one that is due, objects are placed. -/
theorem spaced
    {earlier between later : List Landmark}
    {wasDue : Bool}
    {survivors remaining : Nat}
    (journey :
      Journey before
        (earlier ++ .collected wasDue survivors :: (between ++ .collected true remaining :: later))
        after)
    (inBounds : before.heap.initialThreshold ≤ before.heap.capacity)
    (onlyPlaced : ∀ landmark ∈ between, landmark = .placed) :
    before.heap.Spaced survivors between.length := by
  obtain ⟨_, toFirst, fromFirst⟩ := journey.split
  obtain ⟨start, collected, quiet, first, rest⟩ := fromFirst.uncons
  obtain ⟨_, placing, toSecond⟩ := rest.split
  obtain ⟨due, _, quietAgain, second, _⟩ := toSecond.uncons
  have boundsBefore := toFirst.spec.1.trans (quiet.spec.1.trans first.spec.1)
  have boundsBetween := placing.spec.1.trans quietAgain.spec.1
  have grows := (placing.grows onlyPlaced).trans (quietAgain.grows (by simp))
  generalize isDue : true = flag at second
  cases second with
  | collecting _ =>
      cases first with
      | collecting finished =>
          obtain ⟨_, adjusted, _⟩ := collect_adjusts finished
          have inBoundsThere :
              collected.heap.initialThreshold ≤ collected.heap.capacity := by
            rw [boundsBefore.initialThreshold, boundsBefore.capacity]
            exact inBounds
          have spaced := adjusted.spaced inBoundsThere boundsBetween grows isDue.symm
          rwa [Heap.Spaced, boundsBefore.capacity, boundsBefore.initialThreshold] at spaced

end Journey

/-- There is a journey with landmarks of a given kind. -/
def Travels (allowed : Landmark → Prop) (before after : Machine) : Prop :=
  ∃ landmarks, Journey before landmarks after ∧ ∀ landmark ∈ landmarks, allowed landmark

namespace Travels

variable {allowed : Landmark → Prop}

theorem quiet
    (quiet : Heap.Quiet before.heap after.heap)
    (unseen : after.sights = before.sights) :
    Travels allowed before after :=
  ⟨[], .single (.quiet quiet unseen), by simp⟩

theorem aside
    (sameHeap : after.heap = before.heap)
    (unseen : after.sights = before.sights) :
    Travels allowed before after :=
  quiet (sameHeap ▸ .refl _) unseen

/-- A collection is a landmark unless it fails halfway. -/
theorem collect
    {machine : Machine}
    (allows : ∀ remaining, allowed (.collected machine.heap.needsCollection remaining)) :
    Travels allowed machine (collect machine).2 := by
  obtain ⟨heap, environment, isQuiet, ⟨freed, finished⟩ | ⟨error, failed⟩⟩ :=
    collect_cases machine
  · rw [finished]
    exact ⟨_, .single (.collecting finished), List.forall_mem_singleton.mpr (allows _)⟩
  · rw [failed]
    exact quiet isQuiet rfl

theorem place
    (allows : allowed .placed)
    (object : Object)
    (machine : Machine) :
    Travels allowed machine (place object machine).2 := by
  rcases place_cases object machine with ⟨failed, _⟩ | ⟨index, placed, _⟩
  · rw [failed]
    exact aside rfl rfl
  · rw [placed]
    exact ⟨_, .single (.placing placed), List.forall_mem_singleton.mpr allows⟩

theorem holdsAlongRuns
    (automatic : ∀ landmark : Landmark, landmark.IsAutomatic → allowed landmark) :
    HoldsAlongRuns (Travels allowed) where
  refl _ := aside rfl rfl
  trans := by
    rintro before between after ⟨first, toBetween, firstAllowed⟩ ⟨later, onwards, laterAllowed⟩
    exact ⟨first ++ later, toBetween.trans onwards,
      List.forall_mem_append.mpr ⟨firstAllowed, laterAllowed⟩⟩
  entries _ _ := aside rfl rfl
  reserving machine := by
    rw [reserve_after]
    split
    · rename_i due
      exact collect fun remaining => automatic _ due
    · exact aside rfl rfl
  placing := place (automatic .placed trivial)
  evaluating _ _ := aside rfl rfl
  binding _ _ _ := aside rfl rfl
  remembering _ _ _ := aside rfl rfl

end Travels

/--
Collections are spaced out.  After a collection of any coherent heap, as many objects
have to be placed as it has left live, or as it has left free if these are fewer, before
a collection is due again, whatever is placed and released in between; and as many as are
missing to the initial threshold.

Every run of a machine is a journey along placements, collections and adjustments, and
the journal shows the placements and collections of it.  What is not allowed to its
operations does not happen in it, apart from placements and collections that are due.
Along any journey there are at least that many placements between a collection and the
next one, if that is due and nothing else is collected or adjusted in between.
-/
theorem collections_spaced
    {customs : String → Nat → Conduct}
    {allowed : Landmark → Prop}
    (automatic : ∀ landmark : Landmark, landmark.IsAutomatic → allowed landmark)
    (acts : ∀ key given, (customs key given).Acts (LeadsTo (Travels allowed)))
    {deeds : List Deed}
    (acted : ∀ deed ∈ deeds, deed.Acts (LeadsTo (Travels allowed)))
    {machine after : Machine}
    (coherent : machine.heap.Coherent)
    (ran : Deed.runAll customs deeds machine = some after) :
    (∀ freed collected steps,
        collect machine = (.ok freed, collected) →
        .adjustThreshold ∉ steps →
        (collected.heap.runAll steps).needsCollection = true →
        machine.heap.Spaced collected.heap.live (collected.heap.placements steps).length) ∧
      (∃ landmarks,
        Journey machine landmarks after ∧ ∀ landmark ∈ landmarks, allowed landmark) ∧
      ∀ landmarks,
        Journey machine landmarks after →
        after.sights = machine.sights ++ landmarks.filterMap Landmark.sight? ∧
          ∀ earlier wasDue survivors between remaining later,
            landmarks =
              earlier ++
                .collected wasDue survivors :: (between ++ .collected true remaining :: later) →
            (∀ landmark ∈ between, landmark = .placed) →
            machine.heap.Spaced survivors between.length := by
  have inBounds : machine.heap.initialThreshold ≤ machine.heap.capacity :=
    Nat.le_trans coherent.thresholdLow coherent.thresholdHigh
  refine ⟨fun freed collected steps finished noAdjustment due => ?_, ?_,
    fun landmarks journey => ⟨journey.spec.2, ?_⟩⟩
  · obtain ⟨bounds, adjusted, _⟩ := collect_adjusts finished
    have inBoundsThere : collected.heap.initialThreshold ≤ collected.heap.capacity := by
      rw [bounds.initialThreshold, bounds.capacity]
      exact inBounds
    have spaced :=
      adjusted.spaced inBoundsThere (Heap.sameBounds_runAll _ steps)
        (.runAll noAdjustment collected.heap) due
    rwa [Heap.Spaced, bounds.capacity, bounds.initialThreshold] at spaced
  · exact Deed.runAll_within (Travels.holdsAlongRuns automatic) (fun _ => Travels.aside rfl rfl)
      acts acted ran
  · rintro earlier wasDue survivors between remaining later rfl onlyPlaced
    exact journey.spaced inBounds onlyPlaced

/-- The builtin operations in a heap with room for six more objects. -/
def roomForSix : Machine :=
  (start ⟨16, 12, false⟩).2

/-- Nine voids are placed and never referred to: six of them between two collections. -/
theorem collections_spaced_roomForSix :
    roomForSix.heap.Coherent ∧
      ∃ after,
        Deed.runAll (fun _ _ => .diverge) (List.replicate 9 (.recover .malformedList)) roomForSix =
            some after ∧
          Journey roomForSix
            ([.placed, .placed] ++
              .collected true 10 :: (List.replicate 6 .placed ++ [.collected true 10, .placed]))
            after ∧
          roomForSix.heap.Spaced 10 (List.replicate 6 Landmark.placed).length := by
  have coherent : roomForSix.heap.Coherent := by
    have isLast : roomForSix.heap.last = some 9 := by
      decide +kernel
    refine ⟨by decide +kernel, by decide +kernel, by decide +kernel, by decide +kernel, ?_⟩
    rw [isLast]
    rintro _ ⟨⟩
    decide +kernel
  have acted :
      ∀ deed ∈ List.replicate 9 (Deed.recover .malformedList),
        deed.Acts (LeadsTo (Travels Landmark.IsAutomatic)) := by
    intro deed member
    rw [List.eq_of_mem_replicate member]
    trivial
  have checked :
      (Deed.runAll (fun _ _ => .diverge) (List.replicate 9 (.recover .malformedList))
          roomForSix).any (fun after =>
            after.sights =
              roomForSix.sights ++
                [.placed, .placed, .collected 10, .placed, .placed, .placed, .placed, .placed,
                  .placed, .collected 10, .placed]) =
        true := by
    decide +kernel
  obtain ⟨after, ran, isShown⟩ := (Option.any_eq_true _ _).mp checked
  obtain ⟨_, ⟨landmarks, journey, automatic⟩, spaced⟩ :=
    @collections_spaced (fun _ _ => .diverge) _ (fun _ isAutomatic => isAutomatic)
      (fun _ _ => trivial) _ acted _ _ coherent ran
  obtain ⟨shown, betweenCollections⟩ := spaced landmarks journey
  have isLandmarks := Landmark.eq_map_ofSight automatic
  rw [List.append_cancel_left (shown.symm.trans (of_decide_eq_true isShown))] at isLandmarks
  refine ⟨coherent, after, ran, ?_, ?_⟩
  · rw [isLandmarks] at journey
    exact journey
  · exact betweenCollections [.placed, .placed] true 10 (List.replicate 6 .placed) 10 [.placed]
      isLandmarks fun _ member => List.eq_of_mem_replicate member

end Machine

end ArenaLisp
