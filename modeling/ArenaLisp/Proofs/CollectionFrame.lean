import ArenaLisp.Machine.Allocation
import ArenaLisp.Proofs.Collection
import ArenaLisp.Proofs.Slots.Turns

namespace ArenaLisp

/-!
# What a collection touches

A collection marks and releases slots, drops bindings, and in the end moves the threshold
and makes a note.  It touches nothing else, and it fills no slot.

This is known of every machine.  There may be more slots than handles can name, and the
counters may be wrong; a collection may then fail halfway, when it releases a slot twice.
-/

namespace Heap

/-- Whether a use neither fills a slot nor moves the threshold. -/
def Step.isQuiet : Step → Bool
  | .place _ | .adjustThreshold => false
  | .release _ | .clearMarks | .mark _ _ | .drain _ => true

/-- One heap becomes another while no slot is filled and the threshold stays. -/
def Quiet (before after : Heap) : Prop :=
  ∃ steps, (∀ step ∈ steps, Step.isQuiet step = true) ∧ after = before.runAll steps

theorem runAll_append
    (heap : Heap)
    (first second : List Step) :
    heap.runAll (first ++ second) = (heap.runAll first).runAll second :=
  List.foldl_append

namespace Quiet

variable {before between after : Heap}

theorem refl (heap : Heap) : Quiet heap heap :=
  ⟨[], by simp, rfl⟩

theorem trans
    (first : Quiet before between)
    (second : Quiet between after) :
    Quiet before after := by
  obtain ⟨earlier, earlierQuiet, rfl⟩ := first
  obtain ⟨later, laterQuiet, rfl⟩ := second
  exact ⟨earlier ++ later, List.forall_mem_append.mpr ⟨earlierQuiet, laterQuiet⟩,
    (runAll_append before earlier later).symm⟩

theorem step
    {step : Step}
    (isQuiet : step.isQuiet = true)
    (heap : Heap) :
    Quiet heap (step.run heap) :=
  ⟨[step], by simpa using isQuiet, rfl⟩

theorem markAll
    (trace : Trace)
    (handles : List Handle) :
    Quiet trace.heap (trace.markAll handles).heap := by
  induction handles generalizing trace with
  | nil =>
      exact .refl trace.heap
  | cons handle rest inductionHypothesis =>
      have marks : Quiet trace.heap (trace.mark handle).heap :=
        @step (.mark handle trace.pending) rfl trace.heap
      exact marks.trans (inductionHypothesis (trace.mark handle))

theorem markFrom
    (heap : Heap)
    (roots : List Handle) :
    Quiet heap (heap.markFrom roots) := by
  have clears : Quiet heap heap.clearMarks :=
    @step .clearMarks rfl heap
  let marked := heap.clearMarks.startTrace.markAll roots
  have drains : Quiet marked.heap marked.drain :=
    @step (.drain marked.pending) rfl marked.heap
  exact (clears.trans (markAll heap.clearMarks.startTrace roots)).trans drains

end Quiet

end Heap

namespace Machine

variable {machine : Machine}

/-- The machine with another heap and other bindings. -/
def withTables
    (machine : Machine)
    (heap : Heap)
    (environment : Environment) :
    Machine :=
  { machine with heap, environment }

/-- The machine whose slots have been swept, with the collection counted and recorded. -/
def finishing
    (machine : Machine)
    (liveBefore freed : Nat) :
    Machine :=
  (finishCollection liveBefore freed machine).2

theorem free_quiet
    (handle : Handle)
    (machine : Machine) :
    ∃ heap environment,
      Heap.Quiet machine.heap heap ∧
        (free handle machine).2 = machine.withTables heap environment := by
  cases occupied : machine.heap.isOccupied handle with
  | false =>
      rw [free_empty occupied]
      exact ⟨_, _, .refl _, rfl⟩
  | true =>
      rw [free_occupied occupied]
      exact ⟨_, _, @Heap.Quiet.step (.release handle) rfl machine.heap, rfl⟩

theorem freeAll_quiet
    (handles : List Handle)
    (machine : Machine) :
    ∃ heap environment,
      Heap.Quiet machine.heap heap ∧
        (freeAll handles machine).2 = machine.withTables heap environment := by
  induction handles generalizing machine with
  | nil =>
      exact ⟨_, _, .refl _, rfl⟩
  | cons handle rest inductionHypothesis =>
      obtain ⟨heap, environment, quiet, freed⟩ := free_quiet handle machine
      have oneThenRest : freeAll (handle :: rest) = free handle >>= fun _ => freeAll rest :=
        rfl
      rw [oneThenRest, Transition.bind_apply]
      rcases answered : free handle machine with ⟨_ | _, after⟩ <;> rw [answered] at freed
      · exact ⟨heap, environment, quiet, freed⟩
      · obtain ⟨later, others, laterQuiet, laterFreed⟩ := inductionHypothesis after
        cases freed
        exact ⟨later, others, quiet.trans laterQuiet, laterFreed⟩

/-- A collection is finished, or it fails before it moves the threshold. -/
theorem collect_cases (machine : Machine) :
    ∃ heap environment,
      Heap.Quiet machine.heap heap ∧
        ((∃ freed,
            collect machine =
              (.ok freed,
                (machine.withTables heap environment).finishing machine.heap.live freed)) ∨
          ∃ error, collect machine = (.error error, machine.withTables heap environment)) := by
  have marks := Heap.Quiet.markFrom machine.heap machine.roots
  obtain ⟨heap, environment, quiet, freed⟩ :=
    freeAll_quiet machine.garbage
      { machine with heap := machine.heap.markFrom machine.roots }
  refine ⟨heap, environment, marks.trans quiet, ?_⟩
  have collects :
      collect machine =
        (freeAll machine.garbage >>= fun _ => do
            finishCollection machine.heap.live machine.garbage.length
            return machine.garbage.length : Action Nat)
          { machine with heap := machine.heap.markFrom machine.roots } := by
    simp only [collect, markRoots, Transition.bind_apply, Transition.get_apply,
      Transition.modify_apply, Transition.pure_apply, garbage]
  rw [collects, Transition.bind_apply]
  rcases answered :
      freeAll machine.garbage { machine with heap := machine.heap.markFrom machine.roots } with
    ⟨error | _, after⟩ <;> rw [answered] at freed <;> cases freed
  · exact .inr ⟨error, rfl⟩
  · exact .inl ⟨machine.garbage.length, rfl⟩

/-- A reservation leaves the machine to a collection that is due, or does nothing. -/
theorem reserve_after (machine : Machine) :
    (reserve machine).2 =
      if machine.heap.needsCollection then (collect machine).2 else machine := by
  simp only [reserve, Transition.bind_apply, Transition.get_apply]
  cases machine.heap.needsCollection with
  | false =>
      rfl
  | true =>
      simp only [↓reduceIte, Transition.bind_apply]
      rcases collect machine with ⟨_ | _, _⟩ <;> rfl

/-- A reservation does nothing, finishes a collection, or fails in the middle of one. -/
theorem reserve_cases (machine : Machine) :
    (reserve machine).2 = machine ∨
      ∃ heap environment,
        (∃ freed,
          (reserve machine).2 =
            (machine.withTables heap environment).finishing machine.heap.live freed) ∨
          (reserve machine).2 = machine.withTables heap environment := by
  rw [reserve_after]
  split
  · obtain ⟨heap, environment, _, ⟨freed, collected⟩ | ⟨error, failed⟩⟩ := collect_cases machine
    · exact .inr ⟨heap, environment, .inl ⟨freed, congrArg Prod.snd collected⟩⟩
    · exact .inr ⟨heap, environment, .inr (congrArg Prod.snd failed)⟩
  · exact .inl rfl

/-- The stack, the diagnostics and the way of definitions are not touched by a reservation. -/
theorem reserve_untouched (machine : Machine) :
    (reserve machine).2.stack = machine.stack ∧
      (reserve machine).2.diagnostics = machine.diagnostics ∧
      (reserve machine).2.eagerDefinitions = machine.eagerDefinitions := by
  rcases reserve_cases machine with same | ⟨heap, environment, ⟨freed, finished⟩ | failed⟩
  · rw [same]
    exact ⟨rfl, rfl, rfl⟩
  · rw [finished]
    exact ⟨rfl, rfl, rfl⟩
  · rw [failed]
    exact ⟨rfl, rfl, rfl⟩

end Machine

end ArenaLisp
