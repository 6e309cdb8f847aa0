import ArenaLisp.Proofs.TwoRuns.Agreement

namespace ArenaLisp

/-!
# Allocations agree

Mirrored machines have equally many reachable slots.  So if the larger machine has no
room left, the smaller one has none either, and on machines of one size an allocation
succeeds on both or on neither.  When each of them collects makes no difference.
-/

namespace Machine

variable
  {exact : Prop}
  {twin : Handle → Handle → Prop}
  {first second : Machine}

/-- An allocation either finds every slot reachable, or places the object. -/
def Allocates
    (machine : Machine)
    (object : Object)
    (entries : List Handle)
    (answer : Except Error Handle × Machine) :
    Prop :=
  (∃ after,
      answer = (.error .outOfMemory, after) ∧
        after.diagnostics = machine.diagnostics ∧
        machine.Saturated) ∨
    ∃ handle after,
      answer = (.ok handle, after) ∧
        Placed machine object handle after ∧
        after.stack.entries = entries ∧
        ¬machine.Saturated

theorem allocate_allocates
    {machine : Machine}
    (consistent : machine.heap.Consistent)
    (object : Object) :
    Allocates machine object machine.stack.entries (allocate object machine) :=
  (allocate_cases consistent object).imp_left fun ⟨failed, saturated⟩ =>
    ⟨machine.reserved, failed, (reserved_frame machine).2.2.2, saturated⟩

theorem consFromStack_allocates
    {machine : Machine}
    (consistent : machine.heap.Consistent)
    {car cdr : Handle}
    {below : List Handle}
    (entries : machine.stack.entries = cdr :: car :: below) :
    Allocates machine (.pair car cdr) below (consFromStack machine) :=
  (consFromStack_cases consistent entries).imp_left fun ⟨failed, saturated⟩ =>
    ⟨machine.reserved.withEntries below, failed, (reserved_frame machine).2.2.2, saturated⟩

/-- Allocations of like objects agree, whenever the two machines collect. -/
theorem allocates_agree
    (mirrors : Mirrors exact twin first second)
    (firstConsistent : first.heap.Consistent)
    (secondConsistent : second.heap.Consistent)
    {firstObject secondObject : Object}
    {firstEntries secondEntries : List Handle}
    {firstAnswer secondAnswer : Except Error Handle × Machine}
    (firstAllocates : Allocates first firstObject firstEntries firstAnswer)
    (secondAllocates : Allocates second secondObject secondEntries secondAnswer)
    (alike : Object.Alike (Mirrors.reachableTwins twin first second) firstObject secondObject)
    (entries :
      List.Forall₂ (Mirrors.reachableTwins twin first second) firstEntries secondEntries) :
    Outcome exact (Twinned exact) firstAnswer secondAnswer := by
  rcases firstAllocates with
    ⟨firstAfter, rfl, firstDiagnostics, firstSaturated⟩ |
    ⟨firstNew, firstAfter, rfl, firstPlaced, firstSame, firstRoom⟩
  · apply Outcome.exhausted
    intro isExact
    have secondSaturated : second.Saturated :=
      (mirrors.symm isExact).saturated firstConsistent.capacityBound firstSaturated
    rcases secondAllocates with
      ⟨secondAfter, rfl, secondDiagnostics, _⟩ | ⟨_, _, _, _, _, secondRoom⟩
    · refine ⟨secondAfter, rfl, ?_⟩
      rw [firstDiagnostics, secondDiagnostics, mirrors.diagnostics]
    · exact absurd secondSaturated secondRoom
  · rcases secondAllocates with
      ⟨_, _, _, secondSaturated⟩ | ⟨secondNew, secondAfter, rfl, secondPlaced, secondSame, _⟩
    · exact absurd (mirrors.saturated secondConsistent.capacityBound secondSaturated) firstRoom
    · rw [← firstSame, ← secondSame] at entries
      apply Outcome.returned
      exact ⟨_, mirrors.placed firstPlaced secondPlaced firstConsistent.toCounted
        secondConsistent.toCounted alike entries, .inr ⟨rfl, rfl⟩⟩

theorem allocate_agrees
    (mirrors : Mirrors exact twin first second)
    (firstConsistent : first.heap.Consistent)
    (secondConsistent : second.heap.Consistent)
    {object : Object}
    (noHandles : object.handles = []) :
    Outcome exact (Twinned exact) (allocate object first) (allocate object second) :=
  allocates_agree mirrors firstConsistent secondConsistent
    (allocate_allocates firstConsistent object) (allocate_allocates secondConsistent object)
    (.leaf noHandles) mirrors.entries_reachable

/-- The two entries that are replaced by their pair are roots until the pair is placed. -/
theorem consFromStack_agrees
    (mirrors : Mirrors exact twin first second)
    (firstConsistent : first.heap.Consistent)
    (secondConsistent : second.heap.Consistent)
    {firstCar firstCdr secondCar secondCdr : Handle}
    {firstBelow secondBelow : List Handle}
    (firstEntries : first.stack.entries = firstCdr :: firstCar :: firstBelow)
    (secondEntries : second.stack.entries = secondCdr :: secondCar :: secondBelow) :
    Outcome exact (Twinned exact) (consFromStack first) (consFromStack second) := by
  have entries := mirrors.entries_reachable
  rw [firstEntries, secondEntries, List.forall₂_cons, List.forall₂_cons] at entries
  obtain ⟨cdrs, cars, below⟩ := entries
  exact allocates_agree mirrors firstConsistent secondConsistent
    (consFromStack_allocates firstConsistent firstEntries)
    (consFromStack_allocates secondConsistent secondEntries) (.pair cars cdrs) below

theorem recover_agrees
    (mirrors : Mirrors exact twin first second)
    (firstConsistent : first.heap.Consistent)
    (secondConsistent : second.heap.Consistent)
    {error : Error}
    (recoverable : error.isFatal = false) :
    Outcome exact (Twinned exact) (recover error first) (recover error second) := by
  rw [recover_recoverable recoverable, recover_recoverable recoverable]
  exact allocate_agrees (mirrors.remembering error) firstConsistent secondConsistent rfl

end Machine

end ArenaLisp
