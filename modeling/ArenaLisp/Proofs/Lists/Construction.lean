import ArenaLisp.Proofs.AllocationStability

namespace ArenaLisp

/-!
# Building lists

A list is built from its end, one pair for each item, and any of the allocations may
collect first.  While a pair is made its tail is on the stack and nowhere else, and the
items lie below it all along.  So the tail stands when the pair takes it over, and what
has been built so far is always the chain of the items that have had their turn.

The cells of that chain are the slots that the run has placed something in, in the
opposite order.  None of them was reachable before, and none was used twice.
-/

namespace Heap

/--
The items of a list that ends in nil, and its cells: the slots of its pairs, then that of
the nil.
-/
inductive Chain (heap : Heap) : Handle → List Handle → List Handle → Prop where
  | nil
      {handle : Handle}
      (found : heap.get? handle = some .nil) :
      Chain heap handle [] [handle]
  | cons
      {handle item rest : Handle}
      {items cells : List Handle}
      (found : heap.get? handle = some (.pair item rest))
      (chain : Chain heap rest items cells) :
      Chain heap handle (item :: items) (handle :: cells)

namespace Chain

variable {before after : Heap} {handle : Handle} {items cells : List Handle}

theorem isOccupied
    (chain : before.Chain handle items cells) :
    before.isOccupied handle = true := by
  cases chain with
  | nil found =>
      exact isOccupied_of_get? found
  | cons found _ =>
      exact isOccupied_of_get? found

/-- A chain that some roots reach stands as long as what they reach is kept. -/
theorem of_keeps
    {roots : List Handle}
    (chain : before.Chain handle items cells)
    (keeps : Keeps roots before after)
    (reached : before.Reaches roots handle) :
    after.Chain handle items cells := by
  induction chain with
  | nil found =>
      exact .nil ((keeps _ reached).trans found)
  | cons found rest inductionHypothesis =>
      refine .cons ((keeps _ reached).trans found) (inductionHypothesis ?_)
      exact .step reached found (List.mem_cons_of_mem _ List.mem_cons_self) rest.isOccupied

end Chain

end Heap

namespace Machine

/-- The handle in whose slot an event placed something. -/
def placedHandle? : Event → Option Handle
  | .placed handle => some handle
  | _ => none

/--
What placing some objects does to a machine and to what some roots reach.  The newest
object comes first.
-/
structure Places
    (roots : List Handle)
    (before : Machine)
    (cells : List Handle)
    (after : Machine) :
    Prop where
  journal :
    ∃ events,
      after.journal = events ++ before.journal ∧ events.filterMap placedHandle? = cells
  distinct : cells.Nodup
  fresh : ∀ cell ∈ cells, ¬before.heap.Reaches roots cell
  keeps : Heap.Keeps roots before.heap after.heap
  environment : after.environment = before.environment

namespace Places

variable {roots others : List Handle} {before between after : Machine}

theorem none
    (roots : List Handle)
    (machine : Machine) :
    Places roots machine [] machine :=
  ⟨⟨[], rfl, rfl⟩, .nil, by rintro _ ⟨⟩, .refl _ _, rfl⟩

/-- Entries of the stack matter to placements only as roots. -/
theorem of_withEntries
    {entries cells : List Handle}
    (places : Places others (before.withEntries entries) cells after)
    (subset : ∀ root ∈ roots, root ∈ others) :
    Places roots before cells after where
  journal := places.journal
  distinct := places.distinct
  fresh := fun cell member reached => places.fresh cell member (reached.of_subset subset)
  keeps := places.keeps.of_subset subset
  environment := places.environment

theorem withEntries
    {cells : List Handle}
    (places : Places roots before cells after)
    (entries : List Handle) :
    Places roots before cells (after.withEntries entries) :=
  ⟨places.journal, places.distinct, places.fresh, places.keeps, places.environment⟩

/-- Later placements spare what earlier ones have placed, if that is reached by then. -/
theorem trans
    {earlier later : List Handle}
    (first : Places roots before earlier between)
    (second : Places others between later after)
    (stillReached :
      ∀ handle, between.heap.Reaches roots handle → between.heap.Reaches others handle)
    (placedReached : ∀ cell ∈ earlier, between.heap.Reaches others cell) :
    Places roots before (later ++ earlier) after where
  journal := by
    obtain ⟨firstEvents, firstJournal, firstCells⟩ := first.journal
    obtain ⟨secondEvents, secondJournal, secondCells⟩ := second.journal
    refine ⟨secondEvents ++ firstEvents, ?_, ?_⟩
    · rw [secondJournal, firstJournal, List.append_assoc]
    · rw [List.filterMap_append, firstCells, secondCells]
  distinct := by
    refine List.nodup_append'.mpr ⟨second.distinct, first.distinct, fun cell inLater inEarlier => ?_⟩
    exact second.fresh cell inLater (placedReached cell inEarlier)
  fresh := by
    intro cell member reached
    rcases List.mem_append.mp member with inLater | inEarlier
    · exact second.fresh cell inLater (stillReached cell (first.keeps.reaches reached))
    · exact first.fresh cell inEarlier reached
  keeps := by
    intro handle reached
    have kept := second.keeps handle (stillReached handle (first.keeps.reaches reached))
    exact kept.trans (first.keeps handle reached)
  environment := second.environment.trans first.environment

end Places

variable {machine : Machine}

theorem roots_congr
    {after : Machine}
    (sameEnvironment : after.environment = machine.environment)
    (sameEntries : after.stack.entries = machine.stack.entries) :
    after.roots = machine.roots := by
  rw [roots, roots, OperandStack.bottomUp, OperandStack.bottomUp, sameEnvironment, sameEntries]

/-- Items that have been pushed are roots, besides those that there were. -/
theorem mem_roots_pushed
    (machine : Machine)
    (items : List Handle) :
    ∀ root ∈ items ++ machine.roots,
      root ∈ (machine.withEntries (items.reverse ++ machine.stack.entries)).roots := by
  intro root member
  rw [mem_roots_iff, entries_withEntries]
  rcases List.mem_append.mp member with isItem | isRoot
  · exact .inr (List.mem_append_left _ (List.mem_reverse.mpr isItem))
  · exact (mem_roots_iff.mp isRoot).imp_right (List.mem_append_right _)

/-- An allocation that succeeds enters one placement, after a collection or none. -/
theorem journal_place_reserved
    {object : Object}
    {entries : List Handle}
    {handle : Handle}
    {after : Machine}
    (succeeded : place object (machine.reserved.withEntries entries) = (.ok handle, after)) :
    ∃ events,
      after.journal = events ++ machine.journal ∧ events.filterMap placedHandle? = [handle] := by
  rcases place_cases object (machine.reserved.withEntries entries) with
    ⟨failed, _⟩ | ⟨index, placed, _⟩
  · rw [failed] at succeeded
    cases succeeded
  · rw [placed] at succeeded
    cases succeeded
    rcases reserved_cases machine with same | ⟨same, _⟩
    · rw [same]
      exact ⟨[.placed _, .collected machine.collectionSummary], rfl, rfl⟩
    · rw [same]
      exact ⟨[.placed _], rfl, rfl⟩

theorem Placed.places
    {after : Machine}
    {object : Object}
    {handle : Handle}
    (placed : Placed machine object handle after)
    (counted : machine.heap.Counted)
    (journal :
      ∃ events,
        after.journal = events ++ machine.journal ∧ events.filterMap placedHandle? = [handle]) :
    Places machine.roots machine [handle] after where
  journal := journal
  distinct := List.nodup_singleton handle
  fresh := by
    intro cell member
    rw [List.mem_singleton.mp member]
    exact placed.fresh counted
  keeps := placed.keeps counted
  environment := placed.environment

/-- A new nil is the chain without items. -/
theorem allocate_nil_builds
    (wellFormed : machine.WellFormed) :
    (∃ after, allocate .nil machine = (.error .outOfMemory, after)) ∨
      ∃ empty after,
        allocate .nil machine = (.ok empty, after) ∧
          after.WellFormed ∧
          after.stack.entries = machine.stack.entries ∧
          after.heap.Chain empty [] [empty] ∧
          Places machine.roots machine [empty] after := by
  have counted := wellFormed.consistent.toCounted
  have answers := @allocate_answers _ _ wellFormed.orderly .nil rfl rfl
  rcases allocate_cases wellFormed.consistent .nil with
    ⟨failed, _⟩ | ⟨empty, after, succeeded, placed, sameEntries, _⟩
  · exact .inl ⟨_, failed⟩
  · rw [succeeded] at answers
    have placedAfterwards := succeeded
    rw [allocate_eq counted] at placedAfterwards
    exact .inr ⟨empty, after, succeeded, answers.orderly.toWellFormed, sameEntries,
      .nil placed.found, placed.places counted (journal_place_reserved placedAfterwards)⟩

/-- A pair that is made of the two top entries goes in front of the chain of its cdr. -/
theorem consFromStack_builds
    (wellFormed : machine.WellFormed)
    {car cdr : Handle}
    {below : List Handle}
    (entries : machine.stack.entries = cdr :: car :: below)
    {items cells : List Handle}
    (chain : machine.heap.Chain cdr items cells) :
    (∃ after, consFromStack machine = (.error .outOfMemory, after)) ∨
      ∃ pair after,
        consFromStack machine = (.ok pair, after) ∧
          after.WellFormed ∧
          after.stack.entries = below ∧
          after.heap.get? pair = some (.pair car cdr) ∧
          after.heap.Chain pair (car :: items) (pair :: cells) ∧
          Places machine.roots machine [pair] after := by
  have counted := wellFormed.consistent.toCounted
  have cdrReachable : machine.Reachable cdr :=
    reachable_of_entries (wellFormed.reaches_entry (by simp [entries]))
  have answers := consFromStack_answers wellFormed.orderly entries
  rcases consFromStack_cases wellFormed.consistent entries with
    ⟨failed, _⟩ | ⟨pair, after, succeeded, placed, sameEntries, _⟩
  · exact .inl ⟨_, failed⟩
  · rw [succeeded] at answers
    have placedAfterwards := succeeded
    rw [consFromStack_eq counted entries] at placedAfterwards
    have places := placed.places counted (journal_place_reserved placedAfterwards)
    exact .inr ⟨pair, after, succeeded, answers.orderly.toWellFormed, sameEntries, placed.found,
      .cons placed.found (chain.of_keeps places.keeps cdrReachable), places⟩

/-- Items on the stack get one new pair each in front of a chain. -/
theorem consAll_builds
    (wellFormed : machine.WellFormed)
    {tail : Handle}
    {items built cells : List Handle}
    (chain : machine.heap.Chain tail built cells)
    (onStack : ∀ item ∈ items, item ∈ machine.stack.entries) :
    (∃ after, consAll tail items machine = (.error .outOfMemory, after)) ∨
      ∃ result after added,
        consAll tail items machine = (.ok result, after) ∧
          after.stack.entries = machine.stack.entries ∧
          after.heap.Chain result (items.reverse ++ built) (added ++ cells) ∧
          Places (tail :: machine.roots) machine added after := by
  induction items generalizing machine tail built cells with
  | nil =>
      exact .inr ⟨tail, machine, [], rfl, rfl, chain, .none _ _⟩
  | cons item earlier inductionHypothesis =>
      have itemOccupied : machine.heap.isOccupied item = true :=
        wellFormed.entriesOccupied item (onStack item List.mem_cons_self)
      have pushed :
          (machine.withEntries (tail :: item :: machine.stack.entries)).WellFormed :=
        (wellFormed.push itemOccupied).push chain.isOccupied
      rw [consAll_cons, Transition.bind_apply]
      rcases consFromStack_builds pushed rfl chain with
        ⟨after, failed⟩ |
          ⟨pair, between, succeeded, betweenWellFormed, sameEntries, pairFound, longer, placesPair⟩
      · rw [failed]
        exact .inl ⟨after, rfl⟩
      · rw [succeeded]
        have sameRoots : between.roots = machine.roots :=
          roots_congr placesPair.environment sameEntries
        have stillOnStack : ∀ other ∈ earlier, other ∈ between.stack.entries := by
          intro other member
          rw [sameEntries]
          exact onStack other (List.mem_cons_of_mem item member)
        rcases inductionHypothesis betweenWellFormed longer stillOnStack with
          ⟨after, failed⟩ | ⟨result, after, added, ran, laterEntries, longest, placesRest⟩
        · exact .inl ⟨after, failed⟩
        · have pairReached : between.heap.Reaches (pair :: between.roots) pair :=
            .root List.mem_cons_self longer.isOccupied
          -- The tail is no root any more, but the new pair holds it.
          have stillReached
              (handle : Handle)
              (reached : between.heap.Reaches (tail :: machine.roots) handle) :
              between.heap.Reaches (pair :: between.roots) handle := by
            refine reached.mono fun root member occupied => ?_
            rcases List.mem_cons.mp member with rfl | isRoot
            · exact .step pairReached pairFound
                (List.mem_cons_of_mem _ List.mem_cons_self) occupied
            · exact .root (List.mem_cons_of_mem pair (sameRoots ▸ isRoot)) occupied
          have places : Places (tail :: machine.roots) machine [pair] between := by
            refine placesPair.of_withEntries fun root member => ?_
            rw [mem_roots_iff, entries_withEntries]
            rcases List.mem_cons.mp member with rfl | isRoot
            · exact .inr List.mem_cons_self
            · exact (mem_roots_iff.mp isRoot).imp_right fun entry =>
                List.mem_cons_of_mem tail (List.mem_cons_of_mem item entry)
          refine .inr ⟨result, after, added ++ [pair], ran, laterEntries.trans sameEntries, ?_,
            places.trans placesRest stillReached ?_⟩
          · simpa using longest
          · intro cell member
            rw [List.mem_singleton.mp member]
            exact pairReached

/--
On a well-formed machine a list of occupied handles, which may be repeated and need not be
rooted, fails only if memory runs out.  Otherwise the answer is a chain with exactly these
handles as its items, in their order, which ends in nil.  Its cells are the slots of the
objects that were placed meanwhile, one for each item and one for the nil: all different,
and none that the items or the roots reached before.  Whatever these reached is still in
its slot with its contents, and the stack is as it was.
-/
theorem list_builds
    (wellFormed : machine.WellFormed)
    {items : List Handle}
    (occupied : ∀ item ∈ items, machine.heap.isOccupied item = true) :
    (∃ after, list items machine = (.error .outOfMemory, after)) ∨
      ∃ result after cells,
        list items machine = (.ok result, after) ∧
          after.heap.Chain result items cells ∧
          Places (items ++ machine.roots) machine cells after ∧
          after.stack = machine.stack := by
  have pushed := wellFormed.pushedAll occupied
  simp only [list, Transition.bind_apply, pushAll_eq]
  rcases allocate_nil_builds pushed with
    ⟨after, failed⟩ |
      ⟨empty, between, succeeded, betweenWellFormed, sameEntries, emptyChain, placesEmpty⟩
  · rw [failed]
    exact .inl ⟨after, rfl⟩
  · rw [succeeded]
    have sameRoots :
        between.roots = (machine.withEntries (items.reverse ++ machine.stack.entries)).roots :=
      roots_congr placesEmpty.environment sameEntries
    have itemsOnStack : ∀ item ∈ items.reverse, item ∈ between.stack.entries := by
      intro item member
      rw [sameEntries]
      exact List.mem_append_left _ member
    simp only
    rcases consAll_builds betweenWellFormed emptyChain itemsOnStack with
      ⟨after, failed⟩ | ⟨result, after, added, ran, laterEntries, chain, placesPairs⟩
    · rw [failed]
      exact .inl ⟨after, rfl⟩
    · have entries : after.stack.entries = items.reverse ++ machine.stack.entries :=
        laterEntries.trans sameEntries
      obtain ⟨last, discarded⟩ := discard_append entries
      rw [List.length_reverse] at discarded
      rw [List.reverse_reverse, List.append_nil] at chain
      have rooted := mem_roots_pushed machine items
      have places : Places (items ++ machine.roots) machine (added ++ [empty]) after := by
        refine (placesEmpty.of_withEntries rooted).trans placesPairs (fun handle reached => ?_) ?_
        · refine reached.of_subset fun root member => List.mem_cons_of_mem empty ?_
          exact sameRoots ▸ rooted root member
        · intro cell member
          rw [List.mem_singleton.mp member]
          exact .root List.mem_cons_self emptyChain.isOccupied
      rw [ran]
      simp only [discarded, Transition.pure_apply]
      exact .inr ⟨result, _, added ++ [empty], rfl, chain, places.withEntries _, rfl⟩

/-- A machine that is due for a collection, on which nothing but one binding is a root. -/
def crowded : Machine where
  heap :=
    { slots :=
        #[some ⟨.integer 1, false⟩, some ⟨.symbol "garbage", false⟩, some ⟨.integer 2, false⟩,
          none, none, none]
      last := some 2
      live := 3
      initialThreshold := 1
      threshold := 3 }
  environment := Environment.empty.define "x" (Handle.ofIndex 2)
  stack := OperandStack.empty
  eagerDefinitions := false
  diagnostics := []
  collections := 0
  journal := []

/--
The first item is no root and occurs twice.  The list ends up in the slot of the garbage,
and when the second collection comes one of its pairs has been made.
-/
theorem list_builds_crowded :
    let items := [Handle.ofIndex 0, Handle.ofIndex 2, Handle.ofIndex 0]
    crowded.WellFormed ∧
      (∀ item ∈ items, crowded.heap.isOccupied item = true) ∧
      ∃ after cells,
        list items crowded = (.ok (Handle.ofIndex 1), after) ∧
          after.collections = 2 ∧
          after.heap.Chain (Handle.ofIndex 1) items cells ∧
          cells.Nodup ∧
          after.heap.get? (Handle.ofIndex 0) = some (.integer 1) ∧
          after.stack = OperandStack.empty := by
  intro items
  have orderly : crowded.Orderly IsBuiltin :=
    .of_slots ⟨⟨by decide, by decide, by decide, by decide⟩, by decide, by decide⟩ (by decide)
      (by decide)
  have occupied : ∀ item ∈ items, crowded.heap.isOccupied item = true := by
    decide
  have computed :
      (list items crowded).1 = .ok (Handle.ofIndex 1) ∧ (list items crowded).2.collections = 2 := by
    decide +kernel
  refine ⟨orderly.toWellFormed, occupied, ?_⟩
  rcases list_builds orderly.toWellFormed occupied with
    ⟨after, failed⟩ | ⟨result, after, cells, built, chain, places, sameStack⟩
  · rw [failed] at computed
    cases computed.1
  · rw [built] at computed
    obtain ⟨isResult, twice⟩ := computed
    cases isResult
    have itemReached :
        crowded.heap.Reaches (items ++ crowded.roots) (Handle.ofIndex 0) :=
      .root (by decide) (by decide)
    exact ⟨after, cells, built, twice, chain, places.distinct,
      (places.keeps _ itemReached).trans (by decide), sameStack⟩

end Machine

end ArenaLisp
