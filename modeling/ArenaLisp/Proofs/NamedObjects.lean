import ArenaLisp.Proofs.AllocationStability
import ArenaLisp.Proofs.Creation

namespace ArenaLisp

/-!
# Names keep their objects

A host that uses a machine from outside may keep an account of the names: whenever one
is bound, it enters the handle and the object found there, and whenever a slot is freed,
it strikes the names that stand for it.  Slots are used again, but never in such a way
that the machine and this account come to differ.

The host has to follow the rules of the machine.  What a new object holds is reachable,
what is pushed, listed or bound is occupied, and what is freed is held neither by the
stack nor by a pair.  It may still be bound, under any number of names.
-/

/-- An account of names: what each was last bound to, unless that has been freed since. -/
abbrev Account : Type :=
  String → Option (Handle × Object)

namespace Account

/-- The account in which a name has been bound, whatever it stood for. -/
def enter (account : Account) (name : String) (handle : Handle) (object : Object) : Account :=
  fun other => if other = name then some (handle, object) else account other

/-- The account without the names that stand for a handle. -/
def strike (account : Account) (freed : Handle) : Account :=
  fun name => (account name).filter fun entry => entry.1 ≠ freed

/-- An account that is right about a machine: every name, its handle and its object. -/
structure Describes (account : Account) (machine : Machine) : Prop where
  bound : ∀ name, machine.environment.get? name = (account name).map Prod.fst
  found :
    ∀ name handle object,
      account name = some (handle, object) → machine.heap.get? handle = some object

end Account

namespace Machine

/-- The account of a machine as it is: each name with its handle and the object found there. -/
def referents (machine : Machine) : Account := fun name =>
  (machine.environment.get? name).bind fun handle =>
    (machine.heap.get? handle).map fun object => (handle, object)

/-- One use of a machine, whether it succeeds or fails, and what it does to the account. -/
inductive HostStep (account : Account) (machine : Machine) : Account → Machine → Prop where
  | allocate
      {object : Object}
      (held : ∀ child ∈ object.handles, machine.Reachable child) :
      HostStep account machine account (allocate object machine).2
  | consFromStack
      (enough : 2 ≤ machine.stack.size) :
      HostStep account machine account (consFromStack machine).2
  | list
      {items : List Handle}
      (occupied : ∀ item ∈ items, machine.heap.isOccupied item = true) :
      HostStep account machine account (list items machine).2
  | installed
      {callable : Callable}
      {handle : Handle}
      {after : Machine}
      (succeeded : install callable machine = (.ok handle, after)) :
      HostStep account machine (account.enter callable.name handle callable.toObject) after
  | notInstalled
      {callable : Callable}
      {error : Error}
      {after : Machine}
      (failed : install callable machine = (.error error, after)) :
      HostStep account machine account after
  | push
      {handle : Handle}
      (occupied : machine.heap.isOccupied handle = true) :
      HostStep account machine account (push handle machine).2
  | pop : HostStep account machine account (pop machine).2
  | bindName
      {name : String}
      {handle : Handle}
      {object : Object}
      (found : machine.heap.get? handle = some object) :
      HostStep account machine (account.enter name handle object) (bindName name handle machine).2
  | collect : HostStep account machine account (collect machine).2
  | freed
      {handle : Handle}
      {after : Machine}
      (notOnStack : handle ∉ machine.stack.entries)
      (notInPair :
        ∀ parent object,
          machine.heap.get? parent = some object → handle ∉ object.handles)
      (succeeded : free handle machine = (.ok (), after)) :
      HostStep account machine (account.strike handle) after
  | notFreed
      {handle : Handle}
      {error : Error}
      {after : Machine}
      (failed : free handle machine = (.error error, after)) :
      HostStep account machine account after

/-- The machines that a host can get to from a fresh one, each with the account it has kept. -/
inductive HostRun (fresh : Machine) : Account → Machine → Prop where
  | start : HostRun fresh fresh.referents fresh
  | next
      {account accountAfter : Account}
      {machine after : Machine}
      (run : HostRun fresh account machine)
      (step : HostStep account machine accountAfter after) :
      HostRun fresh accountAfter after

variable
  {account accountAfter : Account}
  {machine before after fresh : Machine}

theorem referents_eq_some_iff
    {name : String}
    {handle : Handle}
    {object : Object} :
    machine.referents name = some (handle, object) ↔
      machine.environment.get? name = some handle ∧ machine.heap.get? handle = some object := by
  rw [referents, Option.bind_eq_some_iff]
  constructor
  · rintro ⟨value, bound, entry⟩
    obtain ⟨found, isObject, isEntry⟩ := Option.map_eq_some_iff.mp entry
    cases isEntry
    exact ⟨bound, isObject⟩
  · rintro ⟨bound, found⟩
    exact ⟨handle, bound, by rw [found]; rfl⟩

theorem WellFormed.describes_referents
    (wellFormed : machine.WellFormed) :
    Account.Describes machine.referents machine where
  bound := by
    intro name
    cases bound : machine.environment.get? name with
    | none =>
        rw [referents, bound]
        rfl
    | some handle =>
        have occupied :=
          wellFormed.bindingsOccupied handle (Environment.mem_values_of_get? bound)
        obtain ⟨object, found⟩ := Heap.isOccupied_iff.mp occupied
        rw [referents_eq_some_iff.mpr ⟨bound, found⟩]
        rfl
  found := fun _ _ _ entered => (referents_eq_some_iff.mp entered).2

end Machine

namespace Account.Describes

open Machine

variable
  {account : Account}
  {machine before after : Machine}

/-- What leaves the bindings and the objects they reach alone leaves an account right. -/
theorem of_sameSurroundings
    (describes : account.Describes before)
    (same : SameSurroundings before after) :
    account.Describes after where
  bound := by
    intro name
    rw [same.environment]
    exact describes.bound name
  found := by
    intro name handle object entered
    have foundBefore := describes.found name handle object entered
    have bound : before.environment.get? name = some handle := by
      rw [describes.bound, entered]
      rfl
    have reached : before.heap.Reaches before.environment.values handle :=
      .root (Environment.mem_values_of_get? bound) (Heap.isOccupied_of_get? foundBefore)
    rw [same.keepsBound handle reached, foundBefore]

/-- A change of the stack alone leaves an account right. -/
theorem withEntries
    (describes : account.Describes machine)
    (entries : List Handle) :
    account.Describes (machine.withEntries entries) :=
  ⟨describes.bound, describes.found⟩

/-- A name that is bound stands for the new object, and every other for its old one. -/
theorem binding
    (describes : account.Describes machine)
    (name : String)
    {handle : Handle}
    {object : Object}
    (found : machine.heap.get? handle = some object) :
    (account.enter name handle object).Describes (machine.binding name handle) where
  bound := by
    intro other
    have rebound := Environment.get?_define machine.environment name other handle
    by_cases sameName : other = name
    · rw [Account.enter, if_pos sameName]
      exact rebound.trans (if_pos sameName)
    · rw [Account.enter, if_neg sameName]
      exact (rebound.trans (if_neg sameName)).trans (describes.bound other)
  found := by
    intro other otherHandle otherObject entered
    by_cases sameName : other = name
    · rw [Account.enter, if_pos sameName] at entered
      cases entered
      exact found
    · rw [Account.enter, if_neg sameName] at entered
      exact describes.found other otherHandle otherObject entered

/-- A free leaves every name for its handle unbound, and every other with its object. -/
theorem freed
    (describes : account.Describes machine)
    {handle : Handle}
    (occupied : machine.heap.isOccupied handle = true) :
    (account.strike handle).Describes (free handle machine).2 where
  bound := by
    intro name
    rw [free_occupied occupied]
    have purged := Environment.get?_purge machine.environment name handle
    rw [describes.bound] at purged
    rw [Account.strike]
    refine purged.trans ?_
    cases account name with
    | none =>
        rfl
    | some entry =>
        by_cases isFreed : entry.1 = handle <;> simp [Option.filter, isFreed]
  found := by
    intro name other object entered
    rw [Account.strike, Option.filter_eq_some_iff] at entered
    obtain ⟨enteredBefore, distinct⟩ := entered
    rw [free_occupied occupied, Heap.get?, Heap.slotAt?_release occupied,
      if_neg (of_decide_eq_true distinct), ← Heap.get?]
    exact describes.found name other object enteredBefore

end Account.Describes

namespace Machine

variable
  {account accountAfter : Account}
  {machine after fresh : Machine}

theorem WellFormed.collected
    (wellFormed : machine.WellFormed) :
    machine.collected.WellFormed := by
  have counted := wellFormed.consistent.toCounted
  have rootOccupied :
      ∀ root ∈ machine.roots, machine.collected.heap.isOccupied root = true := by
    intro root member
    exact (isOccupied_sweptHeap_iff counted root).mpr
      (.root member (wellFormed.rootsOccupied root member))
  refine ⟨(sweptHeap_counters counted).1, ?_, ?_, closed_collected counted wellFormed.closed⟩
  · exact fun value member => rootOccupied value (mem_roots_iff.mpr (.inl member))
  · exact fun entry member => rootOccupied entry (mem_roots_iff.mpr (.inr member))

theorem WellFormed.allocate
    (wellFormed : machine.WellFormed)
    {object : Object}
    (held : ∀ child ∈ object.handles, machine.Reachable child) :
    (allocate object machine).2.WellFormed := by
  rcases allocate_cases wellFormed.consistent object with
    ⟨failed, _⟩ | ⟨handle, after, succeeded, placed, sameEntries, _⟩
  · rw [failed]
    exact wellFormed.orderly.reserved.toWellFormed
  · rw [succeeded]
    exact placed.wellFormed wellFormed held fun entry member => sameEntries ▸ member

/-- What nothing but names holds can be freed, and then nothing holds it. -/
theorem WellFormed.freed
    (wellFormed : machine.WellFormed)
    {handle : Handle}
    (occupied : machine.heap.isOccupied handle = true)
    (notOnStack : handle ∉ machine.stack.entries)
    (notInPair :
      ∀ parent object, machine.heap.get? parent = some object → handle ∉ object.handles) :
    (free handle machine).2.WellFormed := by
  have kept
      (other : Handle)
      (distinct : other ≠ handle) :
      (Heap.release handle machine.heap).2.get? other = machine.heap.get? other := by
    rw [Heap.get?, Heap.slotAt?_release occupied, if_neg distinct, Heap.get?]
  have keptOccupied
      (other : Handle)
      (distinct : other ≠ handle)
      (wasOccupied : machine.heap.isOccupied other = true) :
      (Heap.release handle machine.heap).2.isOccupied other = true := by
    rwa [Heap.isOccupied_congr (kept other distinct)]
  rw [free_occupied occupied]
  refine ⟨wellFormed.consistent.release occupied, ?_, ?_, ?_⟩
  · intro value member
    obtain ⟨bound, distinct⟩ := Environment.mem_values_purge member
    exact keptOccupied value distinct (wellFormed.bindingsOccupied value bound)
  · intro entry member
    have distinct : entry ≠ handle := fun same => notOnStack (same ▸ member)
    exact keptOccupied entry distinct (wellFormed.entriesOccupied entry member)
  · intro parent object child found held
    have parentDistinct : parent ≠ handle := by
      rintro rfl
      rw [Heap.get?, Heap.slotAt?_release occupied, if_pos rfl] at found
      cases found
    rw [kept parent parentDistinct] at found
    have distinct : child ≠ handle := fun same => notInPair parent object found (same ▸ held)
    exact keptOccupied child distinct (wellFormed.closed parent object child found held)

/-- A machine on which nothing dangles, with an account that is right about its names. -/
structure Accounted (account : Account) (machine : Machine) : Prop where
  wellFormed : machine.WellFormed
  describes : account.Describes machine

theorem Accounted.of_allocations
    (accounted : machine.Accounted account)
    (allocates : AllocationSteps (fun _ => True) machine after)
    (wellFormed : after.WellFormed) :
    after.Accounted account :=
  ⟨wellFormed,
    accounted.describes.of_sameSurroundings
      (allocates.sameSurroundings accounted.wellFormed.orderly.tame)⟩

/-- An installation either binds the callable under its name, or only makes room for it. -/
theorem Accounted.install
    (accounted : machine.Accounted account)
    (callable : Callable) :
    (∃ handle after,
      Machine.install callable machine = (.ok handle, after) ∧
        after.Accounted (account.enter callable.name handle callable.toObject)) ∨
      ∃ error after,
        Machine.install callable machine = (.error error, after) ∧ after.Accounted account := by
  have wellFormed := accounted.wellFormed
  have orderly := wellFormed.orderly
  rcases @install_cases _ machine orderly callable trivial with
    ⟨failed, _⟩ | ⟨handle, placed, succeeded, isPlaced, _, placedOrderly, _⟩
  · have reserves : AllocationSteps (fun _ => True) machine machine.reserved :=
      .single (.reserving machine)
    exact .inr ⟨_, _, failed,
      accounted.of_allocations reserves orderly.reserved.toWellFormed⟩
  · have describes :=
      accounted.describes.of_sameSurroundings
        (isPlaced.sameSurroundings wellFormed.consistent.toCounted)
    have occupied := Heap.isOccupied_of_get? isPlaced.found
    exact .inl ⟨handle, _, succeeded, (placedOrderly.binding callable.name occupied).toWellFormed,
      describes.binding callable.name isPlaced.found⟩

theorem exists_two_entries
    (enough : 2 ≤ machine.stack.size) :
    ∃ first second below, machine.stack.entries = first :: second :: below := by
  rw [OperandStack.size] at enough
  rcases entries : machine.stack.entries with _ | ⟨first, _ | ⟨second, below⟩⟩
  · simp [entries] at enough
  · simp [entries] at enough
  · exact ⟨first, second, below, rfl⟩

theorem HostStep.accounted
    (step : HostStep account machine accountAfter after)
    (accounted : machine.Accounted account) :
    after.Accounted accountAfter := by
  have wellFormed := accounted.wellFormed
  have orderly := wellFormed.orderly
  have tame := orderly.tame
  cases step with
  | allocate held =>
      exact accounted.of_allocations (OnlyAllocates.allocate (fun _ _ => trivial) machine tame)
        (wellFormed.allocate held)
  | consFromStack enough =>
      obtain ⟨cdr, car, below, entries⟩ := exists_two_entries enough
      exact accounted.of_allocations (OnlyAllocates.consFromStack machine tame)
        (consFromStack_answers orderly entries).orderly.toWellFormed
  | @list items occupied =>
      exact accounted.of_allocations (list_onlyAllocates items machine tame)
        (list_answers orderly occupied).orderly.toWellFormed
  | @installed callable handle after succeeded =>
      rcases accounted.install callable with ⟨other, _, isInstalled, holds⟩ | ⟨_, _, failed, _⟩
      · rw [succeeded] at isInstalled
        cases isInstalled
        exact holds
      · rw [succeeded] at failed
        cases failed
  | @notInstalled callable error after failed =>
      rcases accounted.install callable with ⟨_, _, isInstalled, _⟩ | ⟨_, _, hasFailed, holds⟩
      · rw [failed] at isInstalled
        cases isInstalled
      · rw [failed] at hasFailed
        cases hasFailed
        exact holds
  | push occupied =>
      exact ⟨wellFormed.push occupied, accounted.describes.withEntries _⟩
  | pop =>
      rcases entries : machine.stack.entries with _ | ⟨top, below⟩
      · rw [Machine.pop, onStack_apply, OperandStack.pop, entries]
        exact accounted
      · rw [pop_cons entries]
        refine ⟨wellFormed.withFewerEntries fun entry member => ?_,
          accounted.describes.withEntries below⟩
        rw [entries]
        exact List.mem_cons_of_mem top member
  | @bindName name handle object found =>
      exact ⟨(orderly.binding name (Heap.isOccupied_of_get? found)).toWellFormed,
        accounted.describes.binding name found⟩
  | collect =>
      have counted := wellFormed.consistent.toCounted
      rw [collect_eq counted]
      exact ⟨wellFormed.collected,
        accounted.describes.of_sameSurroundings (sameSurroundings_collected counted)⟩
  | @freed handle after notOnStack notInPair succeeded =>
      cases occupied : machine.heap.isOccupied handle with
      | false =>
          rw [free_empty occupied] at succeeded
          cases succeeded
      | true =>
          have wellFormedAfter := wellFormed.freed occupied notOnStack notInPair
          have describesAfter := accounted.describes.freed occupied
          rw [succeeded] at wellFormedAfter describesAfter
          exact ⟨wellFormedAfter, describesAfter⟩
  | @notFreed handle error after failed =>
      cases occupied : machine.heap.isOccupied handle with
      | false =>
          rw [free_empty occupied] at failed
          cases failed
          exact accounted
      | true =>
          rw [free_occupied occupied] at failed
          cases failed

theorem HostRun.binding
    {handle : Handle}
    {object : Object}
    (run : HostRun fresh account machine)
    (name : String)
    (found : machine.heap.get? handle = some object) :
    HostRun fresh (account.enter name handle object) (machine.binding name handle) :=
  run.next (.bindName found)

/-- A host may free an object that nothing but names holds. -/
theorem HostRun.free
    {handle : Handle}
    (run : HostRun fresh account machine)
    (occupied : machine.heap.isOccupied handle = true)
    (notOnStack : handle ∉ machine.stack.entries)
    (notInPair :
      ∀ parent object, machine.heap.get? parent = some object → handle ∉ object.handles) :
    HostRun fresh (account.strike handle) (Machine.free handle machine).2 := by
  have succeeded := free_occupied occupied
  rw [succeeded]
  exact run.next (.freed notOnStack notInPair succeeded)

theorem HostRun.accounted
    (run : HostRun fresh account machine)
    (wellFormed : fresh.WellFormed) :
    machine.Accounted account := by
  induction run with
  | start =>
      exact ⟨wellFormed, wellFormed.describes_referents⟩
  | next _ step inductionHypothesis =>
      exact step.accounted inductionHypothesis

/-- A free fails exactly on an empty slot, and then changes nothing. -/
structure FreesExactly (machine : Machine) (handle : Handle) : Prop where
  failsIff :
    (∃ other, (free handle machine).1 = .error (.doubleFree other)) ↔
      machine.heap.get? handle = none
  failure :
    machine.heap.get? handle = none →
      free handle machine = (.error (.doubleFree handle), machine)
  success :
    machine.heap.get? handle ≠ none →
      (free handle machine).1 = .ok () ∧ (free handle machine).2.heap.get? handle = none
  unbinds :
    machine.heap.get? handle ≠ none →
      ∀ name,
        (free handle machine).2.environment.get? name =
          (machine.environment.get? name).filter fun bound => bound ≠ handle

theorem freesExactly (machine : Machine) (handle : Handle) : machine.FreesExactly handle := by
  cases occupied : machine.heap.isOccupied handle with
  | false =>
      have empty := Heap.get?_eq_none_iff.mpr occupied
      have fails := free_empty occupied
      exact ⟨⟨fun _ => empty, fun _ => ⟨handle, by rw [fails]⟩⟩, fun _ => fails,
        fun notEmpty => absurd empty notEmpty, fun notEmpty => absurd empty notEmpty⟩
  | true =>
      obtain ⟨object, found⟩ := Heap.isOccupied_iff.mp occupied
      have succeeds := free_occupied occupied
      have notEmpty : machine.heap.get? handle ≠ none := by
        rw [found]
        exact Option.some_ne_none object
      refine ⟨⟨?_, fun empty => absurd empty notEmpty⟩, fun empty => absurd empty notEmpty,
        fun _ => ?_, fun _ name => ?_⟩
      · rintro ⟨other, failed⟩
        rw [succeeds] at failed
        cases failed
      · rw [succeeds]
        refine ⟨rfl, ?_⟩
        rw [Heap.get?, Heap.slotAt?_release occupied, if_pos rfl]
        rfl
      · rw [succeeds]
        exact Environment.get?_purge machine.environment name handle

/--
Names keep their objects.  Whatever a host that follows the rules has done to a fresh
machine, nothing dangles: the bindings, the stack and all pairs, garbage included, hold
handles of occupied slots only.  The host's account is right: every name that was bound
is still bound to the same handle, with the same object found there, except that the
names of a freed handle have lost their bindings with it.  And a free fails exactly on an
empty slot, where it changes nothing.
-/
theorem names_keep_objects
    {configuration : Configuration}
    (capacityBound : configuration.capacity ≤ Handle.bound)
    (created : create configuration = .ok fresh)
    (run : HostRun fresh account machine) :
    machine.WellFormed ∧ account.Describes machine ∧ ∀ handle, machine.FreesExactly handle := by
  have accounted := run.accounted (create_orderly capacityBound created).toWellFormed
  exact ⟨accounted.wellFormed, accounted.describes, machine.freesExactly⟩

/-- A configuration with room for the builtin operations and one more object. -/
def single : Configuration where
  capacity := 11
  initialThreshold := 11
  eagerDefinitions := false

/-- A fresh machine with an integer in its last slot. -/
def filled : Machine :=
  (allocate (.integer 7) (start single).2).2

/-- The same machine with two names for the integer. -/
def named : Machine :=
  (filled.binding "x" (Handle.ofIndex 10)).binding "y" (Handle.ofIndex 10)

theorem named_run :
    HostRun (start single).2
      (((start single).2.referents.enter "x" (Handle.ofIndex 10) (.integer 7)).enter "y"
        (Handle.ofIndex 10) (.integer 7))
      named := by
  have run : HostRun (start single).2 (start single).2.referents filled :=
    HostRun.start.next (.allocate (by rintro child ⟨⟩))
  have found : filled.heap.get? (Handle.ofIndex 10) = some (.integer 7) := by
    decide +kernel
  have stillFound :
      (filled.binding "x" (Handle.ofIndex 10)).heap.get? (Handle.ofIndex 10) =
        some (.integer 7) := by
    decide +kernel
  exact (run.binding "x" found).binding "y" stillFound

theorem named_unheld :
    Handle.ofIndex 10 ∉ named.stack.entries ∧
      ∀ parent object,
        named.heap.get? parent = some object → Handle.ofIndex 10 ∉ object.handles := by
  have noPairs :
      ∀ slot ∈ named.heap.slots.toList,
        (slot.map fun occupied => occupied.object.handles).getD [] = [] := by
    decide +kernel
  refine ⟨by decide +kernel, ?_⟩
  intro parent object found
  obtain ⟨slot, member, isObject⟩ := Heap.exists_slot_of_get? found
  have noHandles := noPairs (some slot) member
  rw [Option.map_some, Option.getD_some, isObject] at noHandles
  rw [noHandles]
  exact List.not_mem_nil

/-- A slot is freed that two names stand for, and used again for an object under a third. -/
theorem names_keep_objects_refilled :
    single.capacity ≤ Handle.bound ∧
      create single = .ok (start single).2 ∧
      ∃ account machine,
        HostRun (start single).2 account machine ∧
          machine.environment.get? "x" = none ∧
          machine.environment.get? "y" = none ∧
          machine.environment.get? "z" = some (Handle.ofIndex 10) ∧
          machine.heap.get? (Handle.ofIndex 10) = some (.integer 8) := by
  have capacityBound : single.capacity ≤ Handle.bound := by
    decide
  have created : create single = .ok (start single).2 := by
    decide +kernel
  have occupied : named.heap.isOccupied (Handle.ofIndex 10) = true := by
    decide +kernel
  have found :
      (allocate (.integer 8) (free (Handle.ofIndex 10) named).2).2.heap.get?
          (Handle.ofIndex 10) =
        some (.integer 8) := by
    decide +kernel
  obtain ⟨notOnStack, notInPair⟩ := named_unheld
  have freed := named_run.free occupied notOnStack notInPair
  have refilled := freed.next (@HostStep.allocate _ _ (.integer 8) (by rintro child ⟨⟩))
  have run := refilled.binding "z" found
  obtain ⟨_, describes, _⟩ := names_keep_objects capacityBound created run
  refine ⟨capacityBound, created, _, _, run, ?_, ?_, ?_, describes.found "z" _ _ (if_pos rfl)⟩
  · rw [describes.bound]
    simp [Account.enter, Account.strike]
  · rw [describes.bound]
    simp [Account.enter, Account.strike]
  · rw [describes.bound]
    simp [Account.enter]

end Machine

end ArenaLisp
