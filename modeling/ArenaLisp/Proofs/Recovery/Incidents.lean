import ArenaLisp.Proofs.Recovery.Tallies

namespace ArenaLisp

/-!
# Every recoverable error is recovered once

No recoverable error leaves an evaluation, and each one that is raised in it is handed
over once, in the order in which they are raised: a void takes the place of the value that
could not be computed, and the evaluation goes on.  So the diagnostics and the journal
show each of them once, too, unless an operation of the machine meddles with them.
-/

/-- The error that an event tells the recovery of. -/
def Event.recovered? : Event → Option Error
  | .recovered error => some error
  | _ => none

namespace Machine

/-- The errors that the journal tells the recovery of, the oldest first. -/
def recoveries (machine : Machine) : List Error :=
  (machine.journal.filterMap Event.recovered?).reverse

/-- A change that leaves the counters of a heap consistent. -/
def KeepsConsistent (change : Machine → Machine) : Prop :=
  ∀ machine, machine.heap.Consistent → (change machine).heap.Consistent

/-- A change that what is seen of a machine does not show. -/
def Unseen {Seen : Type} (view : Machine → Seen) (change : Machine → Machine) : Prop :=
  ∀ machine, view (change machine) = view machine

theorem recoveries_record
    {event : Event}
    (otherEvent : event.recovered? = none)
    (machine : Machine) :
    (machine.record event).recoveries = machine.recoveries := by
  rw [recoveries, record, List.filterMap_cons_none otherEvent]
  rfl

end Machine

open Machine

namespace Observer

/-- Nothing is seen of the machine. -/
def oblivious : Observer Unit where
  view _ := ()
  remember seen _ := seen
  remembering _ _ := rfl
  allocating _ _ := rfl
  evaluating _ _ := rfl
  binding _ _ _ := rfl

/-- The diagnostics are a window on what is recovered. -/
def diagnosing : Observer (List Error) where
  view := Machine.diagnostics
  remember := Machine.remember
  remembering _ _ := rfl
  allocating consistent step :=
    (step.sameSurroundings ⟨consistent, fun _ _ _ _ _ => trivial⟩).diagnostics
  evaluating _ _ := rfl
  binding _ _ _ := rfl

theorem recoveries_allocating
    {before after : Machine}
    (step : AllocationStep (fun _ => True) before after) :
    after.recoveries = before.recoveries := by
  cases step with
  | entries =>
      rfl
  | reserving =>
      rcases reserved_cases before with same | ⟨same, _⟩
      · rw [same]
        exact recoveries_record rfl _
      · rw [same]
  | placing =>
      exact recoveries_record rfl _

/-- The journal tells of every recovery. -/
def journaling : Observer (List Error) where
  view := Machine.recoveries
  remember seen error := seen ++ [error]
  remembering _ _ := List.reverse_cons
  allocating _ step := recoveries_allocating step
  evaluating machine _ := recoveries_record rfl machine
  binding machine _ _ := recoveries_record rfl machine

section Requests

variable
  {customs : String → Nat → Conduct}
  (keepsConsistent : ∀ key given, (customs key given).Acts KeepsConsistent)
  {limit : Nat}
  {request : Request}
  {machine after : Machine}
  (consistent : machine.heap.Consistent)
  {result : Except Error Handle}
  (ran : request.run (evaluator (Conduct.library customs) limit) machine = some (result, after))

include keepsConsistent consistent ran

/-- Whatever is left alone by the operations shows in the end what was handed over. -/
theorem recorded_and_seen
    {Seen : Type}
    (observer : Observer Seen)
    (leaves : ∀ key given, (customs key given).Acts (Unseen observer.view)) :
    ∃ raised handed,
      request.record (recordedEvaluator customs limit) ⟨machine, [], []⟩ =
          some (result, ⟨after, raised, handed⟩) ∧
        observer.Balances machine result after raised handed := by
  have acts
      (key : String)
      (given : Nat) :
      (customs key given).Acts observer.Unnoticed :=
    .of_both
      (fun _ keeps leavesView machine consistent =>
        ⟨keeps machine consistent, leavesView machine⟩)
      (keepsConsistent key given) (leaves key given)
  exact request_tallies acts limit request ⟨machine, [], []⟩ consistent result after ran

end Requests

end Observer

namespace Request

theorem failsFatally
    (library : Library)
    (limit : Nat)
    (request : Request) :
    (request.run (evaluator library limit)).FailsFatally := by
  have fails := evaluator_failsFatally library limit
  cases request with
  | evaluate expression =>
      exact fails.evaluate expression
  | apply callee given =>
      exact fails.apply callee given
  | evaluateTopLevel expression =>
      exact evaluateTopLevel_failsFatally fails expression

/--
Whatever the operations of the machine do, nothing but fatal errors leaves the
interpreter.  As long as they keep the counters of the heap consistent, each recoverable
error that is raised is handed over exactly once, in the order of raising; a new void
takes its place, unless every slot holds an object that is reachable; and the interpreter
goes on with it.  So it is recorded once in the diagnostics and in the journal, if the
operations leave these alone.
-/
theorem recovers_once
    {customs : String → Nat → Conduct}
    (keepsConsistent : ∀ key given, (customs key given).Acts KeepsConsistent)
    (limit : Nat)
    (request : Request)
    {machine : Machine}
    (consistent : machine.heap.Consistent) :
    (∀ library, (request.run (evaluator library limit)).FailsFatally) ∧
    (request.run (evaluator (Conduct.library customs) limit)).Ensures machine
      fun result after =>
        ∃ raised handed,
          request.record (recordedEvaluator customs limit) ⟨machine, [], []⟩ =
            some (result, ⟨after, raised, handed⟩) ∧
          handed.map Incident.error = raised ∧
          (∀ incident ∈ handed, incident.IsRecovered) ∧
          ((∀ key given, (customs key given).Acts (Unseen Machine.diagnostics)) →
            after.diagnostics = raised.foldl remember machine.diagnostics) ∧
          ((∀ key given, (customs key given).Acts (Unseen recoveries)) →
            after.recoveries = machine.recoveries ++ raised) := by
  have fails
      (library : Library) :
      (request.run (evaluator library limit)).FailsFatally :=
    request.failsFatally library limit
  refine ⟨fails, fun result after ran => ?_⟩
  have leavesNothing
      (key : String)
      (given : Nat) :
      (customs key given).Acts (Unseen Observer.oblivious.view) :=
    .of_both (fun _ _ _ _ => rfl) (keepsConsistent key given) (keepsConsistent key given)
  obtain ⟨raised, handed, recorded, balances⟩ :=
    Observer.oblivious.recorded_and_seen keepsConsistent consistent ran leavesNothing
  have nothing : outstanding result = [] := by
    refine outstanding_of_fatal fun error failed => ?_
    subst failed
    exact fails _ machine error after ran
  have once : handed.map Incident.error = raised := by
    rw [balances.balanced, nothing, List.append_nil]
  have shows
      {Seen : Type}
      (observer : Observer Seen)
      (leaves : ∀ key given, (customs key given).Acts (Unseen observer.view)) :
      observer.view after = raised.foldl observer.remember (observer.view machine) := by
    obtain ⟨_, _, recordedAlike, shown⟩ :=
      observer.recorded_and_seen keepsConsistent consistent ran leaves
    rw [recorded] at recordedAlike
    cases recordedAlike
    rw [shown.seen, once]
  refine ⟨raised, handed, recorded, once, balances.recovered, shows .diagnosing, fun leaves => ?_⟩
  have appended :
      after.recoveries =
        raised.foldl (fun seen error => seen ++ [error]) machine.recoveries :=
    shows .journaling leaves
  rw [appended, List.foldl_append_eq_append, ← List.flatMap_def, List.flatMap_singleton']

/--
Takes its operands, has the symbol of the slot behind its own evaluated, and fails with
an error of its own.
-/
def probe (given : Nat) : Conduct :=
  .step (discard given) fun _ =>
    .evaluated (Handle.ofIndex 1) fun _ => .answer (.error (.unreadable (.other "probe")))

/-- A machine with `(probe (probe x))` in its heap, where nothing is bound but `probe`. -/
def probing : Machine where
  heap :=
    { slots :=
        #[some ⟨.function "probe" (.custom "probe"), false⟩, some ⟨.symbol "x", false⟩,
          some ⟨.nil, false⟩,
          some ⟨.pair (Handle.ofIndex 1) (Handle.ofIndex 2), false⟩,
          some ⟨.symbol "probe", false⟩,
          some ⟨.pair (Handle.ofIndex 4) (Handle.ofIndex 3), false⟩,
          some ⟨.pair (Handle.ofIndex 5) (Handle.ofIndex 2), false⟩,
          some ⟨.pair (Handle.ofIndex 4) (Handle.ofIndex 6), false⟩, none, none]
      last := some 7
      live := 8
      initialThreshold := 1
      threshold := 10 }
  environment := Environment.empty.define "probe" (Handle.ofIndex 0)
  stack := OperandStack.empty
  eagerDefinitions := false
  diagnostics := []
  collections := 0
  journal := []

/-- The errors that are raised in `(probe (probe x))`. -/
def probed : List Error :=
  [.unboundVariable "x", .unboundVariable "x", .unreadable (.other "probe"),
    .unboundVariable "x", .unreadable (.other "probe")]

/-- Two calls share two slots for the voids of five errors, and collect the earlier ones. -/
theorem recovers_once_probing :
    probing.heap.Consistent ∧
      (∀ given, (probe given).Acts KeepsConsistent) ∧
      ∃ after handed,
        (evaluateTopLevel (Handle.ofIndex 7)).run
              (evaluator (Conduct.library fun _ => probe) 9) probing =
            some (.ok (Handle.ofIndex 8), after) ∧
          (evaluateTopLevel (Handle.ofIndex 7)).record
              (recordedEvaluator (fun _ => probe) 9) ⟨probing, [], []⟩ =
            some (.ok (Handle.ofIndex 8), ⟨after, probed, handed⟩) ∧
          handed.map Incident.error = probed ∧
          (∀ incident ∈ handed, incident.IsRecovered) ∧
          after.diagnostics = probed ∧
          after.collections = 2 := by
  have consistent : probing.heap.Consistent :=
    ⟨⟨by decide, by decide, by decide, by decide⟩, by decide, by decide⟩
  have keepsConsistent
      (given : Nat) :
      (probe given).Acts KeepsConsistent :=
    .step (fun _ kept => kept) fun _ => .evaluated _ fun _ => trivial
  have leavesDiagnostics
      (given : Nat) :
      (probe given).Acts (Unseen Machine.diagnostics) :=
    .step (fun _ => rfl) fun _ => .evaluated _ fun _ => trivial
  have leavesRecoveries
      (given : Nat) :
      (probe given).Acts (Unseen recoveries) :=
    .step (fun _ => rfl) fun _ => .evaluated _ fun _ => trivial
  obtain ⟨after, ran, journaled, collected⟩ :
      ∃ after,
        (evaluateTopLevel (Handle.ofIndex 7)).run
              (evaluator (Conduct.library fun _ => probe) 9) probing =
            some (.ok (Handle.ofIndex 8), after) ∧
          after.recoveries = probed ∧
          after.collections = 2 :=
    Run.exists_value_of_any (by decide +kernel)
  obtain ⟨_, ensures⟩ :=
    recovers_once (fun _ => keepsConsistent) 9 (evaluateTopLevel (Handle.ofIndex 7)) consistent
  obtain ⟨raised, handed, recorded, once, recovered, diagnosed, told⟩ := ensures _ _ ran
  obtain rfl : probed = raised :=
    journaled.symm.trans (told fun _ => leavesRecoveries)
  exact ⟨consistent, keepsConsistent, after, handed, ran, recorded, once, recovered,
    diagnosed fun _ => leavesDiagnostics, collected⟩

end Request

end ArenaLisp
