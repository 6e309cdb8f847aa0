import ArenaLisp.Proofs.ElementarySteps
import ArenaLisp.Proofs.MemoryExhaustion
import ArenaLisp.Proofs.Recovery.Account
import ArenaLisp.Proofs.Recovery.Fatality

namespace ArenaLisp

/-!
# Balanced accounts

The account of a run balances if what was raised has been handed over once, in the same
order, but for an error that the run itself fails with.  Whatever takes notice of
recoveries, and of nothing else, has then taken notice of each of them once.
-/

open Machine

/-- Something that is seen of a machine and changes with the errors it remembers only. -/
structure Observer (Seen : Type) where
  view : Machine → Seen
  remember : Seen → Error → Seen
  remembering :
    ∀ machine error, view (machine.remembering error) = remember (view machine) error
  allocating :
    ∀ {before after},
      before.heap.Consistent →
      AllocationStep (fun _ => True) before after →
      view after = view before
  evaluating :
    ∀ machine expression, view (machine.record (.evaluating expression)) = view machine
  binding : ∀ machine name value, view (machine.binding name value) = view machine

namespace Observer

variable {Seen : Type} (observer : Observer Seen)

/-- A change that keeps the counters of the heap consistent and is not noticed. -/
def Unnoticed (change : Machine → Machine) : Prop :=
  ∀ machine,
    machine.heap.Consistent →
    (change machine).heap.Consistent ∧
      observer.view (change machine) = observer.view machine

theorem unnoticed_steps
    {before after : Machine}
    (consistent : before.heap.Consistent)
    (steps : AllocationSteps (fun _ => True) before after) :
    after.heap.Consistent ∧ observer.view after = observer.view before := by
  have tame : before.Tame fun _ => True :=
    ⟨consistent, fun _ _ _ _ _ => trivial⟩
  have ⟨same, tameAfter⟩ :=
    @along_steps _ before after _ (fun first second => observer.view second = observer.view first)
      AllocationStep.tame (fun _ => rfl) (fun first second => second.trans first)
      (fun tame step => observer.allocating tame.consistent step) steps tame
  exact ⟨tameAfter.consistent, same⟩

theorem unnoticed_of_onlyAllocates
    {Result : Type}
    {action : Action Result}
    (allocates : OnlyAllocates (fun _ => True) action) :
    observer.Unnoticed fun machine => (action machine).2 :=
  fun machine consistent =>
    observer.unnoticed_steps consistent
      (allocates machine ⟨consistent, fun _ _ _ _ _ => trivial⟩)

end Observer

/-- An error that is yet to be recovered. -/
def outstanding {Result : Type} : Except Error Result → List Error
  | .ok _ => []
  | .error error => if error.isFatal then [] else [error]

theorem outstanding_of_fatal
    {Result : Type}
    {result : Except Error Result}
    (fatal : ∀ error, result = .error error → error.isFatal = true) :
    outstanding result = [] := by
  cases result with
  | ok value =>
      rfl
  | error error =>
      rw [outstanding, if_pos (fatal error rfl)]

/-- Whether the recovery of an error came to a new void, or memory was full. -/
def Incident.IsRecovered (incident : Incident) : Prop :=
  incident.error.isFatal = false ∧
    Accommodates (incident.machine.remembering incident.error) .void
      incident.machine.stack.entries
      (recover incident.error incident.machine).1
      (recover incident.error incident.machine).2

namespace Ledger

/-- The ledger with another machine and more errors on its account. -/
def carry
    (ledger : Ledger)
    (after : Machine)
    (raised : List Error)
    (handed : List Incident) :
    Ledger :=
  ⟨after, ledger.raised ++ raised, ledger.handed ++ handed⟩

theorem carry_nothing (ledger : Ledger) (after : Machine) :
    ledger.carry after [] [] = { ledger with machine := after } := by
  rw [carry, List.append_nil, List.append_nil]

theorem carry_carry
    (ledger : Ledger)
    (between after : Machine)
    (raised laterRaised : List Error)
    (handed laterHanded : List Incident) :
    (ledger.carry between raised handed).carry after laterRaised laterHanded =
      ledger.carry after (raised ++ laterRaised) (handed ++ laterHanded) := by
  simp only [Ledger.carry, List.append_assoc]

end Ledger

namespace Observer

variable {Seen First Result : Type} (observer : Observer Seen)

/-- What a run owes to its account and to an observer of it. -/
structure Balances
    (before : Machine)
    (result : Except Error Result)
    (after : Machine)
    (raised : List Error)
    (handed : List Incident) :
    Prop where
  consistent : after.heap.Consistent
  balanced : raised = handed.map Incident.error ++ outstanding result
  recovered : ∀ incident ∈ handed, incident.IsRecovered
  seen :
    observer.view after =
      (handed.map Incident.error).foldl observer.remember (observer.view before)

/-- A run and the same run with an account give the same answer, and the account balances. -/
def Tallies (recorded : Recorded Result) (run : Run Result) : Prop :=
  ∀ ledger,
    ledger.machine.heap.Consistent →
    run.Ensures ledger.machine fun result after =>
      ∃ raised handed,
        recorded ledger = some (result, ledger.carry after raised handed) ∧
          observer.Balances ledger.machine result after raised handed

variable {observer}

namespace Balances

variable {before between after : Machine} {raised laterRaised : List Error}
  {handed laterHanded : List Incident}

/-- An account goes on where nothing is outstanding. -/
theorem trans
    {first : Except Error First}
    {result : Except Error Result}
    (earlier : observer.Balances before first between raised handed)
    (nothing : outstanding first = [])
    (later : observer.Balances between result after laterRaised laterHanded) :
    observer.Balances before result after (raised ++ laterRaised) (handed ++ laterHanded) where
  consistent := later.consistent
  balanced := by
    rw [earlier.balanced, nothing, List.append_nil, later.balanced, List.map_append,
      List.append_assoc]
  recovered := List.forall_mem_append.mpr ⟨earlier.recovered, later.recovered⟩
  seen := by
    rw [later.seen, earlier.seen, List.map_append, List.foldl_append]

/-- Nothing is entered for steps that are not noticed. -/
theorem nothing
    {result : Except Error Result}
    (consistent : after.heap.Consistent)
    (same : observer.view after = observer.view before)
    (fatal : outstanding result = []) :
    observer.Balances before result after [] [] :=
  ⟨consistent, by rw [fatal]; rfl, by simp, same⟩

end Balances

namespace Tallies

theorem exhausted : observer.Tallies (Recorded.exhausted : Recorded Result) Run.exhausted :=
  fun _ _ => .exhausted

theorem pure (result : Result) :
    observer.Tallies (Pure.pure result : Recorded Result) (Pure.pure result) := by
  intro ledger consistent
  refine .pure ⟨[], [], ?_, .nothing consistent rfl rfl⟩
  rw [Ledger.carry_nothing]
  rfl

/-- A step of the machine that is not noticed, and fails with fatal errors only. -/
theorem lift
    {action : Action Result}
    (unnoticed : observer.Unnoticed fun machine => (action machine).2)
    (fails : action.FailsFatally) :
    observer.Tallies (liftM action) (liftM action) := by
  intro ledger consistent
  obtain ⟨consistentAfter, same⟩ := unnoticed ledger.machine consistent
  refine .lift ⟨[], [], ?_, .nothing consistentAfter same (outstanding_of_fatal ?_)⟩
  · rw [Ledger.carry_nothing]
    rfl
  · exact fun error failed => fails ledger.machine error _ (Prod.ext failed rfl)

theorem bind
    {recorded : Recorded First}
    {run : Run First}
    {recordedNext : First → Recorded Result}
    {next : First → Run Result}
    (first : observer.Tallies recorded run)
    (returned : ∀ value, observer.Tallies (recordedNext value) (next value)) :
    observer.Tallies (recorded >>= recordedNext) (run >>= next) := by
  intro ledger consistent
  refine .bind (first ledger consistent) ?_ ?_
  · rintro value between ⟨raised, handed, answered, balances⟩ result after ran
    obtain ⟨laterRaised, laterHanded, later, laterBalances⟩ :=
      returned value (ledger.carry between raised handed) balances.consistent result after ran
    refine ⟨_, _, ?_, balances.trans rfl laterBalances⟩
    rw [Recorded.bind_apply, answered]
    exact later.trans (by rw [Ledger.carry_carry])
  · rintro error after ⟨raised, handed, answered, balances⟩
    refine ⟨raised, handed, ?_, balances.consistent, balances.balanced, balances.recovered,
      balances.seen⟩
    rw [Recorded.bind_apply, answered]

/-- The error of a run that fails with fatal errors only may be looked at. -/
theorem attempt
    {recorded : Recorded Result}
    {run : Run Result}
    (tallies : observer.Tallies recorded run)
    (fails : run.FailsFatally) :
    observer.Tallies recorded.attempt run.attempt := by
  intro ledger consistent result after ran
  rw [Run.attempt, Option.map_eq_some_iff] at ran
  obtain ⟨⟨inner, last⟩, answered, same⟩ := ran
  cases same
  obtain ⟨raised, handed, recordedAnswer, balances⟩ := tallies ledger consistent _ _ answered
  have nothing : outstanding inner = [] := by
    refine outstanding_of_fatal fun error failed => ?_
    subst failed
    exact fails _ _ _ answered
  refine ⟨raised, handed, ?_, balances.consistent, ?_, balances.recovered, balances.seen⟩
  · rw [Recorded.attempt, recordedAnswer]
    rfl
  · rw [balances.balanced, nothing]
    rfl

theorem throw
    {error : Error}
    (fatal : error.isFatal = true) :
    observer.Tallies (MonadExcept.throw error : Recorded Result) (MonadExcept.throw error) := by
  intro ledger consistent
  refine .throw ⟨[], [], ?_, .nothing consistent rfl ?_⟩
  · rw [Ledger.carry_nothing]
    rfl
  · rw [outstanding, if_pos fatal]

end Tallies

/-- Handing over a recoverable error recovers it, and that is noticed. -/
theorem recover_recovers
    {machine : Machine}
    (consistent : machine.heap.Consistent)
    {error : Error}
    (recoverable : error.isFatal = false) :
    (recover error machine).2.heap.Consistent ∧
      Incident.IsRecovered ⟨error, machine⟩ ∧
      observer.view (recover error machine).2 =
        observer.remember (observer.view machine) error ∧
      outstanding (recover error machine).1 = [] := by
  have remembers : (machine.remembering error).heap.Consistent :=
    consistent
  have allocates : OnlyAllocates (fun _ => True) (allocate .void) :=
    OnlyAllocates.allocate_uncallable rfl
  have unnoticed :
      (allocate .void (machine.remembering error)).2.heap.Consistent ∧
        observer.view (allocate .void (machine.remembering error)).2 =
          observer.view (machine.remembering error) :=
    observer.unnoticed_of_onlyAllocates allocates (machine.remembering error) remembers
  have accommodates := (outOfMemory_iff_saturated remembers).1 .void
  have nothing : outstanding (recover error machine).1 = [] :=
    outstanding_of_fatal fun failure failed =>
      recover_failsFatally error machine failure _ (Prod.ext failed rfl)
  have recovers := recover_recoverable recoverable machine
  rw [← recovers, observer.remembering] at unnoticed
  rw [← recovers] at accommodates
  exact ⟨unnoticed.1, ⟨recoverable, accommodates⟩, unnoticed.2, nothing⟩

/-- An error that is raised is outstanding, if it is recoverable. -/
theorem raise_eq
    (error : Error)
    (ledger : Ledger) :
    Recorded.raise error ledger =
      some (.ok (),
        ledger.carry ledger.machine (outstanding (.error error : Except Error Handle)) []) := by
  rw [Recorded.raise, outstanding, Ledger.carry]
  split <;> simp

theorem hand_recoverable
    {error : Error}
    (recoverable : error.isFatal = false)
    (ledger : Ledger) :
    Recorded.hand error ledger =
      some ((recover error ledger.machine).1,
        ledger.carry (recover error ledger.machine).2 [] [⟨error, ledger.machine⟩]) := by
  simp [Recorded.hand, Recorded.ofAction, recoverable, Ledger.carry]

theorem hand_fatal
    {error : Error}
    (fatal : error.isFatal = true)
    (ledger : Ledger) :
    Recorded.hand error ledger = some (.error error, ledger) := by
  simp [Recorded.hand, Recorded.ofAction, fatal, recover_fatal]

namespace Tallies

/-- An error that arises in the interpreter is raised and handed over at once. -/
theorem fail
    {error : Error}
    (recoverable : error.isFatal = false) :
    observer.Tallies (Recorded.fail error) (liftM (recover error)) := by
  intro ledger consistent
  obtain ⟨consistentAfter, recovered, same, nothing⟩ :=
    @recover_recovers _ observer _ consistent _ recoverable
  have isRaised : outstanding (.error error : Except Error Handle) = [error] := by
    simp [outstanding, recoverable]
  refine .lift ⟨[error], [⟨error, ledger.machine⟩], ?_, consistentAfter, ?_,
    List.forall_mem_singleton.mpr recovered, same⟩
  · rw [Recorded.fail, Recorded.bind_apply, raise_eq, isRaised]
    exact (hand_recoverable recoverable _).trans (by rw [Ledger.carry_carry]; rfl)
  · rw [nothing]
    rfl

/-- What a run fails with is handed over, and nothing is outstanding any more. -/
theorem recovering
    {recorded : Recorded Handle}
    {run : Run Handle}
    (tallies : observer.Tallies recorded run) :
    observer.Tallies (tryCatch recorded Recorded.hand)
      (tryCatch run fun error => liftM (recover error)) := by
  intro ledger consistent
  refine .tryCatch (tallies ledger consistent) ?_ ?_
  · rintro value after ⟨raised, handed, answered, balances⟩
    refine ⟨raised, handed, ?_, balances⟩
    rw [Recorded.tryCatch_apply, answered]
  · rintro error after ⟨raised, handed, answered, balances⟩
    have hands :
        (tryCatch recorded Recorded.hand : Recorded Handle) ledger =
          Recorded.hand error (ledger.carry after raised handed) := by
      rw [Recorded.tryCatch_apply, answered]
    refine .lift ?_
    cases severity : error.isFatal with
    | true =>
        rw [recover_fatal severity]
        exact ⟨raised, handed, hands.trans (hand_fatal severity _), balances⟩
    | false =>
        obtain ⟨consistentAfter, recovered, same, nothing⟩ :=
          @recover_recovers _ observer _ balances.consistent _ severity
        refine ⟨raised, handed ++ [⟨error, after⟩], ?_, consistentAfter, ?_, ?_, ?_⟩
        · refine hands.trans ((hand_recoverable severity _).trans ?_)
          rw [Ledger.carry_carry, List.append_nil]
          rfl
        · rw [balances.balanced, nothing, List.map_append, List.append_nil, outstanding, severity]
          rfl
        · exact List.forall_mem_append.mpr ⟨balances.recovered, by simpa using recovered⟩
        · rw [same, balances.seen, List.map_append, List.foldl_append]
          rfl

end Tallies

end Observer

end ArenaLisp
