import ArenaLisp.Proofs.Creation
import ArenaLisp.Proofs.Deeds
import ArenaLisp.Proofs.Recovery.Incidents
import Mathlib.Data.List.DropRight

namespace ArenaLisp

/-!
# The diagnostics are a sliding window

The journal tells of every error that is recovered, without end.  The diagnostics hold no
more than a fixed number of errors and are emptied whenever they are taken.  Along
whatever is done to a machine they are the newest of the errors recovered since then:
what is forgotten is the oldest, and nothing is forgotten before there is no more room.
-/

namespace Machine

/-- The newest errors together with one more are the newest errors then. -/
theorem remember_rtake
    (errors : List Error)
    (error : Error) :
    remember (errors.rtake maxDiagnostics) error =
      (errors ++ [error]).rtake maxDiagnostics := by
  have size : (errors.rtake maxDiagnostics).length = min errors.length maxDiagnostics := by
    rw [List.rtake, List.length_drop]
    omega
  rw [remember, size, List.rtake, List.rtake, List.length_append, List.length_singleton]
  by_cases full : min errors.length maxDiagnostics = maxDiagnostics
  · have dropsOneMore :
        errors.length + 1 - maxDiagnostics = (errors.length - maxDiagnostics) + 1 := by
      omega
    have inside : (errors.length - maxDiagnostics) + 1 ≤ errors.length := by
      simp only [maxDiagnostics] at full ⊢
      omega
    rw [if_pos full, dropsOneMore, List.drop_append_of_le_length inside, List.drop_drop]
  · have dropsNothing : errors.length - maxDiagnostics = 0 := by
      omega
    have stillNothing : errors.length + 1 - maxDiagnostics = 0 := by
      omega
    rw [if_neg full, dropsNothing, stillNothing, List.drop_zero, List.drop_zero]

/-- By induction on the new errors: the window slides over each of them. -/
theorem foldl_remember_rtake (errors later : List Error) :
    later.foldl remember (errors.rtake maxDiagnostics) =
      (errors ++ later).rtake maxDiagnostics := by
  induction later generalizing errors with
  | nil =>
      rw [List.append_nil]
      rfl
  | cons error rest inductionHypothesis =>
      rw [List.foldl_cons, remember_rtake, inductionHypothesis, List.append_assoc]
      rfl

/-- Neither the diagnostics nor what the journal tells of recoveries changes. -/
def RecoversNothing (before after : Machine) : Prop :=
  after.diagnostics = before.diagnostics ∧ after.recoveries = before.recoveries

/-- The diagnostics have taken in what the journal tells, error by error. -/
def RecoversAsTold (before after : Machine) : Prop :=
  ∃ errors,
    (∀ error ∈ errors, Error.isFatal error = false) ∧
      after.recoveries = before.recoveries ++ errors ∧
      after.diagnostics = errors.foldl remember before.diagnostics

theorem reserve_recoversNothing (machine : Machine) :
    RecoversNothing machine (reserve machine).2 := by
  refine ⟨(reserve_untouched machine).2.1, ?_⟩
  rcases reserve_cases machine with same | ⟨heap, environment, ⟨freed, finished⟩ | failed⟩
  · rw [same]
  · rw [finished]
    exact recoveries_record rfl _
  · rw [failed]
    rfl

theorem place_recoversNothing
    (object : Object)
    (machine : Machine) :
    RecoversNothing machine (place object machine).2 := by
  rcases place_cases object machine with ⟨failed, _⟩ | ⟨index, placed, _⟩
  · rw [failed]
    exact ⟨rfl, rfl⟩
  · rw [placed]
    exact ⟨rfl, recoveries_record rfl _⟩

theorem RecoversNothing.holdsAlongSteps : HoldsAlongSteps RecoversNothing where
  refl _ := ⟨rfl, rfl⟩
  trans first second := ⟨second.1.trans first.1, second.2.trans first.2⟩
  entries _ _ := ⟨rfl, rfl⟩
  reserving := reserve_recoversNothing
  placing := place_recoversNothing
  evaluating machine _ := ⟨rfl, recoveries_record rfl machine⟩
  binding machine _ _ := ⟨rfl, recoveries_record rfl machine⟩

theorem RecoversNothing.asTold
    {before after : Machine}
    (nothing : RecoversNothing before after) :
    RecoversAsTold before after :=
  ⟨[], by simp, by rw [nothing.2, List.append_nil], nothing.1⟩

theorem recoveries_remembering
    (machine : Machine)
    (error : Error) :
    (machine.remembering error).recoveries = machine.recoveries ++ [error] :=
  List.reverse_cons

theorem RecoversAsTold.holdsAlongRuns : HoldsAlongRuns RecoversAsTold where
  refl machine := (RecoversNothing.holdsAlongSteps.refl machine).asTold
  trans := by
    rintro before between after ⟨errors, recoverable, told, diagnosed⟩
      ⟨later, laterRecoverable, laterTold, laterDiagnosed⟩
    refine ⟨errors ++ later, List.forall_mem_append.mpr ⟨recoverable, laterRecoverable⟩, ?_, ?_⟩
    · rw [laterTold, told, List.append_assoc]
    · rw [laterDiagnosed, diagnosed, List.foldl_append]
  entries machine entries := (RecoversNothing.holdsAlongSteps.entries machine entries).asTold
  reserving machine := (reserve_recoversNothing machine).asTold
  placing object machine := (place_recoversNothing object machine).asTold
  evaluating machine expression :=
    (RecoversNothing.holdsAlongSteps.evaluating machine expression).asTold
  binding machine name value :=
    (RecoversNothing.holdsAlongSteps.binding machine name value).asTold
  remembering machine error recoverable :=
    ⟨[error], List.forall_mem_singleton.mpr recoverable, recoveries_remembering machine error, rfl⟩

/-- A change that recovers one error, or leaves diagnostics and recoveries alone. -/
def Discreet (change : Machine → Machine) : Prop :=
  LeadsTo RecoversNothing change ∨ ∃ error, change = fun machine => (recover error machine).2

theorem Discreet.recoversAsTold
    {change : Machine → Machine}
    (discreet : Discreet change) :
    LeadsTo RecoversAsTold change := by
  rcases discreet with nothing | ⟨error, rfl⟩
  · exact fun machine => (nothing machine).asTold
  · exact RecoversAsTold.holdsAlongRuns.recover error

/-- Nothing has been recovered on a machine that has just been created. -/
theorem create_recoversNothing
    {configuration : Configuration}
    {machine : Machine}
    (created : create configuration = .ok machine) :
    machine.diagnostics = [] ∧ machine.recoveries = [] := by
  have holds := RecoversNothing.holdsAlongSteps
  have installs
      (callable : Callable) :
      ActsWithin RecoversNothing (install callable) :=
    holds.bind_action (holds.allocate _) fun handle =>
      holds.bind_action (fun machine => holds.binding machine _ handle) fun _ =>
        holds.unchanged fun _ => rfl
  have installsAll
      (builtins : List Builtin) :
      ActsWithin RecoversNothing (installAll builtins) := by
    induction builtins with
    | nil =>
        exact holds.unchanged fun _ => rfl
    | cons builtin rest inductionHypothesis =>
        rw [funext (installAll_cons builtin rest)]
        exact holds.bind_action (installs _) fun _ => inductionHypothesis
  have nothing := installsAll Builtin.all
    (blank configuration.capacity configuration.initialThreshold configuration.eagerDefinitions)
  rw [installAll_of_create created] at nothing
  exact nothing

/-- Whether a new void could be placed or not, a recovered error is the newest one kept. -/
theorem recover_kept
    {error : Error}
    (recoverable : error.isFatal = false)
    (machine : Machine) :
    (recover error machine).2.recoveries = machine.recoveries ++ [error] ∧
      (recover error machine).2.diagnostics.getLast? = some error := by
  have allocates :=
    RecoversNothing.holdsAlongSteps.allocate .void (machine.remembering error)
  rw [recover_recoverable recoverable, allocates.1, allocates.2, recoveries_remembering]
  refine ⟨rfl, ?_⟩
  simp only [remembering, record, remember]
  split <;> exact List.getLast?_concat

end Machine

open Machine

/-- What was answered when the diagnostics were taken, and what had been recovered till then. -/
structure Taking where
  answered : List Error
  /-- The errors that were recovered since the diagnostics were taken before. -/
  recovered : List Error
  deriving DecidableEq

/-- A machine that is watched, with what has become of its diagnostics. -/
structure Watch where
  machine : Machine
  /-- The errors that were recovered since the diagnostics were last taken. -/
  recovered : List Error
  takings : List Taking
  deriving DecidableEq

namespace Watch

variable {customs : String → Nat → Conduct}

/-- What is seen of a machine that nothing has been done to. -/
def start (machine : Machine) : Watch :=
  ⟨machine, [], []⟩

/-- What is seen after one deed, given the machine that it has left. -/
def after (watch : Watch) (machine : Machine) : Deed → Watch
  | .takeDiagnostics =>
      { machine
        recovered := []
        takings := watch.takings ++ [⟨watch.machine.takeDiagnostics.1, watch.recovered⟩] }
  | .request _ _ | .text _ _ | .recover _ | .act _ =>
      { machine
        recovered :=
          watch.recovered ++ machine.recoveries.drop watch.machine.recoveries.length
        takings := watch.takings }

/-- What is seen after some deeds, if all of them end. -/
def runAll (customs : String → Nat → Conduct) : List Deed → Watch → Option Watch
  | [], watch => some watch
  | deed :: rest, watch =>
      (deed.run customs watch.machine).bind fun machine =>
        runAll customs rest (watch.after machine deed)

/-- Every taking was a window on the recoveries before it, and the diagnostics are one. -/
structure Windowed (told : List Error) (watch : Watch) : Prop where
  taken :
    ∀ taking ∈ watch.takings, taking.answered = taking.recovered.rtake maxDiagnostics
  held : watch.machine.diagnostics = watch.recovered.rtake maxDiagnostics
  allTold :
    watch.machine.recoveries =
      told ++ watch.takings.flatMap Taking.recovered ++ watch.recovered
  recoverable :
    ∀ error ∈ watch.takings.flatMap Taking.recovered ++ watch.recovered, error.isFatal = false

theorem Windowed.take
    {told : List Error}
    {watch : Watch}
    (windowed : watch.Windowed told) :
    (watch.after watch.machine.takeDiagnostics.2 .takeDiagnostics).Windowed told where
  taken := by
    refine List.forall_mem_append.mpr ⟨windowed.taken, ?_⟩
    exact List.forall_mem_singleton.mpr windowed.held
  held := rfl
  allTold := by
    have sameTold : watch.machine.takeDiagnostics.2.recoveries = watch.machine.recoveries := rfl
    simp only [after, sameTold, windowed.allTold, List.flatMap_append, List.flatMap_singleton,
      List.append_nil, List.append_assoc]
  recoverable := by
    simp only [after, List.flatMap_append, List.flatMap_singleton, List.append_nil]
    exact windowed.recoverable

/-- Whatever is recovered as it is told belongs to what the diagnostics are a window on. -/
theorem Windowed.goOn
    {told : List Error}
    {watch : Watch}
    (windowed : watch.Windowed told)
    {machine : Machine}
    (asTold : RecoversAsTold watch.machine machine)
    {deed : Deed}
    (notTaking : deed ≠ .takeDiagnostics) :
    (watch.after machine deed).Windowed told := by
  obtain ⟨errors, recoverable, isTold, diagnosed⟩ := asTold
  have isAfter :
      watch.after machine deed =
        { watch with machine, recovered := watch.recovered ++ errors } := by
    have new : machine.recoveries.drop watch.machine.recoveries.length = errors := by
      rw [isTold, List.drop_left]
    cases deed with
    | takeDiagnostics =>
        exact absurd rfl notTaking
    | _ =>
        simp only [after, new]
  rw [isAfter]
  refine ⟨windowed.taken, ?_, ?_, ?_⟩
  · exact diagnosed.trans (by rw [windowed.held, foldl_remember_rtake])
  · simp only [isTold, windowed.allTold, List.append_assoc]
  · rw [← List.append_assoc]
    exact List.forall_mem_append.mpr ⟨windowed.recoverable, recoverable⟩

/-- By induction on the deeds: each of them takes the diagnostics or recovers as it is told. -/
theorem Windowed.runAll
    (acts : ∀ key given, (customs key given).Acts Discreet)
    {deeds : List Deed}
    (acted : ∀ deed ∈ deeds, deed.Acts Discreet)
    {told : List Error}
    {watch last : Watch}
    (windowed : watch.Windowed told)
    (watched : Watch.runAll customs deeds watch = some last) :
    last.Windowed told := by
  have actsAsTold
      (key : String)
      (given : Nat) :
      (customs key given).Acts (LeadsTo RecoversAsTold) :=
    .of_both (fun _ discreet _ => discreet.recoversAsTold) (acts key given) (acts key given)
  induction deeds generalizing watch with
  | nil =>
      cases watched
      exact windowed
  | cons deed rest inductionHypothesis =>
      obtain ⟨machine, ran, watchedRest⟩ := Option.bind_eq_some_iff.mp watched
      refine inductionHypothesis (fun later member => acted later (.tail deed member)) ?_
        watchedRest
      have isDiscreet := acted deed List.mem_cons_self
      by_cases taking : deed = .takeDiagnostics
      · subst taking
        cases ran
        exact windowed.take
      · have actedAsTold : deed.Acts (LeadsTo RecoversAsTold) := by
          cases deed with
          | act change =>
              exact Discreet.recoversAsTold isDiscreet
          | _ =>
              trivial
        exact windowed.goOn
          (Deed.run_within RecoversAsTold.holdsAlongRuns actsAsTold deed actedAsTold
            (fun isTaking => absurd isTaking taking) ran) taking

/--
Whatever is evaluated, applied, read or recovered on a machine from its creation on, and
whenever its diagnostics are taken: each time the answer is a window on the errors that
were recovered since the last time, the newest ones as far as there is room, in the order
of the recoveries, and the diagnostics are empty then.  No recovery is left out and no
fatal error is among them: these are not recovered and change nothing.  A recoverable
error is kept as the newest one even if there is no room for its void.

The operations of the machine may recover errors, too, but not meddle with the diagnostics.
-/
theorem runAll_windowed
    (acts : ∀ key given, (customs key given).Acts Discreet)
    {deeds : List Deed}
    (acted : ∀ deed ∈ deeds, deed.Acts Discreet)
    {configuration : Configuration}
    {machine : Machine}
    (created : create configuration = .ok machine)
    {last : Watch}
    (watched : runAll customs deeds (start machine) = some last) :
    (∀ taking ∈ last.takings,
        taking.answered = taking.recovered.rtake maxDiagnostics) ∧
      last.machine.diagnostics = last.recovered.rtake maxDiagnostics ∧
      last.machine.takeDiagnostics.2.diagnostics = [] ∧
      last.machine.recoveries = last.takings.flatMap Taking.recovered ++ last.recovered ∧
      (∀ error ∈ last.machine.recoveries, error.isFatal = false) ∧
      (∀ error,
        error.isFatal = true → recover error last.machine = (.error error, last.machine)) ∧
      (∀ error,
        error.isFatal = false →
        (recover error last.machine).2.recoveries = last.machine.recoveries ++ [error] ∧
          (recover error last.machine).2.diagnostics.getLast? = some error) := by
  obtain ⟨nothingKept, nothingTold⟩ := create_recoversNothing created
  have untouched : (start machine).Windowed [] := by
    refine ⟨?_, nothingKept, nothingTold, ?_⟩
    · rintro _ ⟨⟩
    · rintro _ ⟨⟩
  have windowed := untouched.runAll acts acted watched
  have allTold := windowed.allTold
  rw [List.nil_append] at allTold
  refine ⟨windowed.taken, windowed.held, rfl, allTold, ?_, ?_, ?_⟩
  · rw [allTold]
    exact windowed.recoverable
  · exact fun error fatal => recover_fatal fatal last.machine
  · exact fun error recoverable => recover_kept recoverable last.machine

/-- A machine with as many slots as there are builtin operations. -/
def brimful : Configuration where
  capacity := 10
  initialThreshold := 10
  eagerDefinitions := false

/-- An error that is told from others by its number. -/
def mishap (number : Nat) : Error :=
  .arityMismatch "f" "1" number

/-- More errors than are kept, a fatal one, a taking, and a call of `car` without operands. -/
def mishaps : List Deed :=
  ((List.range 66).map fun number => .recover (mishap number)) ++
    [.recover .outOfMemory, .takeDiagnostics, .request 1 (.apply (Handle.ofIndex 6) 0)]

/-- No slot is left for any void, and the two oldest errors are forgotten. -/
theorem runAll_windowed_brimful :
    create brimful = .ok (Machine.start brimful).2 ∧
      ∃ last,
        runAll (fun _ _ => .diverge) mishaps (start (Machine.start brimful).2) = some last ∧
          last.takings.map Taking.answered = [((List.range 66).map mishap).drop 2] ∧
          last.machine.diagnostics = [.arityMismatch "car" "1" 0] ∧
          (recover (mishap 0) last.machine).1 = .error .outOfMemory ∧
          (recover (mishap 0) last.machine).2.diagnostics.getLast? = some (mishap 0) := by
  have created : create brimful = .ok (Machine.start brimful).2 := by
    decide +kernel
  have acted : ∀ deed ∈ mishaps, deed.Acts Discreet := by
    intro deed member
    rcases List.mem_append.mp member with recovers | others
    · obtain ⟨number, _, rfl⟩ := List.mem_map.mp recovers
      trivial
    · simp only [List.mem_cons, List.not_mem_nil, or_false] at others
      rcases others with rfl | rfl | rfl <;> trivial
  have checked :
      (runAll (fun _ _ => .diverge) mishaps (start (Machine.start brimful).2)).any (fun last =>
          last.takings.map Taking.recovered = [(List.range 66).map mishap] ∧
            last.recovered = [.arityMismatch "car" "1" 0] ∧
            (recover (mishap 0) last.machine).1 = .error .outOfMemory) =
        true := by
    decide +kernel
  obtain ⟨last, watched, holds⟩ := (Option.any_eq_true _ _).mp checked
  obtain ⟨taken, pending, failed⟩ := of_decide_eq_true holds
  obtain ⟨answered, held, _, _, _, _, kept⟩ :=
    @runAll_windowed (fun _ _ => .diverge) (fun _ _ => trivial) mishaps acted _ _ created last
      watched
  refine ⟨created, last, watched, ?_, ?_, failed, (kept _ rfl).2⟩
  · have windows :
        last.takings.map Taking.answered =
          (last.takings.map Taking.recovered).map fun errors => errors.rtake maxDiagnostics := by
      rw [List.map_map]
      exact List.map_congr_left answered
    rw [windows, taken]
    rfl
  · rw [held, pending]
    rfl

end Watch

end ArenaLisp
