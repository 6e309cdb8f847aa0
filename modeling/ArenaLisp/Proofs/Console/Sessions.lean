import ArenaLisp.Proofs.Console.Interpretation
import ArenaLisp.Proofs.Creation
import ArenaLisp.Proofs.Recovery.Fatality
import ArenaLisp.Proofs.UnreadHistory

namespace ArenaLisp

/-!
# The console and the session agree

A text can be evaluated in two ways.  A session collects the texts of the values, and
forgets them if there is an error.  The console prints each of them at once, takes the
diagnostics and the journal in between, and decides by the error what becomes of the run.

What is compared is the course of the evaluation, which keeps the values that a session
forgets.  The console takes nothing that an evaluation would read, so both go through
the same course.
-/

/-- How a text was evaluated: the texts of the values, the way it ended, what it left. -/
structure Course where
  texts : List String
  ending : Except Error Unit
  final : Machine
  deriving Repr, DecidableEq

namespace Course

/-- What a session answers: the values are forgotten if there was an error. -/
def answer (course : Course) : Except Error (List String) × Machine :=
  (course.ending.map fun _ => course.texts, course.final)

/-- The course with one more value in front. -/
def startingWith (text : String) (course : Course) : Course :=
  { course with texts := text :: course.texts }

end Course

namespace Machine

/-- Evaluates what is left to a reader, and keeps the values even if there is an error. -/
def course (evaluator : Evaluator) (reader : Reader) (machine : Machine) : Option Course :=
  match _ : reader.nextExpression machine with
  | (.error error, after) => some ⟨[], .error error, after⟩
  | (.ok none, after) => some ⟨[], .ok (), after⟩
  | (.ok (some (expression, rest)), afterReading) =>
      match evaluateTopLevel evaluator expression afterReading with
      | none => none
      | some (.error error, after) => some ⟨[], .error error, after⟩
      | some (.ok value, after) =>
          (course evaluator rest after).map (Course.startingWith (after.heap.render value))
termination_by reader.text.length
decreasing_by exact Reader.nextExpression_shorter (congrArg Prod.fst ‹_›)

/-- A session answers with the course of its evaluation. -/
theorem evaluateRest_eq_course
    (evaluator : Evaluator)
    (reader : Reader)
    (machine : Machine) :
    evaluateRest evaluator reader machine =
      (course evaluator reader machine).map Course.answer := by
  fun_induction course evaluator reader machine with
  | case1 reader machine error after answered =>
      rw [evaluateRest_run, Run.bind_apply, Run.liftM_apply, answered]
      rfl
  | case2 reader machine after answered =>
      rw [evaluateRest_run, Run.bind_apply, Run.liftM_apply, answered]
      rfl
  | case3 reader machine expression rest afterReading answered exhausted =>
      rw [evaluateRest_run, Run.bind_apply, Run.liftM_apply, answered]
      simp only [concludeReading, Run.bind_apply, exhausted]
      rfl
  | case4 reader machine expression rest afterReading answered error after failed =>
      rw [evaluateRest_run, Run.bind_apply, Run.liftM_apply, answered]
      simp only [concludeReading, Run.bind_apply, failed]
      rfl
  | case5 reader machine expression rest afterReading answered value after evaluated
      inductionHypothesis =>
      rw [evaluateRest_run, Run.bind_apply, Run.liftM_apply, answered]
      simp only [concludeReading, Run.bind_apply, evaluated, concludeFirst, inductionHypothesis]
      rcases course evaluator rest after with _ | ⟨texts, _ | _, final⟩ <;> rfl

end Machine

namespace Console

open Machine

/-- Whether an emission is a record of the log. -/
def Emission.isRecord : Emission → Bool
  | .record _ => true
  | .prompt _ | .value _ | .failure _ => false

/-- What was emitted to the log. -/
def records (emissions : List Emission) : List Emission :=
  emissions.filter Emission.isRecord

/-- What was emitted apart from the log. -/
def unrecorded (emissions : List Emission) : List Emission :=
  emissions.filter fun emission => !emission.isRecord

/-- The records of a journal, those of the oldest events first. -/
def recordsOf (showCollections : Bool) (journal : List Event) : List Emission :=
  journal.reverse.filterMap (record? showCollections)

/-- What an outcome has not reported yet: a run that has ended has reported everything. -/
def Outcome.journal : Outcome → List Event
  | .ready machine => machine.journal
  | .ended _ => []

/-- What is printed about the way a text ended. -/
def closing : Except Error Unit → List Emission
  | .ok () => []
  | .error error => if error.isFatal then [fatal error] else [.failure error.message]

variable
  {showCollections : Bool}
  {seen new : List Event}
  {later : List Error}
  {machine final : Machine}

/-- The log of a machine is recorded, whatever is printed behind it. -/
theorem records_append_log (printed : List Emission) :
    records ((takeLog showCollections machine).1 ++ printed) =
      (takeLog showCollections machine).1 ++ records printed := by
  rw [records, List.filter_append]
  congr 1
  refine List.filter_eq_self.mpr fun emission member => ?_
  obtain ⟨text, rfl⟩ := exists_record_of_mem_takeLog member
  rfl

theorem unrecorded_append_log (printed : List Emission) :
    unrecorded ((takeLog showCollections machine).1 ++ printed) = unrecorded printed := by
  rw [unrecorded, List.filter_append, List.filter_eq_nil_iff.mpr, List.nil_append]
  · rfl
  · intro emission member
    obtain ⟨text, rfl⟩ := exists_record_of_mem_takeLog member
    simp [Emission.isRecord]

theorem recordsOf_append (newer older : List Event) :
    recordsOf showCollections (newer ++ older) =
      recordsOf showCollections older ++ recordsOf showCollections newer := by
  rw [recordsOf, List.reverse_append, List.filterMap_append]
  rfl

/-- What the console prints of the next expression, and what it does then. -/
theorem printRest_eq
    (evaluator : Evaluator)
    (reader : Reader)
    (machine : Machine) :
    printRest showCollections evaluator reader machine =
      match reader.nextExpression machine with
      | (.error error, after) =>
          if error.isFatal then
            ((takeLog showCollections after).1 ++ [fatal error], .ended failureStatus)
          else
            ((takeLog showCollections after).1 ++ [.failure error.message],
              .ready (takeLog showCollections after).2)
      | (.ok none, after) => ([], .ready after)
      | (.ok (some (expression, rest)), afterReading) =>
          match evaluateTopLevel evaluator expression afterReading with
          | none => ([tooDeep], .ended failureStatus)
          | some (.error error, after) =>
              ((takeLog showCollections after).1 ++ [fatal error], .ended failureStatus)
          | some (.ok value, after) =>
              let printed :=
                printRest showCollections evaluator rest (settled showCollections after)
              ((takeLog showCollections after).1 ++
                  .value (after.heap.render value) :: printed.1,
                printed.2) := by
  rw [printRest, Reader.nextExpression]
  split <;> rename_i answered <;> rw [answered]
  rfl

/--
What the console has printed about the course of an evaluation, given the events that it
had seen before.
-/
structure Shows
    (showCollections : Bool)
    (seen : List Event)
    (course : Course)
    (printed : List Emission × Outcome) :
    Prop where
  values : unrecorded printed.1 = course.texts.map .value ++ closing course.ending
  fatal :
    ∀ error,
      course.ending = .error error → error.isFatal = true → printed.2 = .ended failureStatus
  ready :
    (∀ error, course.ending = .error error → error.isFatal = false) →
    ∃ diagnostics journal, printed.2 = .ready (course.final.withHistory diagnostics journal)
  records :
    ∃ new,
      course.final.journal = new ++ seen ∧
        records printed.1 ++ recordsOf showCollections printed.2.journal =
          recordsOf showCollections new

namespace Shows

/-- The run ends exactly if the text has ended with a fatal error. -/
theorem ended_iff
    {course : Course}
    {printed : List Emission × Outcome}
    (shows : Shows showCollections seen course printed) :
    printed.2 = .ended failureStatus ↔
      ∃ error, course.ending = .error error ∧ error.isFatal = true := by
  constructor
  · intro ended
    by_contra noneFatal
    have recoverable : ∀ error, course.ending = .error error → error.isFatal = false :=
      fun error isError => Bool.eq_false_iff.mpr fun isFatal => noneFatal ⟨error, isError, isFatal⟩
    obtain ⟨_, _, ready⟩ := shows.ready recoverable
    rw [ended] at ready
    cases ready
  · rintro ⟨error, isError, isFatal⟩
    exact shows.fatal error isError isFatal

theorem done
    (noted : final.journal = new ++ seen) :
    Shows showCollections seen ⟨[], .ok (), final⟩ ([], .ready (final.withHistory later new)) where
  values := rfl
  fatal := by rintro _ ⟨⟩
  ready := fun _ => ⟨_, _, rfl⟩
  records := ⟨new, noted, rfl⟩

theorem ended
    {error : Error}
    (isFatal : error.isFatal = true)
    (noted : final.journal = new ++ seen) :
    Shows showCollections seen ⟨[], .error error, final⟩
      ((takeLog showCollections (final.withHistory later new)).1 ++ [Console.fatal error],
        .ended failureStatus) where
  values := by
    rw [unrecorded_append_log, closing, if_pos isFatal]
    rfl
  fatal := fun _ _ _ => rfl
  ready := by
    intro recoverable
    rw [recoverable error rfl] at isFatal
    cases isFatal
  records := by
    refine ⟨new, noted, ?_⟩
    rw [records_append_log, List.append_assoc]
    exact List.append_nil _

theorem failed
    {error : Error}
    (recoverable : error.isFatal = false)
    (noted : final.journal = new ++ seen) :
    Shows showCollections seen ⟨[], .error error, final⟩
      ((takeLog showCollections (final.withHistory later new)).1 ++ [.failure error.message],
        .ready (takeLog showCollections (final.withHistory later new)).2) where
  values := by
    rw [unrecorded_append_log, closing, recoverable]
    rfl
  fatal := by
    rintro _ ⟨⟩ isFatal
    rw [recoverable] at isFatal
    cases isFatal
  ready := fun _ => ⟨_, _, rfl⟩
  records := by
    refine ⟨new, noted, ?_⟩
    rw [records_append_log, List.append_assoc]
    exact List.append_nil _

/-- A value is printed behind what has happened since, and before all that follows. -/
theorem startingWith
    {course : Course}
    {printed : List Emission × Outcome}
    (shows : Shows showCollections (new ++ seen) course printed)
    (text : String) :
    Shows showCollections seen (course.startingWith text)
      ((takeLog showCollections (final.withHistory later new)).1 ++ .value text :: printed.1,
        printed.2) where
  values := by
    rw [unrecorded_append_log, unrecorded, List.filter_cons_of_pos rfl]
    exact congrArg (List.cons (.value text)) shows.values
  fatal := shows.fatal
  ready := shows.ready
  records := by
    obtain ⟨newer, noted, recorded⟩ := shows.records
    refine ⟨newer ++ new, by rw [List.append_assoc]; exact noted, ?_⟩
    rw [records_append_log, List.append_assoc, recordsOf_append, ← recorded]
    rfl

end Shows

/--
The console shows the course of an evaluation, though it goes through it with another
history: without what it has seen already.
-/
theorem printRest_shows
    {library : Library}
    {limit : Nat}
    {reader : Reader}
    {pending : List Event}
    {course : Course}
    (went : Machine.course (evaluator library limit) reader machine = some course)
    (runsOnly : machine.RunsOnly IsBuiltin)
    (noted : machine.journal = pending ++ seen)
    (diagnostics : List Error) :
    Shows showCollections seen course
      (printRest showCollections (evaluator library limit) reader
        (machine.withHistory diagnostics pending)) := by
  have never := Run.NeverReadsHistory.compositional
  have fatally := evaluateTopLevel_failsFatally (evaluator_failsFatally library limit)
  have reads
      {reader : Reader}
      {before after : Machine}
      (runsOnly : before.RunsOnly IsBuiltin)
      {pending seen : List Event}
      (noted : before.journal = pending ++ seen)
      (diagnostics : List Error)
      {found : Except Error (Option (Handle × Reader))}
      (answered : reader.nextExpression before = (found, after)) :
      ∃ new later,
        reader.nextExpression (before.withHistory diagnostics pending) =
            (found, after.withHistory later new) ∧
          after.journal = new ++ seen ∧
          after.RunsOnly IsBuiltin := by
    simpa [Run.liftM_apply] using
      (never.next reader).answers_alike runsOnly noted diagnostics (congrArg some answered)
  fun_induction Machine.course (evaluator library limit) reader machine
    generalizing course diagnostics pending seen with
  | case1 reader machine error after answered =>
      cases went
      obtain ⟨new, later, read, newer, _⟩ := reads runsOnly noted diagnostics answered
      rw [printRest_eq, read]
      cases severity : error.isFatal with
      | true =>
          simp only [severity, ↓reduceIte]
          exact .ended severity newer
      | false =>
          simp only [severity, Bool.false_eq_true, ↓reduceIte]
          exact .failed severity newer
  | case2 reader machine after answered =>
      cases went
      obtain ⟨new, later, read, newer, _⟩ := reads runsOnly noted diagnostics answered
      rw [printRest_eq, read]
      exact .done newer
  | case3 reader machine expression rest afterReading answered exhausted =>
      cases went
  | case4 reader machine expression rest afterReading answered error after evaluated =>
      cases went
      obtain ⟨_, between, read, newer, runsOnlyRead⟩ := reads runsOnly noted diagnostics answered
      obtain ⟨new, later, sameEvaluated, newest, _⟩ :=
        (never.evaluateTopLevel library limit expression).answers_alike runsOnlyRead newer
          between evaluated
      rw [printRest_eq, read]
      simp only [sameEvaluated]
      exact .ended (fatally expression _ _ _ evaluated) newest
  | case5 reader machine expression rest afterReading answered value after evaluated
      inductionHypothesis =>
      obtain ⟨restCourse, wentOn, rfl⟩ := Option.map_eq_some_iff.mp went
      obtain ⟨_, between, read, newer, runsOnlyRead⟩ := reads runsOnly noted diagnostics answered
      obtain ⟨new, later, sameEvaluated, newest, runsOnlyAfter⟩ :=
        (never.evaluateTopLevel library limit expression).answers_alike runsOnlyRead newer
          between evaluated
      rw [printRest_eq, read]
      simp only [sameEvaluated]
      -- The console has taken the log by now, so all that has happened counts as seen.
      have allSeen : after.journal = [] ++ (new ++ seen) := newest
      exact (inductionHypothesis wentOn runsOnlyAfter allSeen []).startingWith _

/--
Let the callables of a machine run builtin operations, and let a session answer on a text.
Then the console prints a line for each value that was found before the first error, in
the order of the session, and all its values if there is no error.  It ends the run with
status one exactly if the session fails with a fatal error.  Otherwise it leaves the
machine that the session leaves, with another history and nothing else changed.

What the console has reported, and what it has left to be reported, is what the journal of
the session reports: every recovered error, and on request every collection.
-/
theorem printText_agrees
    {machine : Machine}
    (runsOnly : machine.RunsOnly IsBuiltin)
    {library : Library}
    {limit : Nat}
    {text : String}
    {result : Except Error (List String)}
    {final : Machine}
    (answered :
      evaluateText (evaluator library limit) text machine = some (result, final))
    (showCollections : Bool) :
    let printed := printText showCollections (evaluator library limit) text machine
    ∃ texts ending,
      course (evaluator library limit) (Reader.ofString text) machine =
          some ⟨texts, ending, final⟩ ∧
        result = ending.map (fun _ => texts) ∧
        unrecorded printed.1 = texts.map .value ++ closing ending ∧
        (printed.2 = .ended 1 ↔ ∃ error, result = .error error ∧ error.isFatal = true) ∧
        ((∀ error, result = .error error → error.isFatal = false) →
          ∃ diagnostics journal,
            printed.2 = .ready (final.withHistory diagnostics journal)) ∧
        records printed.1 ++ recordsOf showCollections printed.2.journal =
          recordsOf showCollections final.journal := by
  intro printed
  rw [evaluateText, evaluateRest_eq_course, Option.map_eq_some_iff] at answered
  obtain ⟨⟨texts, ending, final⟩, went, isAnswer⟩ := answered
  cases isAnswer
  have shows : Shows showCollections [] ⟨texts, ending, final⟩ printed :=
    printRest_shows went runsOnly (List.append_nil _).symm machine.diagnostics
  have sameError
      (error : Error) :
      (ending.map fun _ => texts) = .error error ↔ ending = .error error := by
    cases ending <;> simp [Except.map]
  obtain ⟨new, noted, recorded⟩ := shows.records
  rw [List.append_nil] at noted
  rw [← noted] at recorded
  simp only [sameError]
  exact ⟨texts, ending, went, rfl, shows.values, shows.ended_iff, shows.ready, recorded⟩

/-- A name without a value, a number, and a parenthesis too many that hides a number. -/
theorem printText_agrees_closing :
    let machine := blank 3 1 false
    let printed := printText true (evaluator Library.empty 4) "z 5 ) 7" machine
    machine.RunsOnly IsBuiltin ∧
      ∃ final,
        evaluateText (evaluator Library.empty 4) "z 5 ) 7" machine =
            some (.error (.unreadable .unexpectedClose), final) ∧
          unrecorded printed.1 =
            [.value "", .value "5", .failure "read error: unexpected ')'"] ∧
          ∃ diagnostics journal,
            printed.2 = .ready (final.withHistory diagnostics journal) := by
  intro machine printed
  have runsOnly : machine.RunsOnly IsBuiltin :=
    (blank_orderly (by decide) 1 false).runsOnly
  have computed :
      (course (evaluator Library.empty 4) (Reader.ofString "z 5 ) 7") machine).map
          (fun course => (course.texts, course.ending)) =
        some (["", "5"], .error (.unreadable .unexpectedClose)) := by
    decide +kernel
  obtain ⟨⟨_, _, final⟩, went, isCourse⟩ := Option.map_eq_some_iff.mp computed
  cases isCourse
  have answered :
      evaluateText (evaluator Library.empty 4) "z 5 ) 7" machine =
        some (.error (.unreadable .unexpectedClose), final) := by
    rw [evaluateText, evaluateRest_eq_course, went]
    rfl
  obtain ⟨_, _, wentSo, _, values, _, ready, _⟩ := printText_agrees runsOnly answered true
  rw [went] at wentSo
  cases wentSo
  refine ⟨runsOnly, final, answered, values, ready ?_⟩
  rintro _ ⟨⟩
  rfl

end Console

end ArenaLisp
