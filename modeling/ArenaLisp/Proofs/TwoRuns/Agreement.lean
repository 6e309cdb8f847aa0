import ArenaLisp.Proofs.TwoRuns.Mirror

namespace ArenaLisp

/-!
# Agreement of two runs

Two runs agree if the machines they leave mirror each other and their values are
twins, or if they fail with the same recoverable error.  The run on the smaller
machine may also run out of memory, whatever the other one does.  On machines of one
size both run out of memory, or neither does.

As for postconditions, there is one rule for each way to put runs together.
-/

namespace Machine

/-- Two machines that mirror each other by some twins. -/
def Mirrored (exact : Prop) (first second : Machine) : Prop :=
  ∃ twin, Mirrors exact twin first second

/-- Two values, on two machines, that are twins. -/
def Twinned
    (exact : Prop)
    (firstValue : Handle)
    (first : Machine)
    (secondValue : Handle)
    (second : Machine) :
    Prop :=
  ∃ twin, Mirrors exact twin first second ∧ twin firstValue secondValue

variable
  {exact : Prop}
  {First Second Result : Type}

/-- How the answers of two runs compare whose values are to be related in a given way. -/
inductive Outcome
    (exact : Prop)
    (returned : Result → Machine → Result → Machine → Prop) :
    Except Error Result × Machine → Except Error Result × Machine → Prop where
  | exhausted
      {first : Machine}
      {answer : Except Error Result × Machine}
      (both :
        exact →
        ∃ second,
          answer = (.error .outOfMemory, second) ∧ first.diagnostics = second.diagnostics) :
      Outcome exact returned (.error .outOfMemory, first) answer
  | failed
      {error : Error}
      {first second : Machine}
      (recoverable : error.isFatal = false)
      (mirrored : Mirrored exact first second) :
      Outcome exact returned (.error error, first) (.error error, second)
  | returned
      {firstValue secondValue : Result}
      {first second : Machine}
      (values : returned firstValue first secondValue second) :
      Outcome exact returned (.ok firstValue, first) (.ok secondValue, second)

namespace Outcome

variable
  {returned : Result → Machine → Result → Machine → Prop}
  {firstAnswer secondAnswer : Except Error Result × Machine}

/-- What is known of every answer may be used of the two values. -/
theorem and_always
    {firstAlways secondAlways : Except Error Result → Machine → Prop}
    (outcome : Outcome exact returned firstAnswer secondAnswer)
    (firstHolds : firstAlways firstAnswer.1 firstAnswer.2)
    (secondHolds : secondAlways secondAnswer.1 secondAnswer.2) :
    Outcome exact
      (fun firstValue first secondValue second =>
        returned firstValue first secondValue second ∧
          firstAlways (.ok firstValue) first ∧
          secondAlways (.ok secondValue) second)
      firstAnswer secondAnswer := by
  cases outcome with
  | exhausted both =>
      exact .exhausted both
  | failed recoverable mirrored =>
      exact .failed recoverable mirrored
  | returned values =>
      exact .returned ⟨values, firstHolds, secondHolds⟩

theorem mono
    {weaker : Result → Machine → Result → Machine → Prop}
    (outcome : Outcome exact returned firstAnswer secondAnswer)
    (weaken :
      ∀ firstValue first secondValue second,
        returned firstValue first secondValue second →
        weaker firstValue first secondValue second) :
    Outcome exact weaker firstAnswer secondAnswer := by
  cases outcome with
  | exhausted both =>
      exact .exhausted both
  | failed recoverable mirrored =>
      exact .failed recoverable mirrored
  | returned values =>
      exact .returned (weaken _ _ _ _ values)

/-- Steps in sequence agree if the second ones do after values of the first ones. -/
theorem bind
    {firstStep secondStep : Action First}
    {firstNext secondNext : First → Action Result}
    {first second : Machine}
    {between : First → Machine → First → Machine → Prop}
    (steps : Outcome exact between (firstStep first) (secondStep second))
    (nexts :
      ∀ firstValue firstAfter secondValue secondAfter,
        between firstValue firstAfter secondValue secondAfter →
        Outcome exact returned (firstNext firstValue firstAfter)
          (secondNext secondValue secondAfter)) :
    Outcome exact returned ((firstStep >>= firstNext) first)
      ((secondStep >>= secondNext) second) := by
  rw [Transition.bind_apply, Transition.bind_apply]
  generalize firstStep first = firstAnswer at steps ⊢
  generalize secondStep second = secondAnswer at steps ⊢
  cases steps with
  | exhausted both =>
      refine .exhausted fun isExact => ?_
      obtain ⟨secondAfter, rfl, sameDiagnostics⟩ := both isExact
      exact ⟨secondAfter, rfl, sameDiagnostics⟩
  | failed recoverable mirrored =>
      exact .failed recoverable mirrored
  | returned values =>
      exact nexts _ _ _ _ values

end Outcome

end Machine

namespace Run

open Machine

variable
  {exact : Prop}
  {First Result : Type}
  {first second : Machine}
  {returned : Result → Machine → Result → Machine → Prop}

/-- Whatever answers two runs give on two machines, they compare as required. -/
def Agrees
    (exact : Prop)
    (returned : Result → Machine → Result → Machine → Prop)
    (firstRun secondRun : Run Result)
    (first second : Machine) :
    Prop :=
  ∀ firstAnswer secondAnswer,
    firstRun first = some firstAnswer →
    secondRun second = some secondAnswer →
    Outcome exact returned firstAnswer secondAnswer

namespace Agrees

/-- Runs that come to the same as two others agree if those do. -/
theorem of_eq
    {firstRun firstOther secondRun secondOther : Run Result}
    {firstStart secondStart : Machine}
    (firstSame : firstRun first = firstOther firstStart)
    (secondSame : secondRun second = secondOther secondStart)
    (agrees : Agrees exact returned firstOther secondOther firstStart secondStart) :
    Agrees exact returned firstRun secondRun first second :=
  fun firstAnswer secondAnswer firstRan secondRan =>
    agrees firstAnswer secondAnswer (firstSame ▸ firstRan) (secondSame ▸ secondRan)

theorem of_answers
    {firstRun secondRun : Run Result}
    {firstAnswer secondAnswer : Except Error Result × Machine}
    (firstAnswered : firstRun first = some firstAnswer)
    (secondAnswered : secondRun second = some secondAnswer)
    (outcome : Outcome exact returned firstAnswer secondAnswer) :
    Agrees exact returned firstRun secondRun first second := by
  intro firstOther secondOther firstRan secondRan
  rw [firstAnswered, Option.some.injEq] at firstRan
  rw [secondAnswered, Option.some.injEq] at secondRan
  rwa [← firstRan, ← secondRan]

theorem pure
    {firstValue secondValue : Result}
    (values : returned firstValue first secondValue second) :
    Agrees exact returned (Pure.pure firstValue) (Pure.pure secondValue) first second :=
  .of_answers (pure_apply _ _) (pure_apply _ _) (.returned values)

theorem lift
    {firstAction secondAction : Action Result}
    (outcome : Outcome exact returned (firstAction first) (secondAction second)) :
    Agrees exact returned (liftM firstAction) (liftM secondAction) first second :=
  .of_answers (liftM_apply _ _) (liftM_apply _ _) outcome

theorem exhausted_left
    {secondRun : Run Result} :
    Agrees exact returned Run.exhausted secondRun first second := by
  intro _ _ firstRan _
  simp [Run.exhausted] at firstRan

theorem exhausted_right
    {firstRun : Run Result} :
    Agrees exact returned firstRun Run.exhausted first second := by
  intro _ _ _ secondRan
  simp [Run.exhausted] at secondRan

/--
Runs in sequence agree if the second ones do after values of the first ones.  What
is ensured on each side may be used in between.
-/
theorem bind
    {firstRun secondRun : Run First}
    {firstNext secondNext : First → Run Result}
    {between : First → Machine → First → Machine → Prop}
    {firstAlways secondAlways : Except Error First → Machine → Prop}
    (runs : Agrees exact between firstRun secondRun first second)
    (firstEnsures : firstRun.Ensures first firstAlways)
    (secondEnsures : secondRun.Ensures second secondAlways)
    (nexts :
      ∀ firstValue firstAfter secondValue secondAfter,
        between firstValue firstAfter secondValue secondAfter →
        firstAlways (.ok firstValue) firstAfter →
        secondAlways (.ok secondValue) secondAfter →
        Agrees exact returned (firstNext firstValue) (secondNext secondValue)
          firstAfter secondAfter) :
    Agrees exact returned (firstRun >>= firstNext) (secondRun >>= secondNext) first second := by
  intro firstFinal secondFinal firstRan secondRan
  rw [bind_apply] at firstRan secondRan
  cases firstStep : firstRun first with
  | none =>
      simp [firstStep] at firstRan
  | some firstAnswer =>
      cases secondStep : secondRun second with
      | none =>
          simp [secondStep] at secondRan
      | some secondAnswer =>
          have steps := (runs _ _ firstStep secondStep).and_always
            (firstEnsures _ _ firstStep) (secondEnsures _ _ secondStep)
          rw [firstStep] at firstRan
          rw [secondStep] at secondRan
          cases steps with
          | exhausted both =>
              cases firstRan
              refine .exhausted fun isExact => ?_
              obtain ⟨secondAfter, rfl, sameDiagnostics⟩ := both isExact
              cases secondRan
              exact ⟨secondAfter, rfl, sameDiagnostics⟩
          | failed recoverable mirrored =>
              cases firstRan
              cases secondRan
              exact .failed recoverable mirrored
          | returned values =>
              obtain ⟨related, firstHolds, secondHolds⟩ := values
              exact nexts _ _ _ _ related firstHolds secondHolds _ _ firstRan secondRan

/-- Steps that are known to succeed may be taken on both sides. -/
theorem bind_lift
    {firstAction secondAction : Action First}
    {firstNext secondNext : First → Run Result}
    {firstValue secondValue : First}
    {firstAfter secondAfter : Machine}
    (firstStep : firstAction first = (.ok firstValue, firstAfter))
    (secondStep : secondAction second = (.ok secondValue, secondAfter))
    (nexts :
      Agrees exact returned (firstNext firstValue) (secondNext secondValue)
        firstAfter secondAfter) :
    Agrees exact returned ((liftM firstAction : Run First) >>= firstNext)
      ((liftM secondAction : Run First) >>= secondNext) first second := by
  intro firstFinal secondFinal firstRan secondRan
  rw [bind_apply, liftM_apply, firstStep] at firstRan
  rw [bind_apply, liftM_apply, secondStep] at secondRan
  exact nexts _ _ firstRan secondRan

/-- Runs whose errors are recovered agree if the recoveries of the same error do. -/
theorem recovering
    {firstRun secondRun : Run Handle}
    {returned : Handle → Machine → Handle → Machine → Prop}
    {firstAlways secondAlways : Except Error Handle → Machine → Prop}
    (runs : Agrees exact returned firstRun secondRun first second)
    (firstEnsures : firstRun.Ensures first firstAlways)
    (secondEnsures : secondRun.Ensures second secondAlways)
    (recovers :
      ∀ error firstAfter secondAfter,
        error.isFatal = false →
        Mirrored exact firstAfter secondAfter →
        firstAlways (.error error) firstAfter →
        secondAlways (.error error) secondAfter →
        Outcome exact returned (recover error firstAfter) (recover error secondAfter)) :
    Agrees exact returned
      (tryCatch firstRun fun error => liftM (recover error) : Run Handle)
      (tryCatch secondRun fun error => liftM (recover error) : Run Handle) first second := by
  intro firstFinal secondFinal firstRan secondRan
  rw [tryCatch_apply] at firstRan secondRan
  cases firstStep : firstRun first with
  | none =>
      simp [firstStep] at firstRan
  | some firstAnswer =>
      cases secondStep : secondRun second with
      | none =>
          simp [secondStep] at secondRan
      | some secondAnswer =>
          have steps := runs _ _ firstStep secondStep
          have firstHolds := firstEnsures _ _ firstStep
          have secondHolds := secondEnsures _ _ secondStep
          rw [firstStep] at firstRan
          rw [secondStep] at secondRan
          cases steps with
          | exhausted both =>
              have passes
                  (machine : Machine) :
                  recover .outOfMemory machine = (.error .outOfMemory, machine) :=
                recover_fatal rfl machine
              simp only [liftM_apply, passes] at firstRan
              cases firstRan
              refine .exhausted fun isExact => ?_
              obtain ⟨secondAfter, rfl, sameDiagnostics⟩ := both isExact
              simp only [liftM_apply, passes] at secondRan
              cases secondRan
              exact ⟨secondAfter, rfl, sameDiagnostics⟩
          | failed recoverable mirrored =>
              have recovered := recovers _ _ _ recoverable mirrored firstHolds secondHolds
              cases firstRan
              cases secondRan
              exact recovered
          | returned values =>
              cases firstRan
              cases secondRan
              exact .returned values

end Agrees

end Run

end ArenaLisp
