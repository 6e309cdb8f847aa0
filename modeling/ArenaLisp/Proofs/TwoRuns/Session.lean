import ArenaLisp.Proofs.Reference.Session
import ArenaLisp.Proofs.TwoRuns.Evaluation
import ArenaLisp.Proofs.TwoRuns.Reading

namespace ArenaLisp

/-!
# Collections are not observable

Two fresh machines mirror each other, and so they do after every expression of a text.
What is printed does not depend on the slots of objects, so neither the threshold of
the collector nor more room than is needed makes a difference to it.
-/

namespace Machine

variable
  {exact : Prop}
  {twin : Handle → Handle → Prop}
  {first second : Machine}

/-- Machines that hold nothing mirror each other. -/
theorem blank_mirrors
    {firstCapacity secondCapacity : Nat}
    (notLarger : firstCapacity ≤ secondCapacity)
    (sameSize : exact → firstCapacity = secondCapacity)
    (firstThreshold secondThreshold : Nat)
    (eagerDefinitions : Bool) :
    Mirrors exact (fun _ _ => False) (blank firstCapacity firstThreshold eagerDefinitions)
      (blank secondCapacity secondThreshold eagerDefinitions) where
  entries := .nil
  bindings := fun _ => .none
  objects := fun _ _ impossible => impossible.elim
  oneToOne := fun _ _ _ _ impossible => impossible.elim
  eagerDefinitions := rfl
  diagnostics := rfl
  notLarger := by
    have firstSize := Heap.capacity_create firstCapacity firstThreshold
    have secondSize := Heap.capacity_create secondCapacity secondThreshold
    simp only [blank]
    rw [firstSize, secondSize]
    omega
  sameSize := by
    intro isExact
    have firstSize := Heap.capacity_create firstCapacity firstThreshold
    have secondSize := Heap.capacity_create secondCapacity secondThreshold
    simp only [blank]
    rw [firstSize, secondSize, sameSize isExact]

/-- Two steps have left mirrored machines that are orderly. -/
def Prepared
    (exact : Prop)
    {Result : Type}
    (_ : Result)
    (first : Machine)
    (_ : Result)
    (second : Machine) :
    Prop :=
  Mirrored exact first second ∧ first.Orderly IsBuiltin ∧ second.Orderly IsBuiltin

theorem install_orderly
    {machine : Machine}
    (orderly : machine.Orderly IsBuiltin)
    (builtin : Builtin) :
    (install builtin.callable machine).2.Orderly IsBuiltin := by
  rcases @install_cases IsBuiltin machine orderly builtin.callable ⟨builtin, rfl⟩ with
    ⟨failed, _⟩ | ⟨handle, placed, succeeded, isPlaced, _, placedOrderly, _⟩
  · rw [failed]
    exact orderly.reserved
  · rw [succeeded]
    exact placedOrderly.binding _ (Heap.isOccupied_of_get? isPlaced.found)

theorem install_agrees
    (firstOrderly : first.Orderly IsBuiltin)
    (secondOrderly : second.Orderly IsBuiltin)
    (mirrors : Mirrors exact twin first second)
    (builtin : Builtin) :
    Outcome exact (Prepared exact) (install builtin.callable first)
      (install builtin.callable second) := by
  have noHandles : builtin.callable.toObject.handles = [] := by
    cases builtin <;> rfl
  have installed :
      Outcome exact (Twinned exact) (install builtin.callable first)
        (install builtin.callable second) := by
    apply Outcome.bind (allocate_agrees mirrors firstOrderly.consistent secondOrderly.consistent
      noHandles)
    intro firstHandle firstAfter secondHandle secondAfter twinned
    obtain ⟨after, mirrorsAfter, twins⟩ := twinned
    exact .returned ⟨after, mirrorsAfter.binding _ twins, twins⟩
  have orderly :=
    @Outcome.and_always _ _ _ _ _ (fun _ machine => machine.Orderly IsBuiltin)
      (fun _ machine => machine.Orderly IsBuiltin) installed (install_orderly firstOrderly builtin)
      (install_orderly secondOrderly builtin)
  apply orderly.mono
  intro firstHandle firstAfter secondHandle secondAfter holds
  obtain ⟨⟨after, mirrorsAfter, _⟩, firstHolds, secondHolds⟩ := holds
  exact ⟨⟨after, mirrorsAfter⟩, firstHolds, secondHolds⟩

theorem installAll_agrees
    (firstOrderly : first.Orderly IsBuiltin)
    (secondOrderly : second.Orderly IsBuiltin)
    (mirrors : Mirrors exact twin first second)
    (builtins : List Builtin) :
    Outcome exact (Prepared exact) (installAll builtins first) (installAll builtins second) := by
  induction builtins generalizing first second twin with
  | nil =>
      exact .returned ⟨⟨twin, mirrors⟩, firstOrderly, secondOrderly⟩
  | cons builtin rest inductionHypothesis =>
      rw [installAll_cons, installAll_cons]
      apply Outcome.bind (install_agrees firstOrderly secondOrderly mirrors builtin)
      intro firstHandle firstAfter secondHandle secondAfter prepared
      obtain ⟨⟨after, mirrorsAfter⟩, firstAfterOrderly, secondAfterOrderly⟩ := prepared
      exact inductionHypothesis firstAfterOrderly secondAfterOrderly mirrorsAfter

theorem start_agrees
    {firstConfiguration secondConfiguration : Configuration}
    (firstBound : firstConfiguration.capacity ≤ Handle.bound)
    (secondBound : secondConfiguration.capacity ≤ Handle.bound)
    (sameEager :
      firstConfiguration.eagerDefinitions = secondConfiguration.eagerDefinitions)
    (notLarger : firstConfiguration.capacity ≤ secondConfiguration.capacity)
    (sameSize : exact → firstConfiguration.capacity = secondConfiguration.capacity) :
    Outcome exact (Prepared exact) (start firstConfiguration) (start secondConfiguration) := by
  have blanks :=
    blank_mirrors notLarger sameSize firstConfiguration.initialThreshold
      secondConfiguration.initialThreshold firstConfiguration.eagerDefinitions
  have agrees :=
    installAll_agrees (blank_orderly firstBound _ _) (blank_orderly secondBound _ _) blanks
      Builtin.all
  rw [start, start, ← sameEager]
  exact agrees

/-- The same texts, on mirrored machines. -/
def SameTexts
    (exact : Prop)
    (firstTexts : List String)
    (first : Machine)
    (secondTexts : List String)
    (second : Machine) :
    Prop :=
  firstTexts = secondTexts ∧ Mirrored exact first second

theorem evaluateRest_agrees
    (library : Library)
    (firstLimit secondLimit : Nat)
    (reader : Reader)
    (firstOrderly : first.Orderly IsBuiltin)
    (secondOrderly : second.Orderly IsBuiltin)
    (mirrors : Mirrors exact twin first second) :
    Run.Agrees exact (SameTexts exact) (evaluateRest (evaluator library firstLimit) reader)
      (evaluateRest (evaluator library secondLimit) reader) first second := by
  have disciplined := disciplined_builtins library
  induction size : reader.text.length using Nat.strongRecOn
    generalizing reader first second twin with
  | ind size inductionHypothesis =>
      subst size
      apply Run.Agrees.of_eq (evaluateRest_eq _ reader first) (evaluateRest_eq _ reader second)
      have shorter :
          (liftM reader.nextExpression : Run (Option (Handle × Reader))).Ensures first
            fun result _ =>
              ∀ expression rest,
                result = .ok (some (expression, rest)) →
                rest.text.length < reader.text.length :=
        .lift fun _ _ answered => Reader.nextExpression_shorter answered
      apply Run.Agrees.bind
        (.lift (Reader.nextExpression_agrees reader firstOrderly secondOrderly mirrors))
        shorter .anything
      intro firstNext firstAfter secondNext secondAfter foundNext restShorter _
      cases foundNext with
      | done mirrored =>
          exact .pure ⟨rfl, mirrored⟩
      | @expression firstFound secondFound _ _ found =>
          obtain ⟨firstExpression, rest⟩ := firstFound
          obtain ⟨secondExpression, secondRest⟩ := secondFound
          obtain ⟨⟨after, mirrorsAfter, expressions⟩, firstRead, secondRead, sameRest⟩ := found
          cases sameRest
          have occupied := mirrorsAfter.isOccupied expressions
          apply Run.Agrees.bind
            (evaluateTopLevel_agrees library firstLimit secondLimit firstRead secondRead
              mirrorsAfter expressions)
            (evaluateTopLevel_answers (evaluator_safe disciplined firstLimit) firstRead occupied.1)
            (evaluateTopLevel_answers (evaluator_safe disciplined secondLimit) secondRead
              occupied.2)
          intro firstValue firstFinal secondValue secondFinal twinned firstAnswers secondAnswers
          obtain ⟨final, mirrorsFinal, values⟩ := twinned
          have rests :=
            inductionHypothesis _ (restShorter firstExpression rest rfl) rest
              firstAnswers.orderly secondAnswers.orderly mirrorsFinal rfl
          apply Run.Agrees.of_eq (concludeFirst_eq _ rest firstValue firstFinal)
            (concludeFirst_eq _ rest secondValue secondFinal)
          apply Run.Agrees.bind rests .anything .anything
          intro firstTexts firstEnd secondTexts secondEnd same _ _
          obtain ⟨rfl, mirrored⟩ := same
          rw [mirrorsFinal.render_eq values]
          exact .pure ⟨rfl, mirrored⟩

/-- What a fresh machine answers to a text, and the diagnostics that it leaves. -/
def transcript
    (library : Library)
    (configuration : Configuration)
    (text : String) :
    Option (Except Error (List String) × List Error) :=
  match create configuration with
  | .error error => some (.error error, [])
  | .ok machine =>
      (evaluateText (evaluator library machine.nestingLimit) text machine).map
        fun (result, after) => (result, after.takeDiagnostics.1)

theorem exists_transcript
    (library : Library)
    {configuration : Configuration}
    (capacityBound : configuration.capacity ≤ Handle.bound)
    (text : String) :
    ∃ answer, transcript library configuration text = some answer := by
  unfold transcript
  cases created : create configuration with
  | error error =>
      exact ⟨_, rfl⟩
  | ok machine =>
      obtain ⟨orderly, represents⟩ := create_represents capacityBound created
      have enough : max configuration.capacity 1 ≤ machine.nestingLimit := by
        rw [nestingLimit, represents.capacity]
        exact Nat.le_succ _
      obtain ⟨result, after, answered, _⟩ :=
        @evaluateRest_refines _ _ _ library _ enough (Reader.ofString text) orderly represents
      refine ⟨(result, after.takeDiagnostics.1), ?_⟩
      simp only [evaluateText, answered, Option.map_some]

/-- Two transcripts are the same, unless the first run lacked memory that the second had. -/
def Comparable (exact : Prop) (first second : Except Error (List String) × List Error) : Prop :=
  (exact ∨ first.1 ≠ .error .outOfMemory) → first = second

theorem Outcome.comparable
    {firstAnswer secondAnswer : Except Error (List String) × Machine}
    (outcome : Outcome exact (SameTexts exact) firstAnswer secondAnswer) :
    Comparable exact (firstAnswer.1, firstAnswer.2.takeDiagnostics.1)
      (secondAnswer.1, secondAnswer.2.takeDiagnostics.1) := by
  intro condition
  cases outcome with
  | exhausted both =>
      rcases condition with isExact | notExhausted
      · obtain ⟨secondAfter, rfl, sameDiagnostics⟩ := both isExact
        exact congrArg (Prod.mk _) sameDiagnostics
      · exact absurd rfl notExhausted
  | failed _ mirrored =>
      obtain ⟨after, mirrors⟩ := mirrored
      exact congrArg (Prod.mk _) mirrors.diagnostics
  | returned same =>
      obtain ⟨rfl, after, mirrors⟩ := same
      exact congrArg (Prod.mk _) mirrors.diagnostics

theorem transcripts_comparable
    (library : Library)
    {firstConfiguration secondConfiguration : Configuration}
    (firstBound : firstConfiguration.capacity ≤ Handle.bound)
    (secondBound : secondConfiguration.capacity ≤ Handle.bound)
    (sameEager :
      firstConfiguration.eagerDefinitions = secondConfiguration.eagerDefinitions)
    (notLarger : firstConfiguration.capacity ≤ secondConfiguration.capacity)
    (text : String)
    {firstAnswer secondAnswer : Except Error (List String) × List Error}
    (firstAnswered : transcript library firstConfiguration text = some firstAnswer)
    (secondAnswered : transcript library secondConfiguration text = some secondAnswer) :
    Comparable (firstConfiguration.capacity = secondConfiguration.capacity)
      firstAnswer secondAnswer := by
  have starts :=
    @start_agrees (firstConfiguration.capacity = secondConfiguration.capacity) _ _ firstBound
      secondBound sameEager notLarger id
  rw [transcript, create] at firstAnswered secondAnswered
  generalize start firstConfiguration = firstStart at starts firstAnswered
  generalize start secondConfiguration = secondStart at starts secondAnswered
  cases starts with
  | exhausted both =>
      cases firstAnswered
      intro condition
      rcases condition with isExact | notExhausted
      · obtain ⟨secondAfter, rfl, _⟩ := both isExact
        cases secondAnswered
        rfl
      · exact absurd rfl notExhausted
  | failed _ _ =>
      cases firstAnswered
      cases secondAnswered
      exact fun _ => rfl
  | @returned _ _ firstMachine secondMachine prepared =>
      obtain ⟨⟨twin, mirrors⟩, firstOrderly, secondOrderly⟩ := prepared
      obtain ⟨firstEnd, firstRan, rfl⟩ := Option.map_eq_some_iff.mp firstAnswered
      obtain ⟨secondEnd, secondRan, rfl⟩ := Option.map_eq_some_iff.mp secondAnswered
      have agrees :=
        evaluateRest_agrees library firstMachine.nestingLimit secondMachine.nestingLimit
          (Reader.ofString text) firstOrderly secondOrderly mirrors
      exact (agrees _ _ firstRan secondRan).comparable

/--
Collections are not observable.  Every text has a transcript on every fresh machine.
On machines of one size it is the same, memory running out included, whatever the
thresholds are.  On a larger machine it is the same if the smaller one had enough
memory.
-/
theorem transcript_independent
    (library : Library)
    {firstConfiguration secondConfiguration : Configuration}
    (firstBound : firstConfiguration.capacity ≤ Handle.bound)
    (secondBound : secondConfiguration.capacity ≤ Handle.bound)
    (sameEager :
      firstConfiguration.eagerDefinitions = secondConfiguration.eagerDefinitions)
    (text : String) :
    ∃ firstResult firstDiagnostics secondResult secondDiagnostics,
      transcript library firstConfiguration text = some (firstResult, firstDiagnostics) ∧
        transcript library secondConfiguration text = some (secondResult, secondDiagnostics) ∧
        (firstConfiguration.capacity = secondConfiguration.capacity →
          firstResult = secondResult ∧ firstDiagnostics = secondDiagnostics) ∧
        (firstConfiguration.capacity < secondConfiguration.capacity →
          firstResult ≠ .error .outOfMemory →
          firstResult = secondResult ∧ firstDiagnostics = secondDiagnostics) := by
  obtain ⟨⟨firstResult, firstDiagnostics⟩, firstAnswered⟩ :=
    exists_transcript library firstBound text
  obtain ⟨⟨secondResult, secondDiagnostics⟩, secondAnswered⟩ :=
    exists_transcript library secondBound text
  have comparable
      (notLarger : firstConfiguration.capacity ≤ secondConfiguration.capacity)
      (condition :
        firstConfiguration.capacity = secondConfiguration.capacity ∨
          firstResult ≠ .error .outOfMemory) :
      firstResult = secondResult ∧ firstDiagnostics = secondDiagnostics :=
    Prod.mk.inj (transcripts_comparable library firstBound secondBound sameEager notLarger text
      firstAnswered secondAnswered condition)
  refine ⟨firstResult, firstDiagnostics, secondResult, secondDiagnostics, firstAnswered,
    secondAnswered, ?_, ?_⟩
  · intro sameCapacity
    exact comparable (Nat.le_of_eq sameCapacity) (.inl sameCapacity)
  · intro smaller enoughMemory
    exact comparable (Nat.le_of_lt smaller) (.inr enoughMemory)

/-- A configuration of the same size as `cramped` whose machine collects much earlier. -/
def hasty : Configuration where
  capacity := 16
  initialThreshold := 1
  eagerDefinitions := true

theorem transcript_independent_hasty :
    cramped.capacity ≤ Handle.bound ∧
      hasty.capacity ≤ Handle.bound ∧
      cramped.eagerDefinitions = hasty.eagerDefinitions ∧
      ∃ result diagnostics,
        transcript Library.empty cramped "(define x (+ 1 2)) x y" = some (result, diagnostics) ∧
          transcript Library.empty hasty "(define x (+ 1 2)) x y" =
            some (result, diagnostics) := by
  have crampedBound : cramped.capacity ≤ Handle.bound := by
    decide
  have hastyBound : hasty.capacity ≤ Handle.bound := by
    decide
  obtain ⟨result, diagnostics, _, _, crampedAnswered, hastyAnswered, same, _⟩ :=
    transcript_independent Library.empty crampedBound hastyBound rfl "(define x (+ 1 2)) x y"
  obtain ⟨rfl, rfl⟩ := same rfl
  exact ⟨crampedBound, hastyBound, rfl, result, diagnostics, crampedAnswered, hastyAnswered⟩

end Machine

end ArenaLisp
