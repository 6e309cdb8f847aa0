import ArenaLisp.Proofs.AllocationStability
import ArenaLisp.Proofs.SessionSafety
import ArenaLisp.Proofs.TwoRuns.Session
import ArenaLisp.Proofs.UnreadHistory

namespace ArenaLisp

/-!
# Sessions do not leak

A text that binds no name leaves a machine that mirrors the one it found, once the
diagnostics are taken: no entry is left on the stack, the bindings lead to the same
objects, and all else is garbage.  Mirrored machines answer every further text alike,
running out of memory included, so such texts can be repeated forever.
-/

namespace Machine

/-- The machine with other diagnostics. -/
def withDiagnostics (machine : Machine) (diagnostics : List Error) : Machine :=
  { machine with diagnostics }

/-- A machine on which texts were evaluated since it was created, none with an error. -/
inductive ReachedByTexts (library : Library) (configuration : Configuration) : Machine → Prop where
  | created
      {machine : Machine}
      (isNew : create configuration = .ok machine) :
      ReachedByTexts library configuration machine
  | evaluated
      {before after : Machine}
      {limit : Nat}
      {text : String}
      {values : List String}
      (reached : ReachedByTexts library configuration before)
      (enough : before.nestingLimit ≤ limit)
      (ran : evaluateText (evaluator library limit) text before = some (.ok values, after)) :
      ReachedByTexts library configuration after

/-- A text that a machine evaluates without an error and without binding a name. -/
def Quiet (evaluator : Evaluator) (machine : Machine) (text : String) : Prop :=
  ∃ values after events,
    evaluateText evaluator text machine = some (.ok values, after) ∧
      after.journal = events ++ machine.journal ∧
      BindsNothing events

/-- Whether a text is quiet can be found out by evaluating it. -/
instance Quiet.decidable
    (evaluator : Evaluator)
    (machine : Machine)
    (text : String) :
    Decidable (Quiet evaluator machine text) :=
  let newEvents (after : Machine) : List Event :=
    after.journal.take (after.journal.length - machine.journal.length)
  let evaluatesQuietly : Bool :=
    (evaluateText evaluator text machine).any fun (result, after) =>
      result.isOk ∧ after.journal = newEvents after ++ machine.journal ∧
        ∀ event ∈ newEvents after, boundName? event = none
  decidable_of_iff (evaluatesQuietly = true) <| by
    constructor
    · intro checked
      obtain ⟨⟨result, after⟩, ran, checked⟩ := (Option.any_eq_true _ _).mp checked
      obtain ⟨succeeds, journal, bindsNothing⟩ := of_decide_eq_true checked
      cases result with
      | ok values =>
          exact ⟨values, after, newEvents after, ran, journal, bindsNothing⟩
      | error error =>
          cases succeeds
    · rintro ⟨values, after, events, ran, journal, bindsNothing⟩
      have isNew : newEvents after = events := by
        simp [newEvents, journal]
      refine (Option.any_eq_true _ _).mpr ⟨_, ran, decide_eq_true ⟨rfl, ?_, ?_⟩⟩
      · rw [isNew]
        exact journal
      · rw [isNew]
        exact bindsNothing

/-- What a text is answered with: its result, and the diagnostics that it adds. -/
abbrev Reply : Type :=
  Except Error (List String) × List Error

/-- Evaluates a text; the diagnostics are taken before and after. -/
def reply (evaluator : Evaluator) (text : String) (machine : Machine) : Option (Reply × Machine) :=
  (evaluateText evaluator text machine.takeDiagnostics.2).map fun (result, after) =>
    ((result, after.takeDiagnostics.1), after.takeDiagnostics.2)

/-- Evaluates texts one after the other, each on the machine that the last one left. -/
def replies (evaluator : Evaluator) : List String → Machine → Option (List Reply × Machine)
  | [], machine => some ([], machine)
  | text :: rest, machine => do
      let (first, after) ← reply evaluator text machine
      let (others, final) ← replies evaluator rest after
      return (first :: others, final)

/-- A machine between two texts: nothing lies on its stack, and it stands for some world. -/
structure Idle (capacity : Nat) (machine : Machine) : Prop where
  orderly : machine.Orderly IsBuiltin
  noEntries : machine.stack.entries = []
  represents : ∃ world, Represents capacity machine world

variable
  {library : Library}
  {capacity limit : Nat}
  {machine base : Machine}
  {text : String}

theorem reply_of_evaluateText
    {evaluator : Evaluator}
    {result : Except Error (List String)}
    {after : Machine}
    (ran : evaluateText evaluator text (machine.withDiagnostics []) = some (result, after)) :
    reply evaluator text machine =
      some ((result, after.diagnostics), after.withDiagnostics []) := by
  have ranTaken : evaluateText evaluator text machine.takeDiagnostics.2 = some (result, after) :=
    ran
  rw [reply, ranTaken]
  rfl

theorem Idle.withDiagnostics
    (idle : Idle capacity machine) :
    Idle capacity (machine.withDiagnostics []) := by
  obtain ⟨world, represents⟩ := idle.represents
  refine ⟨idle.orderly.of_same rfl rfl rfl, idle.noEntries, { world with diagnostics := [] }, ?_⟩
  exact ⟨represents.capacity, represents.bindings, rfl, represents.eagerDefinitions⟩

/-- A text has an answer on an idle machine, and leaves it idle if it has no error. -/
theorem Idle.text_yields
    (idle : Idle capacity machine)
    (library : Library)
    (enough : capacity ≤ limit)
    (text : String) :
    (evaluateText (evaluator library limit) text).Yields machine fun result after =>
      ∀ values, result = .ok values → Idle capacity after := by
  obtain ⟨world, represents⟩ := idle.represents
  have refines :=
    @evaluateRest_refines _ _ _ library _ enough (Reader.ofString text) idle.orderly represents
  have leaves :=
    evaluateRest_leaves (disciplined_builtins library) limit (Reader.ofString text) idle.orderly
  refine (refines.and_ensures leaves).mono ?_
  rintro result after ⟨refines, leaves⟩ values rfl
  rcases refines with failed | ⟨_, representsAfter⟩
  · cases failed
  · exact ⟨leaves.orderly, (leaves.entries values rfl).trans idle.noEntries, _, representsAfter⟩

theorem ReachedByTexts.idle
    {configuration : Configuration}
    (reached : ReachedByTexts library configuration machine)
    (capacityBound : configuration.capacity ≤ Handle.bound) :
    Idle (max configuration.capacity 1) machine := by
  induction reached with
  | created isNew =>
      obtain ⟨orderly, represents⟩ := create_represents capacityBound isNew
      exact ⟨orderly, entries_create capacityBound isNew, _, represents⟩
  | @evaluated before after limit text values _ enough ran inductionHypothesis =>
      obtain ⟨world, represents⟩ := inductionHypothesis.represents
      have enoughSlots : max configuration.capacity 1 ≤ limit := by
        rw [← represents.capacity]
        exact Nat.le_of_succ_le enough
      obtain ⟨result, other, answered, isIdle⟩ :=
        inductionHypothesis.text_yields library enoughSlots text
      rw [ran] at answered
      cases answered
      exact isIdle values rfl

/-- What an idle machine reaches is reached from a single binding. -/
theorem Idle.exists_binding
    (idle : Idle capacity machine)
    {handle : Handle}
    (reached : machine.Reachable handle) :
    ∃ name value,
      machine.environment.get? name = some value ∧ machine.heap.Reaches [value] handle := by
  obtain ⟨root, member, fromRoot⟩ := reached.exists_root
  rcases mem_roots_iff.mp member with bound | entry
  · obtain ⟨name, found⟩ := Environment.mem_values_iff.mp bound
    exact ⟨name, root, found, fromRoot⟩
  · simp [idle.noEntries] at entry

/-- Machines that mirror each other do so with other diagnostics, the same for both. -/
theorem Mirrors.withDiagnostics
    {exact : Prop}
    {twin : Handle → Handle → Prop}
    {first second : Machine}
    (mirrors : Mirrors exact twin first second)
    (diagnostics : List Error) :
    Mirrors exact twin (first.withDiagnostics diagnostics) (second.withDiagnostics diagnostics) :=
  { mirrors with diagnostics := rfl }

/-- Machines of the same roots mirror each other if these reach the same, slot by slot. -/
theorem mirrored_of_same
    {first second : Machine}
    (wellFormed : second.WellFormed)
    (sameEntries : first.stack.entries = second.stack.entries)
    (sameBindings : ∀ name, first.environment.get? name = second.environment.get? name)
    (sameObjects :
      ∀ handle, second.Reachable handle → first.heap.get? handle = second.heap.get? handle)
    (sameEager : first.eagerDefinitions = second.eagerDefinitions)
    (sameDiagnostics : first.diagnostics = second.diagnostics)
    (sameCapacity : first.heap.capacity = second.heap.capacity) :
    Mirrored True first second := by
  refine ⟨fun handle other => handle = other ∧ second.Reachable other, ?_⟩
  refine
    { entries := ?_
      bindings := ?_
      objects := ?_
      oneToOne := ?_
      eagerDefinitions := sameEager
      diagnostics := sameDiagnostics
      notLarger := Nat.le_of_eq sameCapacity
      sameSize := fun _ => sameCapacity }
  · rw [sameEntries]
    refine List.forall₂_same.mpr fun entry member => ⟨rfl, ?_⟩
    exact reachable_of_entries (wellFormed.reaches_entry member)
  · intro name
    rw [sameBindings name]
    cases found : second.environment.get? name with
    | none =>
        exact .none
    | some value =>
        exact .some ⟨rfl, wellFormed.reachable_binding found⟩
  · rintro handle _ ⟨rfl, reached⟩
    obtain ⟨object, found⟩ := reached.exists_object
    refine ⟨object, object, (sameObjects handle reached).trans found, found, ?_⟩
    cases object with
    | pair car cdr =>
        obtain ⟨carReached, cdrReached⟩ := wellFormed.closed.reaches_parts reached found
        exact .pair ⟨rfl, carReached⟩ ⟨rfl, cdrReached⟩
    | nil | void | boolean | integer | symbol | function | specialForm =>
        exact .leaf rfl
  · rintro handle _ other _ ⟨rfl, _⟩ ⟨rfl, _⟩
    rfl

/-- Every slot that the bindings of an idle machine reach is its own twin after a quiet text. -/
theorem Idle.mirrored_of_quiet
    (idle : Idle capacity base)
    {after : Machine}
    {events : List Event}
    (spares : SparesBindings events base after)
    (bindsNothing : BindsNothing events)
    (noEntries : after.stack.entries = [])
    (sameEager : after.eagerDefinitions = base.eagerDefinitions)
    (sameCapacity : after.heap.capacity = base.heap.capacity) :
    Mirrored True (after.withDiagnostics []) (base.withDiagnostics []) := by
  have sameBindings
      (name : String) :
      after.environment.get? name = base.environment.get? name :=
    spares.others name (bindsNothing.not_boundIn name)
  have sameObjects
      (handle : Handle)
      (reached : base.Reachable handle) :
      after.heap.get? handle = base.heap.get? handle := by
    obtain ⟨name, value, found, fromValue⟩ := idle.exists_binding reached
    exact spares.keeps name value (bindsNothing.not_boundIn name) found handle fromValue
  exact mirrored_of_same idle.withDiagnostics.orderly.toWellFormed
    (noEntries.trans idle.noEntries.symm) sameBindings sameObjects sameEager rfl sameCapacity

/-- A quiet text leaves a machine that mirrors the one it found. -/
theorem Idle.quiet_mirrored
    (idle : Idle capacity base)
    (quiet : Quiet (evaluator library limit) base text) :
    ∃ values after,
      evaluateText (evaluator library limit) text (base.withDiagnostics []) =
          some (.ok values, after) ∧
        Mirrored True (after.withDiagnostics []) (base.withDiagnostics []) := by
  obtain ⟨values, after, events, ran, journal, bindsNothing⟩ := quiet
  have tame := idle.orderly.tame
  have steps :=
    OnlyEvaluates.compositional.evaluateRest library limit (Reader.ofString text) base tame _ after
      ran
  obtain ⟨stepEvents, spares⟩ := steps.sparesBindings tame
  obtain rfl : events = stepEvents :=
    List.append_cancel_right (journal.symm.trans spares.journal)
  obtain ⟨sameEager, sameCapacity⟩ := steps.constants tame
  have leaves := evaluateRest_leaves (disciplined_builtins library) limit (Reader.ofString text)
    idle.orderly _ after ran
  have mirrored :=
    idle.mirrored_of_quiet spares bindsNothing
      ((leaves.entries values rfl).trans idle.noEntries) sameEager sameCapacity
  -- Without diagnostics at the start the same happens, with other diagnostics at the end.
  have never :=
    Run.NeverReadsHistory.compositional.evaluateRest library limit (Reader.ofString text)
  obtain ⟨_, later, ranCleared, noted, _⟩ :=
    never.answers_alike idle.orderly.runsOnly (List.append_nil base.journal).symm [] ran
  rw [List.append_nil] at noted
  rw [← noted] at ranCleared
  exact ⟨values, after.withDiagnostics later, ranCleared, mirrored⟩

/-- What every text of a session finds: an idle machine that mirrors the one at the start. -/
structure Recurs (capacity : Nat) (base machine : Machine) : Prop where
  idle : Idle capacity machine
  mirrored : Mirrored True (machine.withDiagnostics []) (base.withDiagnostics [])

theorem Idle.recurs
    (idle : Idle capacity base) :
    Recurs capacity base base := by
  have alone : SparesBindings [] base base :=
    .of_same rfl bindsNothing_nil rfl (.refl _ _)
  exact ⟨idle, idle.mirrored_of_quiet alone bindsNothing_nil idle.noEntries rfl rfl⟩

/-- A quiet text is answered as on the machine at the start, which then recurs again. -/
theorem Recurs.reply
    (recurs : Recurs capacity base machine)
    (idle : Idle capacity base)
    (enough : capacity ≤ limit)
    (quiet : Quiet (evaluator library limit) base text) :
    ∃ values diagnostics after alone,
      reply (evaluator library limit) text machine =
          some ((.ok values, diagnostics), after) ∧
        reply (evaluator library limit) text base =
          some ((.ok values, diagnostics), alone) ∧
        Recurs capacity base after := by
  obtain ⟨twin, mirrors⟩ := recurs.mirrored
  have cleared := recurs.idle.withDiagnostics
  obtain ⟨values, alone, ranAlone, aloneMirrored⟩ := idle.quiet_mirrored quiet
  obtain ⟨result, after, ran, isIdle⟩ := cleared.text_yields library enough text
  have agrees :=
    evaluateRest_agrees library limit limit (Reader.ofString text) cleared.orderly
      idle.withDiagnostics.orderly mirrors _ _ ran ranAlone
  cases agrees with
  | exhausted both =>
      obtain ⟨_, failed, _⟩ := both trivial
      cases failed
  | returned same =>
      obtain ⟨rfl, _, mirrorsAfter⟩ := same
      obtain ⟨_, mirrorsStart⟩ := aloneMirrored
      have replyHere := reply_of_evaluateText ran
      rw [mirrorsAfter.diagnostics] at replyHere
      exact ⟨_, _, _, _, replyHere, reply_of_evaluateText ranAlone,
        (isIdle _ rfl).withDiagnostics, _, (mirrorsAfter.withDiagnostics []).trans mirrorsStart⟩

/-- Quiet texts, one after the other, are each answered as on the machine at the start. -/
theorem Recurs.replies
    (recurs : Recurs capacity base machine)
    (idle : Idle capacity base)
    (enough : capacity ≤ limit)
    (texts : List String)
    (quiet : ∀ text ∈ texts, Quiet (evaluator library limit) base text) :
    ∃ answers final,
      replies (evaluator library limit) texts machine = some (answers, final) ∧
        List.Forall₂
          (fun text answer =>
            (∃ values, answer.1 = .ok values) ∧
              ∃ alone, Machine.reply (evaluator library limit) text base = some (answer, alone))
          texts answers ∧
        Recurs capacity base final := by
  induction texts generalizing machine with
  | nil =>
      exact ⟨[], machine, rfl, .nil, recurs⟩
  | cons text rest inductionHypothesis =>
      obtain ⟨values, diagnostics, after, alone, here, there, recursAfter⟩ :=
        recurs.reply idle enough (quiet text List.mem_cons_self)
      obtain ⟨answers, final, others, each, recursFinal⟩ :=
        inductionHypothesis recursAfter fun other member =>
          quiet other (List.mem_cons_of_mem text member)
      refine ⟨(.ok values, diagnostics) :: answers, final, ?_,
        .cons ⟨⟨values, rfl⟩, alone, there⟩ each, recursFinal⟩
      rw [Machine.replies, here]
      simp only [Option.bind_eq_bind, Option.bind_some, others]
      rfl

/--
Sessions do not leak.  On a machine that was created and on which texts were evaluated
without an error, let each of some texts succeed without binding a name.  Then these
texts, repeated in any order and however often, all succeed, each with the same values
and the same diagnostics as on that machine alone.  A collection at the end leaves
exactly what the bindings reach.
-/
theorem sessions_do_not_leak
    (library : Library)
    {configuration : Configuration}
    (capacityBound : configuration.capacity ≤ Handle.bound)
    {base : Machine}
    (reached : ReachedByTexts library configuration base)
    {limit : Nat}
    (enough : base.nestingLimit ≤ limit)
    (texts : List String)
    (quiet : ∀ text ∈ texts, Quiet (evaluator library limit) base text) :
    ∃ answers final,
      replies (evaluator library limit) texts base = some (answers, final) ∧
        List.Forall₂
          (fun text answer =>
            (∃ values, answer.1 = .ok values) ∧
              ∃ alone, reply (evaluator library limit) text base = some (answer, alone))
          texts answers ∧
        ∃ freed collected,
          collect final = (.ok freed, collected) ∧
            collected.environment = final.environment ∧
            Heap.Keeps final.environment.values final.heap collected.heap ∧
            ∀ handle,
              collected.heap.isOccupied handle = true ↔
                final.heap.Reaches final.environment.values handle := by
  have idle := reached.idle capacityBound
  obtain ⟨world, represents⟩ := idle.represents
  have enoughSlots : max configuration.capacity 1 ≤ limit := by
    rw [← represents.capacity]
    exact Nat.le_of_succ_le enough
  obtain ⟨answers, final, ran, each, recurs⟩ :=
    idle.recurs.replies idle enoughSlots texts quiet
  obtain ⟨freed, collected, collects, occupied, survivors, frame, _⟩ :=
    collect_exact final recurs.idle.orderly.consistent.toCounted
  have noEntries : final.stack.bottomUp = [] := by
    rw [OperandStack.bottomUp, recurs.idle.noEntries]
    rfl
  have roots : final.roots = final.environment.values := by
    rw [Machine.roots, noEntries, List.append_nil]
  simp only [Reachable, roots] at occupied survivors
  refine ⟨answers, final, ran, each, freed, collected, collects, ?_, survivors, occupied⟩
  rw [frame]

/-- A machine on which one text was evaluated, and two texts that it evaluates quietly. -/
theorem exists_quiet_cramped :
    ∃ base,
      ReachedByTexts Library.empty cramped base ∧
        base.nestingLimit ≤ 17 ∧
        (∀ text ∈ ["(+ 1)", "z"], Quiet (evaluator Library.empty 17) base text) ∧
        (reply (evaluator Library.empty 17) "(+ 1)" base).map Prod.fst = some (.ok ["1"], []) ∧
        (reply (evaluator Library.empty 17) "z" base).map Prod.fst =
          some (.ok [""], [.unboundVariable "z"]) := by
  have evaluated :
      ((create cramped).toOption.bind (evaluateText (evaluator Library.empty 17) "y")).any
          (fun (result, base) =>
            result.isOk ∧
              base.nestingLimit ≤ 17 ∧
              (∀ text ∈ ["(+ 1)", "z"], Quiet (evaluator Library.empty 17) base text) ∧
              (reply (evaluator Library.empty 17) "(+ 1)" base).map Prod.fst =
                some (.ok ["1"], []) ∧
              (reply (evaluator Library.empty 17) "z" base).map Prod.fst =
                some (.ok [""], [.unboundVariable "z"])) =
        true := by
    decide +kernel
  obtain ⟨⟨result, base⟩, ran, checked⟩ := (Option.any_eq_true _ _).mp evaluated
  obtain ⟨succeeds, properties⟩ := of_decide_eq_true checked
  obtain ⟨machine, created⟩ := exists_create_cramped
  rw [created] at ran
  have nesting : machine.nestingLimit ≤ 17 := by
    rw [nestingLimit, (create_represents (by decide) created).2.capacity]
    decide
  cases result with
  | error error =>
      cases succeeds
  | ok values =>
      exact ⟨base, .evaluated (.created created) nesting ran, properties⟩

theorem sessions_do_not_leak_cramped :
    ∃ base final,
      ReachedByTexts Library.empty cramped base ∧
        (∀ text ∈ ["(+ 1)", "z"], Quiet (evaluator Library.empty 17) base text) ∧
        replies (evaluator Library.empty 17) ["(+ 1)", "z", "(+ 1)"] base =
          some ([(.ok ["1"], []), (.ok [""], [.unboundVariable "z"]), (.ok ["1"], [])], final) := by
  obtain ⟨base, reached, nesting, quiet, replyAdd, replyName⟩ := exists_quiet_cramped
  have quietAll :
      ∀ text ∈ ["(+ 1)", "z", "(+ 1)"], Quiet (evaluator Library.empty 17) base text :=
    fun text member => quiet text (by simpa [or_comm] using member)
  obtain ⟨answers, final, ran, each, _⟩ :=
    sessions_do_not_leak Library.empty (by decide) reached nesting ["(+ 1)", "z", "(+ 1)"] quietAll
  refine ⟨base, final, reached, quiet, ?_⟩
  rcases each with - | ⟨⟨_, _, first⟩, - | ⟨⟨_, _, second⟩, - | ⟨⟨_, _, third⟩, - | _⟩⟩⟩
  rw [first, Option.map_some, Option.some.injEq] at replyAdd
  rw [second, Option.map_some, Option.some.injEq] at replyName
  rw [first] at third
  cases third
  cases replyAdd
  cases replyName
  exact ran

end Machine

end ArenaLisp
