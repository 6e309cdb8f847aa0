import ArenaLisp.Console.Printing
import ArenaLisp.Proofs.ElementarySteps
import ArenaLisp.Proofs.EvaluationSafety
import ArenaLisp.Proofs.Reading.Building
import ArenaLisp.Proofs.Reading.Front

namespace ArenaLisp

/-!
# Interpreting a text in parts

A text that is interpreted to its end closes the lists that it opens.  If its front
does so too, and ends a line, the text can be interpreted in two parts: first the
front, then the rest on the machine that the front has left.
-/

namespace Console

open Machine Reader

/-- Whether an emission describes an error that ended a text or the run. -/
def Emission.isFailure : Emission → Bool
  | .failure _ => true
  | .prompt _ | .value _ | .record _ => false

/-- The machine that the next expression finds: log and diagnostics have been taken. -/
def settled (showCollections : Bool) (machine : Machine) : Machine :=
  (takeLog showCollections machine).2.takeDiagnostics.2

/-- A text is read to its end and evaluated without a fatal error, with these emissions. -/
structure Interprets
    (showCollections : Bool)
    (evaluator : Evaluator)
    (text : List Char)
    (machine : Machine)
    (emissions : List Emission)
    (final : Machine) :
    Prop where
  printed : printRest showCollections evaluator ⟨text⟩ machine = (emissions, .ready final)
  noFailure : ∀ emission ∈ emissions, emission.isFailure = false

variable
  {showCollections : Bool}
  {evaluator : Evaluator}
  {text : List Char}
  {machine final : Machine}
  {emissions : List Emission}

theorem printRest_done
    (isEmpty : Token.skip text = []) :
    printRest showCollections evaluator ⟨text⟩ machine = ([], .ready machine) := by
  have answered : read ⟨text⟩ machine = ((.ok none, ⟨[]⟩), machine) :=
    read_done_iff.mpr ⟨isEmpty, rfl, rfl⟩
  rw [printRest]
  split <;> rename_i otherwise <;> rw [answered] at otherwise <;> cases otherwise
  rfl

/-- A text whose first expression has a value emits that before the rest is interpreted. -/
theorem printRest_expression
    {handle value : Handle}
    {rest : Reader}
    {read after : Machine}
    (answered : readOn [] text machine = ((.ok handle, rest), read))
    (evaluated : Machine.evaluateTopLevel evaluator handle read = some (.ok value, after)) :
    printRest showCollections evaluator ⟨text⟩ machine =
      ((takeLog showCollections after).1 ++ .value (after.heap.render value) ::
          (printRest showCollections evaluator rest (settled showCollections after)).1,
        (printRest showCollections evaluator rest (settled showCollections after)).2) := by
  have isRead := (@read_object_iff machine read handle rest ⟨text⟩).mpr answered
  rw [printRest]
  split <;> rename_i otherwise <;> rw [isRead] at otherwise <;> cases otherwise
  rw [evaluated]
  rfl

/-- A text that is interpreted has no tokens, or its first expression has a value. -/
theorem Interprets.cases
    (interprets : Interprets showCollections evaluator text machine emissions final) :
    (Token.skip text = [] ∧ emissions = [] ∧ final = machine) ∨
      ∃ handle rest read value after later,
        readOn [] text machine = ((.ok handle, rest), read) ∧
          Machine.evaluateTopLevel evaluator handle read = some (.ok value, after) ∧
          emissions =
            (takeLog showCollections after).1 ++ .value (after.heap.render value) :: later ∧
          Interprets showCollections evaluator rest.text (settled showCollections after) later
            final := by
  obtain ⟨printed, noFailure⟩ := interprets
  rw [printRest] at printed
  split at printed
  · -- An unreadable text fails, or ends the run.
    split at printed
    · cases printed
    · cases printed
      have fails := noFailure _ (List.mem_append_right _ List.mem_cons_self)
      cases fails
  · rename_i answered
    obtain ⟨isEmpty, _, rfl⟩ := read_done_iff.mp answered
    cases printed
    exact .inl ⟨isEmpty, rfl, rfl⟩
  · rename_i handle rest read answered
    split at printed
    · cases printed
    · cases printed
    · rename_i value after evaluated
      obtain ⟨isEmissions, isFinal⟩ := Prod.mk.inj printed
      refine .inr ⟨handle, rest, read, value, after, _, read_object_iff.mp answered, evaluated,
        isEmissions.symm, ?_, ?_⟩
      · exact Prod.ext rfl isFinal
      · intro emission member
        refine noFailure emission ?_
        rw [← isEmissions]
        exact List.mem_append_right _ (List.mem_cons_of_mem _ member)

theorem interprets_done
    (isEmpty : Token.skip text = []) :
    Interprets showCollections evaluator text machine [] machine :=
  ⟨printRest_done isEmpty, by rintro _ ⟨⟩⟩

/-- The log is made of records. -/
theorem exists_record_of_mem_takeLog
    {emission : Emission}
    (member : emission ∈ (takeLog showCollections machine).1) :
    ∃ text, emission = .record text := by
  obtain ⟨event, _, isRecord⟩ := List.mem_filterMap.mp member
  cases event with
  | recovered error =>
      cases isRecord
      exact ⟨_, rfl⟩
  | collected summary =>
      cases showCollections <;> cases isRecord
      exact ⟨_, rfl⟩
  | placed | bound | evaluating =>
      cases isRecord

theorem Interprets.expression
    {handle value : Handle}
    {rest : Reader}
    {read after : Machine}
    {later : List Emission}
    (rests :
      Interprets showCollections evaluator rest.text (settled showCollections after) later
        final)
    (answered : readOn [] text machine = ((.ok handle, rest), read))
    (evaluated : Machine.evaluateTopLevel evaluator handle read = some (.ok value, after)) :
    Interprets showCollections evaluator text machine
      ((takeLog showCollections after).1 ++ .value (after.heap.render value) :: later)
      final where
  printed := by
    rw [printRest_expression answered evaluated, rests.printed]
  noFailure := by
    intro emission member
    rcases List.mem_append.mp member with logged | printed
    · obtain ⟨record, rfl⟩ := exists_record_of_mem_takeLog logged
      rfl
    · rcases List.mem_cons.mp printed with rfl | isLater
      · rfl
      · exact rests.noFailure emission isLater

/--
Induction on a text that is interpreted: it has no tokens, or what is said of it
follows from what is said of the text behind its first expression.
-/
@[elab_as_elim]
theorem Interprets.induction
    {motive :
      ∀ text machine emissions,
        Interprets showCollections evaluator text machine emissions final → Prop}
    (done :
      ∀ text (isEmpty : Token.skip text = []), motive text final [] (interprets_done isEmpty))
    (expression :
      ∀ text machine handle rest read value after later
        (answered : readOn [] text machine = ((.ok handle, rest), read))
        (evaluated :
          Machine.evaluateTopLevel evaluator handle read = some (.ok value, after))
        (rests :
          Interprets showCollections evaluator rest.text (settled showCollections after) later
            final),
        motive _ _ _ rests →
        motive text machine _ (rests.expression answered evaluated))
    (interprets : Interprets showCollections evaluator text machine emissions final) :
    motive text machine emissions interprets := by
  induction size : text.length using Nat.strongRecOn generalizing text machine emissions with
  | ind size inductionHypothesis =>
      subst size
      rcases interprets.cases with
        ⟨isEmpty, rfl, rfl⟩ |
          ⟨handle, rest, read, value, after, later, answered, evaluated, rfl, rests⟩
      · exact done text isEmpty
      · exact expression text machine handle rest read value after later answered evaluated rests
          (inductionHypothesis _ (length_lt_of_readOn answered) rests rfl)

/-- Separators and comments in front are not interpreted. -/
theorem Interprets.of_skip_eq
    {other : List Char}
    (interprets : Interprets showCollections evaluator text machine emissions final)
    (sameSkip : Token.skip text = Token.skip other) :
    Interprets showCollections evaluator other machine emissions final := by
  rcases interprets.cases with
    ⟨isEmpty, rfl, rfl⟩ |
      ⟨handle, rest, read, value, after, later, answered, evaluated, rfl, rests⟩
  · exact interprets_done (sameSkip ▸ isEmpty)
  · rw [← readOn_skip, sameSkip, readOn_skip] at answered
    exact rests.expression answered evaluated

theorem Interprets.closes
    (interprets : Interprets showCollections evaluator text machine emissions final) :
    Closes text := by
  induction interprets using Interprets.induction with
  | done text isEmpty =>
      rw [Closes, Token.all_none (Token.next?_eq_none_iff.mpr isEmpty)]
      rfl
  | expression text machine handle rest read value after later answered _ _ restCloses =>
      exact (depthAfter_of_readOn answered).trans restCloses

/-- Lines that close their lists are interpreted before what follows them. -/
theorem Interprets.split_lines
    {behind : List Char}
    (interprets : Interprets showCollections evaluator (text ++ behind) machine emissions final)
    (ends : Token.EndsLine text)
    (closes : Closes text) :
    ∃ front between later,
      Interprets showCollections evaluator text machine front between ∧
        Interprets showCollections evaluator behind between later final ∧
        emissions = front ++ later := by
  generalize isWhole : text ++ behind = whole at interprets
  induction interprets using Interprets.induction generalizing text with
  | done whole isEmpty =>
      subst isWhole
      cases found : Token.next? text with
      | none =>
          have sameSkip : Token.skip (text ++ behind) = Token.skip behind :=
            Token.skip_append ends (Token.next?_eq_none_iff.mp found) behind
          exact ⟨[], final, [], interprets_done (Token.next?_eq_none_iff.mp found),
            interprets_done (sameSkip ▸ isEmpty), rfl⟩
      | some step =>
          have foundAll := Token.next?_append ends found behind
          rw [Token.next?_eq_none_iff.mpr isEmpty] at foundAll
          cases foundAll
  | expression whole machine handle rest read value after later answered evaluated rests
      inductionHypothesis =>
      subst isWhole
      by_cases isEmpty : Token.skip text = []
      · have sameSkip : Token.skip (text ++ behind) = Token.skip behind :=
          Token.skip_append ends isEmpty behind
        exact ⟨[], machine, _, interprets_done isEmpty,
          (rests.expression answered evaluated).of_skip_eq sameSkip, rfl⟩
      have someToken : Token.next? text ≠ none :=
        fun noToken => isEmpty (Token.next?_eq_none_iff.mp noToken)
      obtain ⟨left, rfl, answeredFront, endsLeft, closesLeft⟩ :=
        @readOn_append _ _ [] _ _ _ _ ends closes (.inr someToken) answered
      obtain ⟨front, between, last, frontInterprets, restInterprets, rfl⟩ :=
        inductionHypothesis endsLeft closesLeft rfl
      refine ⟨_, between, last, frontInterprets.expression answeredFront evaluated,
        restInterprets, ?_⟩
      rw [List.append_assoc, List.cons_append]

/-- Interpreting a front and then the rest comes to the same as interpreting the whole. -/
theorem Interprets.split
    {behind : List Char}
    (interprets : Interprets showCollections evaluator (text ++ behind) machine emissions final)
    (ends : Token.EndsLine text ∨ behind = [])
    (closes : Closes text) :
    ∃ front between later,
      Interprets showCollections evaluator text machine front between ∧
        Interprets showCollections evaluator behind between later final ∧
        emissions = front ++ later := by
  rcases ends with endsLine | rfl
  · exact interprets.split_lines endsLine closes
  · rw [List.append_nil] at interprets
    exact ⟨emissions, final, [], interprets, interprets_done rfl, (List.append_nil _).symm⟩

/-- The front of a text that is interpreted never closes a list that is not open. -/
theorem Interprets.exists_depth
    {behind : List Char}
    (interprets : Interprets showCollections evaluator (text ++ behind) machine emissions final)
    (ends : Token.EndsLine text ∨ behind = []) :
    ∃ depth,
      Token.depthAfter 0 (Token.all text) = some depth ∧ (behind = [] → depth = 0) := by
  have closes := interprets.closes
  rcases ends with endsLine | rfl
  · rw [Closes, Token.all_append endsLine] at closes
    obtain ⟨depth, front, rest⟩ := Token.exists_depthAfter_of_append closes
    refine ⟨depth, front, ?_⟩
    rintro rfl
    rw [Token.all_none rfl] at rest
    exact Option.some.inj rest
  · rw [List.append_nil] at closes
    exact ⟨0, closes, fun _ => rfl⟩

theorem settled_orderly
    (orderly : machine.Orderly IsBuiltin)
    (showCollections : Bool) :
    (settled showCollections machine).Orderly IsBuiltin :=
  orderly.of_same rfl rfl rfl

/-- Reading and evaluating one expression leaves a machine of the same size in order. -/
theorem evaluated_keeps
    {limit : Nat}
    {handle value : Handle}
    {rest : Reader}
    {read after : Machine}
    (orderly : machine.Orderly IsBuiltin)
    (answered : readOn [] text machine = ((.ok handle, rest), read))
    (evaluated :
      Machine.evaluateTopLevel (ArenaLisp.evaluator Library.empty limit) handle read =
        some (.ok value, after)) :
    after.Orderly IsBuiltin ∧ after.heap.capacity = machine.heap.capacity := by
  obtain ⟨holds, delivers⟩ := Reader.read_delivers orderly ⟨text⟩
  have readCapacity := (holds.allocates.sameSurroundings orderly.tame).capacity
  have readOrderly := holds.orderly
  rw [(@read_object_iff machine read handle rest ⟨text⟩).mpr answered] at *
  generalize Reference.readNext text = next at delivers
  cases delivers with
  | object unfolds =>
      obtain ⟨object, found⟩ := unfolds.exists_object
      have safe := Machine.evaluator_safe (Machine.disciplined_builtins Library.empty) limit
      have answers :=
        Machine.evaluateTopLevel_answers safe readOrderly (Heap.isOccupied_of_get? found) _ after
          evaluated
      have steps :=
        Machine.OnlyEvaluates.compositional.evaluateTopLevel Library.empty limit handle read
          readOrderly.tame _ after evaluated
      exact ⟨answers.orderly, (steps.constants readOrderly.tame).2.trans readCapacity⟩

/-- Interpreting a text leaves a machine of the same size in order. -/
theorem Interprets.keeps
    {limit : Nat}
    (interprets :
      Interprets showCollections (ArenaLisp.evaluator Library.empty limit) text machine emissions
        final)
    (orderly : machine.Orderly IsBuiltin) :
    final.Orderly IsBuiltin ∧ final.heap.capacity = machine.heap.capacity := by
  induction interprets using Interprets.induction with
  | done text isEmpty =>
      exact ⟨orderly, rfl⟩
  | expression text machine handle rest read value after later answered evaluated _ restKeeps =>
      obtain ⟨afterOrderly, afterCapacity⟩ := evaluated_keeps orderly answered evaluated
      obtain ⟨finalOrderly, finalCapacity⟩ :=
        restKeeps (settled_orderly afterOrderly showCollections)
      exact ⟨finalOrderly, finalCapacity.trans afterCapacity⟩

end Console

end ArenaLisp
