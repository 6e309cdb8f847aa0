import ArenaLisp.Proofs.Console.Interpretation
import ArenaLisp.Proofs.Console.Lines
import ArenaLisp.Proofs.Reference.Session

namespace ArenaLisp

/-!
# Dialogues and files agree

A dialogue evaluates a group of lines as soon as it has closed as many parentheses as
it opened.  On plain lines the group then closes its lists, so it is the front of the
text that is left, and evaluating it alone comes to the same as evaluating it as part
of the whole.  The condition on lines is needed: a parenthesis in a comment counts in a
dialogue and nowhere else, and so does the blankness of a character that the reader
takes for a word.
-/

namespace Console

open Machine Reader Grammar

/-- Whether an emission stands before a line of a dialogue. -/
def Emission.isPrompt : Emission → Bool
  | .prompt _ => true
  | .value _ | .record _ | .failure _ => false

/-- What was emitted apart from the prompts. -/
def unprompted (emissions : List Emission) : List Emission :=
  emissions.filter fun emission => !emission.isPrompt

variable
  {settings : Settings}
  {text : List Char}
  {machine final : Machine}
  {emissions : List Emission}

/-- An interpretation prompts for nothing. -/
theorem Interprets.unprompted
    {showCollections : Bool}
    {evaluator : Evaluator}
    (interprets : Interprets showCollections evaluator text machine emissions final) :
    unprompted emissions = emissions := by
  refine List.filter_eq_self.mpr ?_
  induction interprets using Interprets.induction with
  | done text isEmpty =>
      rintro _ ⟨⟩
  | expression text machine handle rest read value after later _ _ _ laterUnprompted =>
      intro emission member
      rcases List.mem_append.mp member with logged | printed
      · obtain ⟨record, rfl⟩ := exists_record_of_mem_takeLog logged
        rfl
      · rcases List.mem_cons.mp printed with rfl | isLater
        · rfl
        · exact laterUnprompted emission isLater

/--
The lines that a dialogue has collected.  Their parentheses are those that the reader
counts, and there are such lines only as long as a list is open.
-/
structure Waits (dialogue : Dialogue) : Prop where
  ends : Token.EndsLine dialogue.collected.toList
  counted : dialogue.depth = parentheses dialogue.collected.toList
  balanced :
    parentheses dialogue.collected.toList = Token.balance (Token.all dialogue.collected.toList)
  nothingOrOpen : dialogue.collected = "" ∨ 0 < dialogue.depth

theorem waits_begin (machine : Machine) : Waits (Dialogue.begin machine) where
  ends := by rintro _ ⟨⟩
  counted := rfl
  balanced := by
    rw [Token.all_none rfl]
    rfl
  nothingOrOpen := .inl rfl

/-- One more plain line is counted by the console as it is by the reader. -/
theorem Waits.counts_line
    {dialogue : Dialogue}
    {line : List Char}
    (waits : Waits dialogue)
    (oneLine : OneLine line)
    (plain : Plain line) :
    dialogue.depth + parenthesisBalance (String.ofList line) =
        parentheses (dialogue.collected.toList ++ line) ∧
      parentheses (dialogue.collected.toList ++ line) =
        Token.balance (Token.all (dialogue.collected.toList ++ line)) := by
  constructor
  · rw [parentheses_append, waits.counted]
    simp [parenthesisBalance, parentheses]
  · rw [parentheses_append, waits.balanced, plain.parentheses_eq oneLine,
      Token.all_append waits.ends, Token.balance_append]

/-- A group of lines that is blank has nothing to be read. -/
theorem Waits.skip_eq_nil
    {dialogue : Dialogue}
    {line : List Char}
    (waits : Waits dialogue)
    (plain : Plain line)
    (isBlank : Text.isAllBlank (dialogue.collected.toList ++ line) = true) :
    Token.skip (dialogue.collected.toList ++ line) = [] := by
  rw [Text.isAllBlank, List.all_append, Bool.and_eq_true] at isBlank
  have noneOpen : dialogue.depth = 0 :=
    waits.counted.trans (parentheses_of_isAllBlank isBlank.1)
  have nothing : dialogue.collected = "" :=
    waits.nothingOrOpen.resolve_right (by omega)
  rw [nothing]
  exact Token.skip_separators (plain.blank isBlank.2)

/-- What is left to a dialogue: its collected lines and the rest are interpreted in the end. -/
structure Continues
    (settings : Settings)
    (limit : Nat)
    (rest : List Char)
    (dialogue : Dialogue)
    (emissions : List Emission)
    (final : Machine) :
    Prop where
  waits : Waits dialogue
  orderly : dialogue.machine.Orderly IsBuiltin
  sameLimit : dialogue.machine.nestingLimit = limit
  interprets :
    Interprets settings.showCollections (evaluator Library.empty limit)
      (dialogue.collected.toList ++ rest) dialogue.machine emissions final

/-- An interpretation is what the console prints. -/
theorem Interprets.printText_eq
    {showCollections : Bool}
    {evaluator : Evaluator}
    {text : String}
    (interprets :
      Interprets showCollections evaluator text.toList machine emissions final) :
    printText showCollections evaluator text machine = (emissions, .ready final) :=
  interprets.printed

/-- A group of lines that is complete is interpreted, unless there is nothing to be read. -/
theorem takeLine_complete
    {dialogue : Dialogue}
    {line : String}
    (complete : ¬0 < dialogue.depth + parenthesisBalance line)
    (nothing :
      Text.isAllBlank (dialogue.collected ++ line).toList = true →
      Token.skip (dialogue.collected ++ line).toList = [])
    (interprets :
      Interprets settings.showCollections (interpreter dialogue.machine)
        (dialogue.collected ++ line).toList dialogue.machine emissions final) :
    dialogue.takeLine settings line = (emissions, .next (Dialogue.begin final)) := by
  rw [Dialogue.takeLine]
  simp only [complete, ↓reduceIte]
  split
  · rename_i isBlank
    rcases interprets.cases with
      ⟨_, rfl, rfl⟩ | ⟨handle, rest, read, value, after, later, answered, _, _, _⟩
    · rfl
    · have noToken := Token.next?_eq_none_iff.mpr (nothing isBlank)
      rw [readOn_none noToken] at answered
      cases answered
  · rw [interprets.printText_eq]

/-- A line lets a dialogue emit what is complete, and continue with what is not. -/
theorem Continues.takeLine
    {limit : Nat}
    {line rest : List Char}
    {dialogue : Dialogue}
    (continues : Continues settings limit (line ++ rest) dialogue emissions final)
    (oneLine : OneLine line)
    (plain : Plain line)
    (ends : Token.EndsLine line ∨ rest = []) :
    ∃ front following later,
      dialogue.takeLine settings (String.ofList line) = (front, .next following) ∧
        Continues settings limit rest following later final ∧
        unprompted front = front ∧
        emissions = front ++ later := by
  obtain ⟨waits, orderly, sameLimit, interprets⟩ := continues
  have group :
      (dialogue.collected ++ String.ofList line).toList = dialogue.collected.toList ++ line := by
    rw [String.toList_append, String.toList_ofList]
  obtain ⟨counted, balanced⟩ := waits.counts_line oneLine plain
  have groupEnds := ends.imp_left waits.ends.append
  rw [← group] at counted balanced groupEnds
  rw [← List.append_assoc, ← group] at interprets
  obtain ⟨depth, isDepth, closed⟩ := interprets.exists_depth groupEnds
  have sameDepth :
      dialogue.depth + parenthesisBalance (String.ofList line) = (depth : Int) := by
    rw [counted, balanced, Token.depthAfter_balance isDepth]
    exact (Int.zero_add _).symm
  by_cases isOpen : 0 < dialogue.depth + parenthesisBalance (String.ofList line)
  · -- A list is open, so another line follows and this one has an end.
    have endsLine := groupEnds.resolve_right fun isLast => by
      have isZero := closed isLast
      omega
    have waiting :
        Waits
          { dialogue with
            collected := dialogue.collected ++ String.ofList line
            depth := dialogue.depth + parenthesisBalance (String.ofList line) } :=
      ⟨endsLine, counted, balanced, .inr isOpen⟩
    refine ⟨[], _, emissions, ?_, ⟨waiting, orderly, sameLimit, interprets⟩, rfl, rfl⟩
    simp only [Dialogue.takeLine, isOpen, ↓reduceIte]
  · have closes : Closes (dialogue.collected ++ String.ofList line).toList := by
      rw [Closes, isDepth]
      congr 1
      omega
    have nothing
        (isBlank : Text.isAllBlank (dialogue.collected ++ String.ofList line).toList = true) :
        Token.skip (dialogue.collected ++ String.ofList line).toList = [] := by
      rw [group] at isBlank ⊢
      exact waits.skip_eq_nil plain isBlank
    obtain ⟨front, between, later, frontInterprets, restInterprets, rfl⟩ :=
      interprets.split groupEnds closes
    have sameInterpreter : interpreter dialogue.machine = evaluator Library.empty limit := by
      rw [interpreter, sameLimit]
    obtain ⟨betweenOrderly, betweenCapacity⟩ := frontInterprets.keeps orderly
    have complete := @takeLine_complete settings between front dialogue (String.ofList line)
      isOpen nothing (sameInterpreter ▸ frontInterprets)
    refine ⟨front, Dialogue.begin between, later, complete,
      ⟨waits_begin between, betweenOrderly, ?_, restInterprets⟩, frontInterprets.unprompted, rfl⟩
    rw [← sameLimit, nestingLimit, nestingLimit, ← betweenCapacity]
    rfl

/-- No lines are left waiting at the end of a text that is interpreted. -/
theorem Continues.nothing_left
    {limit : Nat}
    {dialogue : Dialogue}
    (continues : Continues settings limit [] dialogue emissions final) :
    emissions = [] := by
  obtain ⟨waits, _, _, interprets⟩ := continues
  obtain ⟨depth, isDepth, closed⟩ := interprets.exists_depth (.inr rfl)
  have noneOpen : dialogue.depth = 0 := by
    have sameDepth := Token.depthAfter_balance isDepth
    rw [waits.counted, waits.balanced]
    have isZero := closed rfl
    omega
  have nothing : dialogue.collected = "" :=
    waits.nothingOrOpen.resolve_right (by omega)
  rw [nothing] at interprets
  rcases interprets.cases with
    ⟨_, isEmpty, _⟩ | ⟨handle, rest, read, value, after, later, answered, _, _, _⟩
  · exact isEmpty
  · have noToken : Token.next? ("".toList ++ []) = none :=
      rfl
    rw [readOn_none noToken] at answered
    cases answered

/-- A dialogue emits what is left to it, line by line, and then ends. -/
theorem Continues.run
    {limit : Nat}
    {cut : List (List Char)}
    (isCut : Cut cut)
    (plain : ∀ line ∈ cut, Plain line)
    {dialogue : Dialogue}
    (continues : Continues settings limit cut.flatten dialogue emissions final) :
    ∃ spoken,
      dialogue.run settings (cut.map encode) = (spoken, 0) ∧ unprompted spoken = emissions := by
  induction isCut generalizing dialogue emissions with
  | none =>
      exact ⟨[dialogue.prompt], rfl, continues.nothing_left.symm⟩
  | line notEmpty oneLine ends restCut inductionHypothesis =>
      rename_i line later
      rw [List.flatten_cons] at continues
      obtain ⟨front, following, rest, taken, continuesRest, frontUnprompted, rfl⟩ :=
        continues.takeLine oneLine (plain line List.mem_cons_self)
          (ends.imp_right fun isLast => by rw [isLast]; rfl)
      obtain ⟨spoken, ran, spokenUnprompted⟩ :=
        inductionHypothesis (fun other member => plain other (List.mem_cons_of_mem line member))
          continuesRest
      have takes : dialogue.takeBytes settings (encode line) = (front, .next following) := by
        rw [Dialogue.takeBytes, decode?_encode]
        exact taken
      refine ⟨dialogue.prompt :: front ++ spoken, ?_, ?_⟩
      · rw [List.map_cons, Dialogue.run, takes]
        simp only [ran]
      · rw [unprompted, List.cons_append, List.filter_cons_of_neg, List.filter_append]
        · exact congrArg₂ (· ++ ·) frontUnprompted spokenUnprompted
        · simp [Dialogue.prompt, Emission.isPrompt]

/-- A run that ends early ends with the status of a failure. -/
theorem printRest_ended
    {showCollections : Bool}
    {evaluator : Evaluator}
    {reader : Reader}
    {status : Nat}
    (ended : (printRest showCollections evaluator reader machine).2 = .ended status) :
    status = failureStatus := by
  fun_induction printRest showCollections evaluator reader machine with
  | case1 | case4 | case5 =>
      cases ended
      rfl
  | case2 | case3 =>
      cases ended
  | case6 reader machine expression rest read answered value after _ _ _ inductionHypothesis =>
      exact inductionHypothesis ended

theorem start_orderly
    (capacityBound : settings.configuration.capacity ≤ Handle.bound)
    {log : List Emission}
    (started : Console.start settings = (log, .ready machine)) :
    machine.Orderly IsBuiltin := by
  rw [Console.start] at started
  split at started
  · rename_i fresh isFresh
    cases started
    have created : create settings.configuration = .ok fresh := by
      rw [create, isFresh]
    have orderly := (create_represents capacityBound created).1
    exact orderly.of_same rfl rfl rfl
  · cases started

/--
Dialogues and files agree.  Let a text consist of plain lines, and let a fresh machine
interpret it as a file, to its end and without an error that ends it.  Then a dialogue
on that machine evaluates the same expressions in the same order: apart from its
prompts it emits the same values and records, and it ends without a failure.
-/
theorem dialogue_agrees
    (settings : Settings)
    (capacityBound : settings.configuration.capacity ≤ Handle.bound)
    {log : List Emission}
    {machine : Machine}
    (started : start settings = (log, .ready machine))
    (text : String)
    (plain : ∀ line ∈ textLines text.toList, Plain line)
    (path : String)
    {emissions : List Emission}
    (interpreted : runFile settings path (utf8 text) machine = (emissions, 0))
    (noFailure : ∀ emission ∈ emissions, emission.isFailure = false) :
    ∃ spoken,
      (Dialogue.begin machine).run settings (lines (utf8 text)) = (spoken, 0) ∧
        unprompted spoken = emissions := by
  have decoded : decode? (utf8 text) = some text := by
    rw [utf8_eq_encode, decode?_encode, String.ofList_toList]
  rw [runFile, decoded] at interpreted
  obtain ⟨final, printed⟩ :
      ∃ final,
        printText settings.showCollections (interpreter machine) text machine =
          (emissions, .ready final) := by
    simp only at interpreted
    split at interpreted
    · rename_i printed
      cases interpreted
      exact ⟨_, printed⟩
    · rename_i printed
      cases interpreted
      cases printRest_ended (congrArg Prod.snd printed)
  have continues :
      Continues settings machine.nestingLimit (textLines text.toList).flatten
        (Dialogue.begin machine) emissions final := by
    refine ⟨waits_begin machine, start_orderly capacityBound started, rfl, ?_, noFailure⟩
    rw [flatten_textLines]
    exact printed
  rw [utf8_eq_encode, lines_encode]
  exact continues.run (cut_textLines text.toList) plain

/-- A console with little memory. -/
def crampedSettings : Settings where
  showCollections := false
  configuration := cramped

/-- An expression of two lines, the first with a comment that closes what it opens. -/
def commented : String :=
  "(+ 1 ; (one)\n)\n"

/-- The machine of an outcome, unless the run has ended. -/
def Outcome.machine? : Outcome → Option Machine
  | .ready machine => some machine
  | .ended _ => none

theorem exists_run_commented :
    ∃ log machine,
      start crampedSettings = (log, .ready machine) ∧
        runFile crampedSettings "sum" (utf8 commented) machine = ([.value "1"], 0) := by
  have checked :
      (start crampedSettings).2.machine?.any
          (fun machine =>
            runFile crampedSettings "sum" (utf8 commented) machine = ([.value "1"], 0)) =
        true := by
    decide +kernel
  generalize start crampedSettings = started at checked ⊢
  obtain ⟨log, machine | status⟩ := started
  · exact ⟨log, machine, rfl, of_decide_eq_true checked⟩
  · cases checked

theorem dialogue_agrees_commented :
    crampedSettings.configuration.capacity ≤ Handle.bound ∧
      (∀ line ∈ textLines commented.toList, Plain line) ∧
      ∃ log machine spoken,
        start crampedSettings = (log, .ready machine) ∧
          (Dialogue.begin machine).run crampedSettings (lines (utf8 commented)) = (spoken, 0) ∧
          unprompted spoken = [.value "1"] := by
  have bounded : crampedSettings.configuration.capacity ≤ Handle.bound := by
    decide
  have plain : ∀ line ∈ textLines commented.toList, Plain line := by
    decide
  obtain ⟨log, machine, started, interpreted⟩ := exists_run_commented
  have noFailure : ∀ emission ∈ [Emission.value "1"], emission.isFailure = false := by
    decide
  obtain ⟨spoken, ran, sameEmissions⟩ :=
    dialogue_agrees crampedSettings bounded started commented plain "sum" interpreted noFailure
  exact ⟨bounded, plain, log, machine, spoken, started, ran, sameEmissions⟩

end Console

end ArenaLisp
