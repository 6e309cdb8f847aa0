import ArenaLisp.Proofs.Console.Sessions
import ArenaLisp.Proofs.Reading.Descent
import ArenaLisp.Proofs.Reading.Encoding

namespace ArenaLisp

/-!
# Reading goes forwards

A read ends further on in its text, or fails, or finds nothing but white space and
comments.  The same goes for every call that the descending reader makes for a list: it
starts behind the opening parenthesis, or behind the element before.

Positions are counted in bytes.  What a reader has in front of it is always an end of the
text, so the position is the number of bytes that come before that end.  An end is made of
whole characters: a reader can have no position inside of one.
-/

open Grammar Machine

namespace Reader

variable {text rest whole : List Char}

/-- The number of bytes of a text that come before an end of it. -/
def position (whole rest : List Char) : Nat :=
  (encode whole).length - (encode rest).length

theorem length_encode_le (suffix : rest <:+ text) :
    (encode rest).length ≤ (encode text).length := by
  obtain ⟨front, rfl⟩ := suffix
  rw [encode_append, List.length_append]
  exact Nat.le_add_left _ _

/-- Characters take bytes, so a later text has fewer of them. -/
theorem length_encode_lt (later : Later rest text) :
    (encode rest).length < (encode text).length := by
  obtain ⟨⟨front, rfl⟩, shorter⟩ := later
  have someFront : front ≠ [] := by
    rintro rfl
    exact Nat.lt_irrefl _ shorter
  have someBytes := List.length_pos_iff.mpr (encode_ne_nil_iff.mpr someFront)
  rw [encode_append, List.length_append]
  omega

theorem length_le_encode (text : List Char) : text.length ≤ (encode text).length := by
  induction text with
  | nil =>
      exact Nat.zero_le _
  | cons first rest inductionHypothesis =>
      have later : Later rest (first :: rest) :=
        ⟨List.suffix_cons first rest, Nat.lt_succ_self _⟩
      exact Nat.lt_of_le_of_lt inductionHypothesis (length_encode_lt later)

theorem position_le (whole rest : List Char) : position whole rest ≤ (encode whole).length :=
  Nat.sub_le _ _

theorem position_nil (whole : List Char) : position whole [] = (encode whole).length :=
  rfl

theorem position_mono (suffix : rest <:+ text) : position whole text ≤ position whole rest :=
  Nat.sub_le_sub_left (length_encode_le suffix) _

theorem position_lt
    (inside : text <:+ whole)
    (later : Later rest text) :
    position whole text < position whole rest := by
  have fits := length_encode_le inside
  have fewer := length_encode_lt later
  unfold position
  omega

variable {machine : Machine} {reader : Reader}

/-- Reading on takes tokens from the front of a text, however it ends. -/
theorem readOn_suffix
    (counts : List Nat)
    (text : List Char)
    (machine : Machine) :
    (readOn counts text machine).1.2.text <:+ text := by
  fun_induction readOn counts text machine with
  | case1 counts text machine noToken =>
      exact List.nil_suffix
  | case2 counts text machine token rest found after misplaced =>
      exact Token.skipFrom_suffix false text
  | case3 counts text machine token rest found result after finished =>
      exact Token.rest_suffix found
  | case4 counts text machine token rest found counts' after advanced inductionHypothesis =>
      exact inductionHypothesis.trans (Token.rest_suffix found)

theorem read_suffix
    (reader : Reader)
    (machine : Machine) :
    (reader.read machine).1.2.text <:+ reader.text := by
  have suffix := readOn_suffix [] (Token.skip reader.text) machine
  rw [read_eq]
  split
  · exact List.nil_suffix
  · generalize readOn [] (Token.skip reader.text) machine = answer at suffix
    obtain ⟨⟨_ | _, _⟩, _⟩ := answer <;>
      exact suffix.trans (Token.skipFrom_suffix false reader.text)

theorem read_later
    {expression : Handle}
    (answered : (reader.read machine).1.1 = .ok (some expression)) :
    Later (reader.read machine).1.2.text reader.text :=
  ⟨read_suffix reader machine,
    length_lt_of_read (Prod.ext (Prod.ext answered rfl) rfl)⟩

/-- Nothing but white space and comments is left exactly if there is no lexeme any more. -/
theorem skip_eq_nil_iff (text : List Char) : Token.skip text = [] ↔ Lexed (encode text) [] := by
  rw [← Token.next?_eq_none_iff]
  constructor
  · intro noToken
    have lexed := lexed_lex (encode text)
    rwa [lex_encode, Token.all_none noToken] at lexed
  · intro lexed
    have noLexeme := lexed.eq_lex
    rw [lex_encode] at noLexeme
    cases found : Token.next? text with
    | none =>
        rfl
    | some step =>
        rw [Token.all_some found] at noLexeme
        cases noLexeme

theorem read_none_iff :
    (reader.read machine).1.1 = .ok none ↔ Token.skip reader.text = [] := by
  constructor
  · intro answered
    exact (read_done_iff.mp (Prod.ext (Prod.ext answered rfl) rfl)).1
  · intro isEmpty
    rw [read_done_iff.mpr ⟨isEmpty, rfl, rfl⟩]

/-- A call that the descending reader makes while it reads a list. -/
structure Call where
  /-- The text from the opening parenthesis, or from the element before the call, on. -/
  behind : List Char
  /-- The text behind that parenthesis or element. -/
  left : List Char
  /-- The text that the call reads. -/
  start : List Char

/--
The calls for what is left of a list, given the text from its opening parenthesis or from
the element before.  An element is read from its first character on.  If it is a list
itself, a call reads what is left of that behind its parenthesis.  Behind the element
a call reads what is left then.
-/
def callsTail (behind text : List Char) (machine : Machine) : List Call :=
  match _ : Token.next? text with
  | none => []
  | some (.closing, _) => []
  | some (token, rest) =>
      let element := Token.skip text
      let inside :=
        match token with
        | .opening => ⟨element, rest, rest⟩ :: callsTail element rest machine
        | .closing | .word _ => []
      let others :=
        match _ : descendFrom (descendTail rest.length) token rest machine with
        | (.error _, _) => []
        | (.ok (head, others), after) =>
            ⟨element, others, others⟩ ::
              callsTail element others (after.withEntries (head :: after.stack.entries))
      ⟨behind, text, element⟩ :: (inside ++ others)
termination_by text.length
decreasing_by
  · exact (later_text ‹_›).2
  · exact ((later_text ‹_›).after (descendFrom_suffix (descendTail_later _) ‹_›)).2

/-- The calls of the descending reader in the lists of the next object. -/
def calls (reader : Reader) (machine : Machine) : List Call :=
  match Token.next? reader.text with
  | some (.opening, rest) =>
      ⟨Token.skip reader.text, rest, rest⟩ :: callsTail (Token.skip reader.text) rest machine
  | _ => []

/-- A call in a text, further on than the opening parenthesis or the element before it. -/
structure Call.Within (text : List Char) (call : Call) : Prop where
  inside : call.behind <:+ text
  further : Later call.left call.behind
  start : call.start <:+ call.left

theorem Call.Within.of_suffix
    {call : Call}
    (within : call.Within rest)
    (suffix : rest <:+ text) :
    call.Within text :=
  ⟨within.inside.trans suffix, within.further, within.start⟩

/-- The call that reads what is left of a list right behind a parenthesis or an element. -/
theorem Call.within_of_later (later : Later rest text) : Call.Within text ⟨text, rest, rest⟩ :=
  ⟨List.suffix_refl text, later, List.suffix_refl rest⟩

/-- By induction on the text that is left of the list. -/
theorem callsTail_within
    {behind : List Char}
    (further : Later text behind) :
    ∀ call ∈ callsTail behind text machine, call.Within behind := by
  fun_induction callsTail behind text machine with
  | case1 behind text machine noToken =>
      simp
  | case2 behind text machine rest closes =>
      simp
  | case3 behind text machine token rest notClosing found element inside others insideWithin
      othersWithin =>
      have elementInside : element <:+ behind :=
        (Token.skipFrom_suffix false text).trans further.1
      have inElement : ∀ call ∈ inside ++ others, call.Within element := by
        rw [List.forall_mem_append]
        constructor
        · cases token with
          | opening =>
              exact List.forall_mem_cons.mpr
                ⟨Call.within_of_later (later_skip found), insideWithin found (later_skip found)⟩
          | closing | word characters =>
              simp [inside]
        · simp only [others]
          split
          · simp
          · rename_i head left after answered
            have later : Later left element :=
              (later_skip found).after (descendFrom_suffix (descendTail_later _) answered)
            exact List.forall_mem_cons.mpr
              ⟨Call.within_of_later later, othersWithin head left after answered later⟩
      refine List.forall_mem_cons.mpr
        ⟨⟨List.suffix_refl behind, further, Token.skipFrom_suffix false text⟩, ?_⟩
      exact fun call member => (inElement call member).of_suffix elementInside

theorem calls_within
    (reader : Reader)
    (machine : Machine) :
    ∀ call ∈ reader.calls machine, call.Within reader.text := by
  unfold calls
  split
  · rename_i rest found
    have later := later_skip found
    have inside :
        ∀ call ∈ callsTail (Token.skip reader.text) rest machine,
          call.Within (Token.skip reader.text) :=
      callsTail_within later
    intro call member
    have within := List.forall_mem_cons.mpr ⟨Call.within_of_later later, inside⟩ call member
    exact within.of_suffix (Token.skipFrom_suffix false reader.text)
  · simp

end Reader

namespace Machine

variable {evaluator : Evaluator}

/--
The expressions that are read when what is left to a reader is evaluated, one after the
other, by a loop that settles the machine after each value.
-/
def expressions
    (settle : Machine → Machine)
    (evaluator : Evaluator)
    (reader : Reader)
    (machine : Machine) :
    List Handle :=
  match _ : reader.nextExpression machine with
  | (.error _, _) => []
  | (.ok none, _) => []
  | (.ok (some (expression, rest)), afterReading) =>
      match evaluateTopLevel evaluator expression afterReading with
      | some (.ok _, after) => expression :: expressions settle evaluator rest (settle after)
      | _ => [expression]
termination_by reader.text.length
decreasing_by exact Reader.nextExpression_shorter (congrArg Prod.fst ‹_›)

/-- Every expression that is read takes a character at least. -/
theorem length_expressions
    (settle : Machine → Machine)
    (evaluator : Evaluator)
    (reader : Reader)
    (machine : Machine) :
    (expressions settle evaluator reader machine).length ≤ reader.text.length := by
  fun_induction expressions settle evaluator reader machine with
  | case1 | case2 =>
      exact Nat.zero_le _
  | case3 reader machine expression rest afterReading answered value after evaluated
      inductionHypothesis =>
      have shorter := Reader.nextExpression_shorter (congrArg Prod.fst answered)
      exact Nat.lt_of_le_of_lt inductionHypothesis shorter
  | case4 reader machine expression rest afterReading answered failed =>
      have shorter := Reader.nextExpression_shorter (congrArg Prod.fst answered)
      exact Nat.succ_le_of_lt (Nat.zero_lt_of_lt shorter)

/-- A session answers with one text for each expression that it has read. -/
theorem length_evaluateRest
    {reader : Reader}
    {machine final : Machine}
    {texts : List String}
    (answers : evaluateRest evaluator reader machine = some (.ok texts, final)) :
    texts.length = (expressions id evaluator reader machine).length := by
  fun_induction expressions id evaluator reader machine generalizing texts final with
  | case1 reader machine error after answered =>
      rw [evaluateRest_run, Run.bind_apply, Run.liftM_apply, answered] at answers
      cases answers
  | case2 reader machine after answered =>
      rw [evaluateRest_run, Run.bind_apply, Run.liftM_apply, answered] at answers
      cases answers
      rfl
  | case3 reader machine expression rest afterReading answered value after evaluated
      inductionHypothesis =>
      rw [evaluateRest_run, Run.bind_apply, Run.liftM_apply, answered] at answers
      simp only [concludeReading, Run.bind_apply, evaluated, concludeFirst] at answers
      rcases others : evaluateRest evaluator rest after with _ | ⟨_ | texts, last⟩ <;>
        rw [others] at answers <;> cases answers
      exact congrArg Nat.succ (inductionHypothesis others)
  | case4 reader machine expression rest afterReading answered failed =>
      rw [evaluateRest_run, Run.bind_apply, Run.liftM_apply, answered] at answers
      simp only [concludeReading, Run.bind_apply] at answers
      rcases evaluated : evaluateTopLevel evaluator expression afterReading with
        _ | ⟨_ | value, after⟩
      · rw [evaluated] at answers
        cases answers
      · rw [evaluated] at answers
        cases answers
      · exact absurd evaluated (failed value after)

end Machine

namespace Console

variable {showCollections : Bool} {evaluator : Evaluator} {machine : Machine}

/-- Whether an emission is the text of a value. -/
def Emission.isValue : Emission → Bool
  | .value _ => true
  | .prompt _ | .record _ | .failure _ => false

/-- The number of values among some emissions. -/
def valueCount (emissions : List Emission) : Nat :=
  emissions.countP Emission.isValue

theorem valueCount_value
    (text : String)
    (later : List Emission) :
    valueCount (.value text :: later) = valueCount later + 1 :=
  List.countP_cons_of_pos rfl

theorem valueCount_failure (text : String) : valueCount [.failure text] = 0 :=
  rfl

/-- The log says nothing about values. -/
theorem valueCount_append_log (printed : List Emission) :
    valueCount ((takeLog showCollections machine).1 ++ printed) = valueCount printed := by
  rw [valueCount, List.countP_append, List.countP_eq_zero.mpr, Nat.zero_add]
  · rfl
  · intro emission member
    obtain ⟨text, rfl⟩ := exists_record_of_mem_takeLog member
    simp [Emission.isValue]

/-- The console prints a value for each expression that it has read, but perhaps the last. -/
theorem valueCount_printRest
    (evaluator : Evaluator)
    (reader : Reader)
    (machine : Machine) :
    valueCount (printRest showCollections evaluator reader machine).1 ≤
        (expressions (settled showCollections) evaluator reader machine).length ∧
      (expressions (settled showCollections) evaluator reader machine).length ≤
        valueCount (printRest showCollections evaluator reader machine).1 + 1 := by
  fun_induction expressions (settled showCollections) evaluator reader machine with
  | case1 reader machine error after answered =>
      have noValue :
          valueCount (printRest showCollections evaluator reader machine).1 = 0 := by
        rw [printRest_eq, answered]
        cases severity : error.isFatal <;>
          simp only [severity, Bool.false_eq_true, ↓reduceIte, valueCount_append_log, fatal,
            valueCount_failure]
      rw [noValue]
      exact ⟨le_rfl, Nat.zero_le 1⟩
  | case2 reader machine after answered =>
      rw [printRest_eq, answered]
      exact ⟨le_rfl, Nat.zero_le 1⟩
  | case3 reader machine expression rest afterReading answered value after evaluated
      inductionHypothesis =>
      obtain ⟨atMost, atLeast⟩ := inductionHypothesis
      rw [printRest_eq, answered]
      simp only [evaluated, valueCount_append_log, valueCount_value, List.length_cons]
      exact ⟨Nat.succ_le_succ atMost, Nat.succ_le_succ atLeast⟩
  | case4 reader machine expression rest afterReading answered failed =>
      have noValue :
          valueCount (printRest showCollections evaluator reader machine).1 = 0 := by
        rw [printRest_eq, answered]
        rcases evaluated : evaluateTopLevel evaluator expression afterReading with
          _ | ⟨_ | value, after⟩
        · simp only [evaluated, tooDeep, valueCount_failure]
        · simp only [evaluated, valueCount_append_log, fatal, valueCount_failure]
        · exact absurd evaluated (failed value after)
      rw [noValue]
      exact ⟨Nat.zero_le 1, le_rfl⟩

end Console

namespace Reader

/-- How a read goes forwards in a text, from where a reader stands in it. -/
structure Progresses (whole : List Char) (reader : Reader) (machine : Machine) : Prop where
  /-- The reader goes on where the read has ended: no earlier, and not behind the end. -/
  forwards :
    (reader.read machine).1.2.text <:+ reader.text ∧
      position whole reader.text ≤ position whole (reader.read machine).1.2.text ∧
      position whole (reader.read machine).1.2.text ≤ (encode whole).length
  /-- There is no object exactly if nothing but white space and comments is left. -/
  done_iff : (reader.read machine).1.1 = .ok none ↔ Lexed (encode reader.text) []
  isAtEnd_iff : reader.isAtEnd = true ↔ Lexed (encode reader.text) []
  done :
    (reader.read machine).1.1 = .ok none →
    position whole (reader.read machine).1.2.text = (encode whole).length
  /-- An object takes a byte at least. -/
  object :
    ∀ expression,
      (reader.read machine).1.1 = .ok (some expression) →
      position whole reader.text < position whole (reader.read machine).1.2.text
  /-- The read is a descent, but for what a failure leaves on the stack. -/
  descends :
    cleaned machine.stack.entries (reader.nextExpression machine) =
      cleaned machine.stack.entries (reader.descend machine)
  /-- No limit cuts a descent short that is no less than the length of the text. -/
  limits :
    ∀ text limit,
      text.length ≤ limit →
      descendTail limit text machine = descendTail text.length text machine
  /-- Every call for a list starts behind the opening parenthesis, or the element before. -/
  calls :
    ∀ call ∈ reader.calls machine,
      position whole reader.text ≤ position whole call.behind ∧
        position whole call.behind < position whole call.left ∧
        position whole call.left ≤ position whole call.start ∧
        position whole call.start ≤ (encode whole).length
  /-- No atom is empty, wherever a call starts. -/
  atoms :
    ∀ start characters rest,
      Token.next? start = some (.word characters, rest) →
      encode characters ≠ []
  /-- However the machine is settled in between, a loop reads no more objects than bytes. -/
  loops :
    ∀ settle evaluator,
      (expressions settle evaluator reader machine).length ≤ (encode reader.text).length
  session :
    ∀ evaluator texts final,
      evaluateRest evaluator reader machine = some (.ok texts, final) →
      texts.length = (expressions id evaluator reader machine).length
  console :
    ∀ showCollections evaluator,
      let printed := Console.printRest showCollections evaluator reader machine
      let read := expressions (Console.settled showCollections) evaluator reader machine
      Console.valueCount printed.1 ≤ read.length ∧
        read.length ≤ Console.valueCount printed.1 + 1

/--
Wherever a reader stands in a text, however malformed that is and whatever machine it reads
into, the read goes forwards, and so does every call of the descending reader.  So the
loops that evaluate a text, and print it, read no more expressions than the text has bytes.

The positions are those that a reader can have, which are the boundaries between the
characters of the text and its two ends, counted in bytes.
-/
theorem read_progresses
    (front : List Char)
    (reader : Reader)
    (machine : Machine) :
    reader.Progresses (front ++ reader.text) machine where
  forwards :=
    ⟨read_suffix reader machine, position_mono (read_suffix reader machine), position_le _ _⟩
  done_iff := read_none_iff.trans (skip_eq_nil_iff reader.text)
  isAtEnd_iff := by
    rw [← skip_eq_nil_iff reader.text, isAtEnd, List.isEmpty_iff]
    rfl
  done answered := by
    rw [read_done_iff.mpr ⟨read_none_iff.mp answered, rfl, rfl⟩]
    exact position_nil _
  object _ answered := position_lt (List.suffix_append front reader.text) (read_later answered)
  descends := cleaned_nextExpression _ reader machine
  limits text limit enough := by
    rw [descendTail_limit enough le_rfl]
  calls call member := by
    have within := calls_within reader machine call member
    have inside : call.behind <:+ front ++ reader.text :=
      within.inside.trans (List.suffix_append front reader.text)
    exact ⟨position_mono within.inside, position_lt inside within.further,
      position_mono within.start, position_le _ _⟩
  atoms _ _ _ found := encode_ne_nil_iff.mpr (Token.word_ne_nil_of_next? found)
  loops settle evaluator :=
    (length_expressions settle evaluator reader machine).trans (length_le_encode reader.text)
  session _ _ _ answers := length_evaluateRest answers
  console _ evaluator := Console.valueCount_printRest evaluator reader machine

end Reader

end ArenaLisp
