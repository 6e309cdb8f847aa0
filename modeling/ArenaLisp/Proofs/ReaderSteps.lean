import ArenaLisp.Proofs.Steps
import ArenaLisp.Session

namespace ArenaLisp

/-!
# Reading and sessions, case by case

What one step of building a list does, what one token does, and what one expression
of a text does.
-/

open Machine

namespace Reader

variable {machine : Machine}

theorem consPushed_succ
    (count : Nat)
    (tail : Handle)
    (machine : Machine) :
    consPushed (count + 1) tail machine =
      (consFromStack >>= consPushed count : Action Handle)
        (machine.withEntries (tail :: machine.stack.entries)) := by
  simp only [consPushed, Transition.bind_apply, push_eq]

theorem readOn_none
    {counts : List Nat}
    {text : List Char}
    (found : Token.next? text = none)
    (machine : Machine) :
    readOn counts text machine = ((.error (.unreadable (endFault counts)), ⟨[]⟩), machine) := by
  rw [readOn]
  split
  · rfl
  · rename_i isToken
    rw [found] at isToken
    cases isToken

theorem readOn_some
    {counts : List Nat}
    {text rest : List Char}
    {token : Token}
    (found : Token.next? text = some (token, rest))
    (machine : Machine) :
    readOn counts text machine =
      match advance token counts machine with
      | .misplaced after => ((.error (.unreadable .unexpectedClose), ⟨Token.skip text⟩), after)
      | .finished result after => ((result, ⟨rest⟩), after)
      | .more counts after => readOn counts rest after := by
  rw [readOn]
  split
  · rename_i noToken
    rw [found] at noToken
    cases noToken
  · rename_i isToken
    rw [found] at isToken
    cases isToken
    rfl

/-- A read as a step that fails or answers with an object and what is left of the text. -/
def reading (counts : List Nat) (text : List Char) : Action (Handle × Reader) := fun machine =>
  match readOn counts text machine with
  | ((.ok handle, rest), after) => (.ok (handle, rest), after)
  | ((.error error, _), after) => (.error error, after)

/-- Hands an object to the innermost open list and reads on, unless no list is open. -/
def handOver (counts : List Nat) (rest : List Char) (handle : Handle) :
    Action (Handle × Reader) :=
  match counts with
  | [] => pure (handle, ⟨rest⟩)
  | count :: outer => do
      push handle
      reading ((count + 1) :: outer) rest

section

variable
  {counts : List Nat}
  {text rest : List Char}

theorem reading_none
    (found : Token.next? text = none)
    (machine : Machine) :
    reading counts text machine = (.error (.unreadable (endFault counts)), machine) := by
  rw [reading, readOn_none found]

theorem reading_opening
    (found : Token.next? text = some (.opening, rest))
    (machine : Machine) :
    reading counts text machine = reading (0 :: counts) rest machine := by
  rw [reading, readOn_some found]
  rfl

theorem reading_misplaced
    (found : Token.next? text = some (.closing, rest))
    (machine : Machine) :
    reading [] text machine = (.error (.unreadable .unexpectedClose), machine) := by
  rw [reading, readOn_some found]
  rfl

/-- An object that is delivered has been produced before anything else is read. -/
theorem reading_delivered
    {token : Token}
    {outer : List Nat}
    (found : Token.next? text = some (token, rest))
    {produce : Action Handle}
    (delivers : ∀ machine, advance token counts machine = deliver produce outer machine)
    (machine : Machine) :
    reading counts text machine =
      (produce >>= handOver outer rest : Action (Handle × Reader)) machine := by
  rw [reading, readOn_some found, delivers, deliver, Transition.bind_apply]
  rcases produce machine with ⟨_ | handle, after⟩
  · rfl
  · cases outer with
    | nil =>
        rfl
    | cons count outer =>
        simp only [handOver, Transition.bind_apply, push_eq]
        rfl

theorem reading_closed
    {count : Nat}
    {outer : List Nat}
    (found : Token.next? text = some (.closing, rest))
    (machine : Machine) :
    reading (count :: outer) text machine =
      (closeList count >>= handOver outer rest : Action (Handle × Reader)) machine :=
  reading_delivered found (fun _ => rfl) machine

theorem reading_word
    {characters : List Char}
    (found : Token.next? text = some (.word characters, rest))
    (machine : Machine) :
    reading counts text machine =
      (placeWord characters >>= handOver counts rest : Action (Handle × Reader)) machine := by
  apply reading_delivered found
  intro before
  cases counts <;> rfl

end

/-- A read is over at the end of its text, and otherwise cleans up behind a failure. -/
theorem read_eq
    (reader : Reader)
    (machine : Machine) :
    reader.read machine =
      if Token.skip reader.text = [] then
        ((.ok none, ⟨[]⟩), machine)
      else
        match readOn [] (Token.skip reader.text) machine with
        | ((.ok handle, rest), after) => ((.ok (some handle), rest), after)
        | ((.error error, rest), after) =>
            ((.error error, rest), restoreStack machine.stack.size after) := by
  rw [read]
  split
  · rename_i skipped
    rw [if_pos skipped]
  · rename_i notEmpty
    rcases readOn [] (Token.skip reader.text) machine with ⟨⟨_ | _, _⟩, _⟩ <;>
      simp only [if_neg notEmpty]

/-- Cutting the stack down to the size of what lies below some elements leaves just that. -/
theorem restoreStack_above
    {elements below : List Handle}
    (entries : machine.stack.entries = elements ++ below) :
    restoreStack below.length machine = machine.withEntries below := by
  have surplus : machine.stack.size - below.length = elements.length := by
    rw [OperandStack.size, entries, List.length_append, Nat.add_sub_cancel]
  rw [restoreStack, OperandStack.drop, surplus, entries, List.drop_left]
  rfl

/-- The next object of a text and what is left of the text, or none at its end. -/
def nextExpression (reader : Reader) : Action (Option (Handle × Reader)) := fun machine =>
  match reader.read machine with
  | ((.ok (some expression), rest), after) => (.ok (some (expression, rest)), after)
  | ((.ok none, _), after) => (.ok none, after)
  | ((.error error, _), after) => (.error error, after)

/-- Looking for the next object leaves the machine that the read leaves. -/
theorem nextExpression_machine
    (reader : Reader)
    (machine : Machine) :
    (reader.nextExpression machine).2 = (reader.read machine).2 := by
  rw [nextExpression]
  rcases reader.read machine with ⟨⟨_ | _ | _, _⟩, _⟩ <;> rfl

theorem nextExpression_error
    {reader : Reader}
    {error : Error}
    (failed : (reader.read machine).1.1 = .error error) :
    (reader.nextExpression machine).1 = .error error := by
  rw [nextExpression]
  rcases answered : reader.read machine with ⟨⟨_ | _ | _, _⟩, _⟩ <;> rw [answered] at failed <;>
    cases failed
  rfl

theorem nextExpression_done
    {reader : Reader}
    (isEmpty : Token.skip reader.text = [])
    (machine : Machine) :
    reader.nextExpression machine = (.ok none, machine) := by
  rw [nextExpression, read_eq, if_pos isEmpty]

theorem nextExpression_eq
    {reader : Reader}
    (notEmpty : Token.skip reader.text ≠ [])
    (machine : Machine) :
    reader.nextExpression machine =
      match reading [] (Token.skip reader.text) machine with
      | (.ok found, after) => (.ok (some found), after)
      | (.error error, after) => (.error error, restoreStack machine.stack.size after) := by
  rw [nextExpression, read_eq, if_neg notEmpty, reading]
  rcases readOn [] (Token.skip reader.text) machine with ⟨⟨_ | _, _⟩, _⟩ <;> rfl

theorem nextExpression_shorter
    {reader rest : Reader}
    {machine : Machine}
    {expression : Handle}
    (answered : (reader.nextExpression machine).1 = .ok (some (expression, rest))) :
    rest.text.length < reader.text.length := by
  rw [nextExpression] at answered
  split at answered
  · rename_i readAnswer
    cases answered
    exact length_lt_of_read readAnswer
  · cases answered
  · cases answered

end Reader

namespace Machine

variable
  {evaluator : Evaluator}
  {reader rest : Reader}
  {machine after : Machine}

theorem evaluateRest_done
    (answered : reader.read machine = ((.ok none, rest), after)) :
    evaluateRest evaluator reader machine = some (.ok [], after) := by
  rw [evaluateRest]
  split <;> rename_i otherwise <;> rw [answered] at otherwise <;> cases otherwise
  rfl

theorem evaluateRest_unreadable
    {error : Error}
    (answered : reader.read machine = ((.error error, rest), after)) :
    evaluateRest evaluator reader machine = some (.error error, after) := by
  rw [evaluateRest]
  split <;> rename_i otherwise <;> rw [answered] at otherwise <;> cases otherwise
  rfl

/-- Renders a value, and only then goes on with the rest of a text. -/
def concludeFirst (evaluator : Evaluator) (rest : Reader) (value : Handle) : Run (List String) :=
  fun machine =>
    (evaluateRest evaluator rest >>= fun texts =>
      (pure (machine.heap.render value :: texts) : Run (List String))) machine

theorem concludeFirst_eq
    (evaluator : Evaluator)
    (rest : Reader)
    (value : Handle)
    (machine : Machine) :
    concludeFirst evaluator rest value machine =
      (evaluateRest evaluator rest >>= fun texts =>
        (pure (machine.heap.render value :: texts) : Run (List String))) machine := by
  rw [concludeFirst]

/-- The text of a value is taken before the rest is evaluated. -/
theorem concludeFirst_run
    (evaluator : Evaluator)
    (rest : Reader)
    (value : Handle) :
    concludeFirst evaluator rest value =
      (liftM (Transition.observe fun machine => .ok (machine.heap.render value) : Action String) :
        Run String) >>= fun first =>
        evaluateRest evaluator rest >>= fun others => pure (first :: others) := by
  funext machine
  rw [concludeFirst_eq, Run.bind_apply (liftM _), Run.liftM_apply, Transition.observe]

theorem evaluateRest_expression
    {expression : Handle}
    (answered : reader.read machine = ((.ok (some expression), rest), after)) :
    evaluateRest evaluator reader machine =
      (evaluateTopLevel evaluator expression >>= concludeFirst evaluator rest) after := by
  rw [evaluateRest]
  split <;> rename_i otherwise <;> rw [answered] at otherwise <;> cases otherwise
  rw [Run.bind_apply]
  rcases evaluateTopLevel evaluator expression after with _ | ⟨_ | value, between⟩
  · rfl
  · rfl
  · simp only [concludeFirst, Run.bind_apply, Run.pure_apply]
    rcases evaluateRest evaluator rest between with _ | ⟨_ | texts, final⟩ <;> rfl

/-- Evaluates the next expression of a text and then the rest, unless the text has ended. -/
def concludeReading (evaluator : Evaluator) : Option (Handle × Reader) → Run (List String)
  | none => pure []
  | some (expression, rest) =>
      evaluateTopLevel evaluator expression >>= concludeFirst evaluator rest

theorem evaluateRest_eq
    (evaluator : Evaluator)
    (reader : Reader)
    (machine : Machine) :
    evaluateRest evaluator reader machine =
      ((liftM reader.nextExpression : Run (Option (Handle × Reader))) >>=
        concludeReading evaluator) machine := by
  rw [Run.bind_apply, Run.liftM_apply, Reader.nextExpression]
  rcases answered : reader.read machine with ⟨⟨_ | _ | expression, rest⟩, after⟩
  · exact evaluateRest_unreadable answered
  · exact evaluateRest_done answered
  · exact evaluateRest_expression answered

theorem evaluateRest_run
    (evaluator : Evaluator)
    (reader : Reader) :
    evaluateRest evaluator reader =
      (liftM reader.nextExpression : Run (Option (Handle × Reader))) >>=
        concludeReading evaluator :=
  funext (evaluateRest_eq evaluator reader)

end Machine

end ArenaLisp
