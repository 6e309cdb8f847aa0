import ArenaLisp.Proofs.Plans.Interpreter

namespace ArenaLisp

/-!
# Plans of the reader and of a text

A text is planned as it is read: token by token, and then expression by expression.  Each
of them leaves less of the text, so the plans of a read and of a text come to an end.
-/

open Machine

/-- An action that cleans up is an observation, the action, and the handling of its errors. -/
theorem liftM_cleaningUp
    {First Result : Type}
    (result : First → Result)
    (action : Action First) :
    (liftM (cleaningUp result action) : Run Result) =
      (liftM (Transition.observe fun machine => .ok machine.stack.size : Action Nat) :
        Run Nat) >>= fun size =>
        tryCatch ((liftM action : Run First) >>= fun value => pure (result value))
          fun error =>
            (liftM (onStack fun stack => (.ok (), stack.drop (stack.size - size)) : Action Unit) :
              Run Unit) >>= fun _ => throw error := by
  funext machine
  rw [Run.liftM_apply, cleaningUp, Run.bind_apply, Run.liftM_apply, Transition.observe]
  simp only [Run.tryCatch_apply, Run.bind_apply, Run.liftM_apply]
  rcases action machine with ⟨error | value, after⟩
  · rfl
  · rfl

namespace Plan

def placeWord (word : List Char) : Plan Handle :=
  match Literal.object word with
  | .ok object => allocate object
  | .error fault => throw (.unreadable fault)

def consPushed : Nat → Handle → Plan Handle
  | 0, tail => return tail
  | count + 1, tail => do
      push tail
      consPushed count (← consFromStack)

def closeList (count : Nat) : Plan Handle := do
  consPushed count (← allocate .nil)

/-- Hands an object to the innermost open list and reads on, unless no list is open. -/
def handOver
    (readOn : List Nat → Plan (Handle × Reader))
    (rest : List Char)
    (counts : List Nat)
    (handle : Handle) :
    Plan (Handle × Reader) :=
  match counts with
  | [] => return (handle, ⟨rest⟩)
  | count :: outer => do
      push handle
      readOn ((count + 1) :: outer)

/-- Reads on, token by token, with the element counts of the lists that are open. -/
def reading (counts : List Nat) (text : List Char) : Plan (Handle × Reader) :=
  match _ : Token.next? text with
  | none => throw (.unreadable (Reader.endFault counts))
  | some (.opening, rest) => reading (0 :: counts) rest
  | some (.closing, rest) =>
      match counts with
      | [] => throw (.unreadable .unexpectedClose)
      | count :: outer => do
          handOver (fun counts => reading counts rest) rest outer (← closeList count)
  | some (.word characters, rest) => do
      handOver (fun counts => reading counts rest) rest counts (← placeWord characters)
termination_by text.length
decreasing_by all_goals exact Token.length_lt_of_next? ‹_›

/-- The next object of a text; a read that fails takes its elements off the stack. -/
def nextExpression (reader : Reader) : Plan (Option (Handle × Reader)) :=
  if Token.skip reader.text = [] then
    return none
  else do
    let size ← stackSize
    try
      let found ← reading [] (Token.skip reader.text)
      pure (some found)
    catch error =>
      onStack fun stack => (.ok (), stack.drop (stack.size - size))
      throw error

def evaluateTopLevel (inner : Evaluation) (expression : Handle) : Plan Handle := do
  push expression
  let expected ← stackSize
  let value ← inner expression
  let entries ← stackSize
  if entries ≠ expected then
    throw (.internal (.unbalancedStack entries expected))
  let _ ← pop
  return value

/-- Reads, evaluates and renders expression by expression. -/
def evaluateRest (inner : Evaluation) (reader : Reader) : Plan (List String) := do
  match ← nextExpression reader with
  | none => return []
  | some (expression, rest) =>
      -- There is always less text behind an object; the recursion has to see it.
      if _ : rest.text.length < reader.text.length then
        let value ← evaluateTopLevel inner expression
        let first ← observe fun machine => .ok (machine.heap.render value)
        let others ← evaluateRest inner rest
        return first :: others
      else
        exhausted
termination_by reader.text.length

/-- The plan of the evaluation of a text with a nesting limit. -/
def evaluateText (limit : Nat) (text : String) : Plan (List String) :=
  evaluateRest (evaluate limit) (Reader.ofString text)

@[simp] theorem run_placeWord (word : List Char) :
    (placeWord word).run = liftM (Reader.placeWord word) := by
  unfold placeWord Reader.placeWord
  cases Literal.object word with
  | error fault =>
      rfl
  | ok object =>
      exact run_allocate object

@[simp] theorem run_consPushed
    (count : Nat)
    (tail : Handle) :
    (consPushed count tail).run = liftM (Reader.consPushed count tail) := by
  induction count generalizing tail with
  | zero =>
      rfl
  | succ count inductionHypothesis =>
      simp only [consPushed, run_bind, run_push, run_consFromStack, inductionHypothesis,
        Reader.consPushed, Run.liftM_bind]

@[simp] theorem run_closeList (count : Nat) :
    (closeList count).run = liftM (Reader.closeList count) := by
  simp only [closeList, run_bind, run_allocate, run_consPushed, Reader.closeList, Run.liftM_bind]

theorem run_handOver
    {readOn : List Nat → Plan (Handle × Reader)}
    {rest : List Char}
    (readsOn : ∀ counts, (readOn counts).run = liftM (Reader.reading counts rest))
    (counts : List Nat)
    (handle : Handle) :
    (handOver readOn rest counts handle).run = liftM (Reader.handOver counts rest handle) := by
  cases counts with
  | nil =>
      rfl
  | cons count outer =>
      simp only [handOver, run_bind, run_push, readsOn, Reader.handOver, Run.liftM_bind]

/-- By induction on the length of the text that is left. -/
theorem run_reading
    (counts : List Nat)
    (text : List Char) :
    (reading counts text).run = liftM (Reader.reading counts text) := by
  induction size : text.length using Nat.strongRecOn generalizing counts text with
  | ind size inductionHypothesis =>
      subst size
      have readsOn
          {token : Token}
          {rest : List Char}
          (found : Token.next? text = some (token, rest))
          (counts : List Nat) :
          (reading counts rest).run = liftM (Reader.reading counts rest) :=
        inductionHypothesis _ (Token.length_lt_of_next? found) counts rest rfl
      rw [reading]
      split
      · rename_i found
        rw [funext (Reader.reading_none found)]
        rfl
      · rename_i rest found
        rw [funext (Reader.reading_opening found)]
        exact readsOn found (0 :: counts)
      · rename_i rest found
        cases counts with
        | nil =>
            rw [funext (Reader.reading_misplaced found)]
            rfl
        | cons count outer =>
            rw [funext (Reader.reading_closed found)]
            simp only [run_bind, run_closeList, run_handOver (readsOn found), Run.liftM_bind]
      · rename_i characters rest found
        rw [funext (Reader.reading_word found)]
        simp only [run_bind, run_placeWord, run_handOver (readsOn found), Run.liftM_bind]

@[simp] theorem run_nextExpression (reader : Reader) :
    (nextExpression reader).run = liftM reader.nextExpression := by
  unfold nextExpression
  split
  · rename_i isEmpty
    rw [funext (Reader.nextExpression_done isEmpty)]
    rfl
  · rename_i notEmpty
    rw [Reader.nextExpression_cleaningUp notEmpty, liftM_cleaningUp]
    simp only [run_bind, run_stackSize, run_tryCatch, run_reading, run_pure, run_onStack, run_throw]
    rfl

section

variable
  {inner : Evaluation}
  {evaluator : Evaluator}
  (follows : inner.Follows evaluator)

include follows

theorem run_evaluateTopLevel (expression : Handle) :
    (evaluateTopLevel inner expression).run =
      Machine.evaluateTopLevel evaluator expression := by
  simp only [evaluateTopLevel, run_bind, run_push, run_stackSize, follows _,
    Machine.evaluateTopLevel]
  refine bind_congr fun _ => bind_congr fun expected => bind_congr fun value =>
    bind_congr fun entries => ?_
  split <;> simp only [run_bind, run_throw, run_pop, run_pure]

/-- By induction on the length of the text that is left. -/
theorem run_evaluateRest (reader : Reader) :
    (evaluateRest inner reader).run = Machine.evaluateRest evaluator reader := by
  induction size : reader.text.length using Nat.strongRecOn generalizing reader with
  | ind size inductionHypothesis =>
      subst size
      funext machine
      rw [evaluateRest, run_bind, evaluateRest_run, run_nextExpression, Run.bind_apply,
        Run.bind_apply, Run.liftM_apply]
      rcases answered : reader.nextExpression machine with ⟨_ | _ | ⟨expression, rest⟩, after⟩
      · rfl
      · rfl
      · have shorter : rest.text.length < reader.text.length :=
          Reader.nextExpression_shorter (congrArg Prod.fst answered)
        have rests := inductionHypothesis _ shorter rest rfl
        simp only [shorter, ↓reduceDIte, run_bind, run_evaluateTopLevel follows, run_observe, rests,
          run_pure, concludeReading, funext (concludeFirst_run evaluator rest)]

end

/-- The evaluation of a text does what its plan says, whatever the machine. -/
theorem run_evaluateText
    (limit : Nat)
    (text : String) :
    (evaluateText limit text).run =
      Machine.evaluateText (evaluator Library.empty limit) text :=
  run_evaluateRest (evaluate_follows limit) (Reader.ofString text)

end Plan

end ArenaLisp
