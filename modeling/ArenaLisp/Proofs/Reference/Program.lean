import ArenaLisp.Proofs.Reference.Interpreter
import ArenaLisp.Reader.Literal
import ArenaLisp.Reader.Token

namespace ArenaLisp

/-!
# Programs of the reference

A program is a text.  Its expressions are read as trees, token by token, and each is
evaluated in the world that the one before it has left.  The first expression that
cannot be read ends the program.
-/

namespace Tree

/-- The tree of a word: an integer that fits into 64 bits, or a symbol. -/
def ofWord (word : List Char) : Except ReadFault Tree :=
  if Literal.isInteger word then
    match Literal.integer? word with
    | some value => .ok (.integer value)
    | none => .error (.integerOutOfRange (String.ofList word))
  else
    .ok (.symbol (String.ofList word))

end Tree

namespace Reference

/-- What a token does to a reading. -/
inductive Reading where
  /-- The lists that are open now, the innermost first, each with its last element first. -/
  | more (opened : List (List Tree))
  | finished (result : Except ReadFault Tree)

/-- Hands a tree to the innermost open list; without one the tree is what was read. -/
def deliver (tree : Tree) : List (List Tree) → Reading
  | [] => .finished (.ok tree)
  | items :: outer => .more ((tree :: items) :: outer)

def advance (token : Token) (opened : List (List Tree)) : Reading :=
  match token, opened with
  | .opening, opened => .more ([] :: opened)
  | .closing, [] => .finished (.error .unexpectedClose)
  | .closing, items :: outer => deliver (.list items.reverse) outer
  | .word characters, opened =>
      match Tree.ofWord characters with
      | .ok tree => deliver tree opened
      | .error fault => .finished (.error fault)

/-- Reads one tree, and answers with the text behind it as well. -/
def readOn
    (opened : List (List Tree))
    (text : List Char) :
    Except ReadFault (Tree × List Char) :=
  match _ : Token.next? text with
  | none => .error (if opened.isEmpty then .unexpectedEnd else .unterminatedList)
  | some (token, rest) =>
      match advance token opened with
      | .finished (.ok tree) => .ok (tree, rest)
      | .finished (.error fault) => .error fault
      | .more opened => readOn opened rest
termination_by text.length
decreasing_by exact Token.length_lt_of_next? ‹_›

theorem readOn_none
    {opened : List (List Tree)}
    {text : List Char}
    (found : Token.next? text = none) :
    readOn opened text =
      .error (if opened.isEmpty then .unexpectedEnd else .unterminatedList) := by
  rw [readOn]
  split
  · rfl
  · rename_i isToken
    rw [found] at isToken
    cases isToken

theorem readOn_some
    {opened : List (List Tree)}
    {text rest : List Char}
    {token : Token}
    (found : Token.next? text = some (token, rest)) :
    readOn opened text =
      match advance token opened with
      | .finished (.ok tree) => .ok (tree, rest)
      | .finished (.error fault) => .error fault
      | .more opened => readOn opened rest := by
  rw [readOn]
  split
  · rename_i noToken
    rw [found] at noToken
    cases noToken
  · rename_i isToken
    rw [found] at isToken
    cases isToken
    rfl

theorem length_lt_of_readOn
    {opened : List (List Tree)}
    {text rest : List Char}
    {tree : Tree}
    (answered : readOn opened text = .ok (tree, rest)) :
    rest.length < text.length := by
  induction size : text.length using Nat.strongRecOn generalizing opened text with
  | ind size inductionHypothesis =>
      subst size
      rw [readOn] at answered
      split at answered
      · simp at answered
      · rename_i token remaining found
        have shorter := Token.length_lt_of_next? found
        split at answered
        · simp only [Except.ok.injEq, Prod.mk.injEq] at answered
          rw [← answered.2]
          exact shorter
        · simp at answered
        · exact Nat.lt_trans (inductionHypothesis _ shorter answered rfl) shorter

/-- The first tree of a text and the text behind it, or none if there is no tree left. -/
def readNext (text : List Char) : Except ReadFault (Option (Tree × List Char)) :=
  if Token.skip text = [] then
    .ok none
  else
    (readOn [] (Token.skip text)).map some

theorem skip_of_readNext
    {text : List Char}
    (isEnd : readNext text = .ok none) :
    Token.skip text = [] := by
  unfold readNext at isEnd
  split at isEnd
  · assumption
  · cases isRead : readOn [] (Token.skip text) <;> rw [isRead] at isEnd <;> cases isEnd

theorem readOn_of_readNext_some
    {text rest : List Char}
    {tree : Tree}
    (isRead : readNext text = .ok (some (tree, rest))) :
    Token.skip text ≠ [] ∧ readOn [] (Token.skip text) = .ok (tree, rest) := by
  unfold readNext at isRead
  split at isRead
  · cases isRead
  · rename_i notEmpty
    refine ⟨notEmpty, ?_⟩
    cases found : readOn [] (Token.skip text) <;> rw [found] at isRead <;> cases isRead
    rfl

theorem readOn_of_readNext_error
    {text : List Char}
    {fault : ReadFault}
    (unreadable : readNext text = .error fault) :
    Token.skip text ≠ [] ∧ readOn [] (Token.skip text) = .error fault := by
  unfold readNext at unreadable
  split at unreadable
  · cases unreadable
  · rename_i notEmpty
    refine ⟨notEmpty, ?_⟩
    cases found : readOn [] (Token.skip text) <;> rw [found] at unreadable <;> cases unreadable
    rfl

/-- The texts of the values of a program, and the world that it ends in. -/
def run (text : List Char) (world : World) : Except ReadFault (List String) × World :=
  if Token.skip text = [] then
    (.ok [], world)
  else
    match _ : readOn [] (Token.skip text) with
    | .error fault => (.error fault, world)
    | .ok (tree, rest) =>
        let value := evaluate tree world
        match run rest value.2 with
        | (.ok texts, final) => (.ok (value.1.render :: texts), final)
        | (.error fault, final) => (.error fault, final)
termination_by text.length
decreasing_by
  have skippedLength := (Token.skipFrom_suffix false text).length_le
  exact Nat.lt_of_lt_of_le (length_lt_of_readOn ‹_›) skippedLength

theorem run_done
    {text : List Char}
    (isEmpty : Token.skip text = [])
    (world : World) :
    run text world = (.ok [], world) := by
  rw [run, if_pos isEmpty]

theorem run_unreadable
    {text : List Char}
    {fault : ReadFault}
    (notEmpty : Token.skip text ≠ [])
    (unreadable : readOn [] (Token.skip text) = .error fault)
    (world : World) :
    run text world = (.error fault, world) := by
  rw [run, if_neg notEmpty]
  split <;> rename_i otherwise <;> rw [unreadable] at otherwise <;> cases otherwise
  rfl

/-- The text of a value in front of those of the rest of a program, unless that has a fault. -/
def inFront (text : String) :
    Except ReadFault (List String) × World → Except ReadFault (List String) × World
  | (.ok texts, final) => (.ok (text :: texts), final)
  | (.error fault, final) => (.error fault, final)

theorem run_expression
    {text rest : List Char}
    {tree : Tree}
    (notEmpty : Token.skip text ≠ [])
    (isRead : readOn [] (Token.skip text) = .ok (tree, rest))
    (world : World) :
    run text world = inFront (evaluate tree world).1.render (run rest (evaluate tree world).2) := by
  rw [run, if_neg notEmpty]
  split <;> rename_i otherwise <;> rw [isRead] at otherwise <;> cases otherwise
  rfl

end Reference

end ArenaLisp
