import ArenaLisp.Machine.Allocation
import ArenaLisp.Reader.Literal
import ArenaLisp.Reader.Token

namespace ArenaLisp

/-!
# The reader

The reader turns the front of a text into an object of a machine, token by
token.  The elements of lists that are not closed yet lie on the operand stack;
the reader itself only counts them, the innermost list first.  A closing
parenthesis takes the counted elements off again, from the last to the first,
and puts each in front of the list so far.

Reading leaves the operand stack as it was: a failed read drops the elements it
had pushed.  The text after a failed read starts behind the last token that was
taken; a closing parenthesis without a list is not taken.
-/

/-- A text that is being read. -/
structure Reader where
  /-- What has not been read yet. -/
  text : List Char
  deriving Repr, DecidableEq

namespace Reader

/-- A reader at the start of a text. -/
def ofString (text : String) : Reader where
  text := text.toList

/-- Places the object of a word. -/
def placeWord (word : List Char) : Action Handle :=
  match Literal.object word with
  | .ok object => Machine.allocate object
  | .error fault => throw (.unreadable fault)

/-- Puts as many stack entries as given in front of a list, the top entry first. -/
def consPushed : Nat → Handle → Action Handle
  | 0, tail => pure tail
  | count + 1, tail => do
      Machine.push tail
      consPushed count (← Machine.consFromStack)

/-- Replaces the elements of a list, which lie on the stack, by the list's handle. -/
def closeList (count : Nat) : Action Handle := do
  consPushed count (← Machine.allocate .nil)

/-- What one token does to a read. -/
inductive Progress where
  /-- The read goes on with these element counts of the lists that are open. -/
  | more (counts : List Nat) (machine : Machine)
  /-- The read has its answer. -/
  | finished (result : Except Error Handle) (machine : Machine)
  /-- The token cannot stand here. -/
  | misplaced (machine : Machine)

/-- Hands a new object to the innermost open list, or ends the read if none is open. -/
def deliver
    (produce : Action Handle)
    (counts : List Nat)
    (machine : Machine) :
    Progress :=
  match produce machine with
  | (.error error, after) => .finished (.error error) after
  | (.ok handle, after) =>
      match counts with
      | [] => .finished (.ok handle) after
      | count :: outer =>
          .more ((count + 1) :: outer) { after with stack := after.stack.push handle }

/-- What a token does to a read with these element counts of open lists. -/
def advance
    (token : Token)
    (counts : List Nat)
    (machine : Machine) :
    Progress :=
  match token, counts with
  | .opening, counts => .more (0 :: counts) machine
  | .closing, [] => .misplaced machine
  | .closing, count :: outer => deliver (closeList count) outer machine
  | .word characters, counts => deliver (placeWord characters) counts machine

/-- The fault of a text that ends while a read needs more of it. -/
def endFault (counts : List Nat) : ReadFault :=
  if counts.isEmpty then .unexpectedEnd else .unterminatedList

/-- Reads on until the outermost object is complete or the read fails. -/
def readOn
    (counts : List Nat)
    (text : List Char)
    (machine : Machine) :
    (Except Error Handle × Reader) × Machine :=
  match _ : Token.next? text with
  | none => ((.error (.unreadable (endFault counts)), ⟨[]⟩), machine)
  | some (token, rest) =>
      match advance token counts machine with
      | .misplaced after =>
          ((.error (.unreadable .unexpectedClose), ⟨Token.skip text⟩), after)
      | .finished result after => ((result, ⟨rest⟩), after)
      | .more counts after => readOn counts rest after
termination_by text.length
decreasing_by exact Token.length_lt_of_next? ‹_›

/-- The machine with the operand stack cut down to a number of entries. -/
def restoreStack (size : Nat) (machine : Machine) : Machine :=
  { machine with stack := machine.stack.drop (machine.stack.size - size) }

/--
Reads one object.  The answer is none if only separators and comments are left.
The reader that goes on with the text is part of the answer in every case.
-/
def read
    (reader : Reader)
    (machine : Machine) :
    (Except Error (Option Handle) × Reader) × Machine :=
  let size := machine.stack.size
  match Token.skip reader.text with
  | [] => ((.ok none, ⟨[]⟩), machine)
  | text =>
      match readOn [] text machine with
      | ((.ok handle, rest), after) => ((.ok (some handle), rest), after)
      | ((.error error, rest), after) => ((.error error, rest), restoreStack size after)

/-- The reader without the separators and comments in front of its text. -/
def skip (reader : Reader) : Reader where
  text := Token.skip reader.text

/-- Whether only separators and comments are left. -/
def isAtEnd (reader : Reader) : Bool :=
  reader.skip.text.isEmpty

/-- A successful read of an object shortens the text. -/
theorem length_lt_of_readOn
    {counts : List Nat}
    {text : List Char}
    {machine after : Machine}
    {handle : Handle}
    {rest : Reader}
    (answered : readOn counts text machine = ((.ok handle, rest), after)) :
    rest.text.length < text.length := by
  induction size : text.length using Nat.strongRecOn generalizing counts text machine with
  | ind size inductionHypothesis =>
      subst size
      unfold readOn at answered
      split at answered
      · simp at answered
      · rename_i token remaining found
        have shorter := Token.length_lt_of_next? found
        split at answered
        · simp at answered
        · simp only [Prod.mk.injEq] at answered
          rw [← answered.1.2]
          exact shorter
        · exact Nat.lt_trans (inductionHypothesis _ shorter answered rfl) shorter

/-- A successful read of an object shortens the text that is left to the reader. -/
theorem length_lt_of_read
    {reader rest : Reader}
    {machine after : Machine}
    {handle : Handle}
    (answered : reader.read machine = ((.ok (some handle), rest), after)) :
    rest.text.length < reader.text.length := by
  have skippedLength := (Token.skipFrom_suffix false reader.text).length_le
  unfold read at answered
  split at answered
  · simp at answered
  · rename_i text notEmpty
    split at answered
    · rename_i readHandle readRest readAfter readAnswer
      simp only [Prod.mk.injEq] at answered
      rw [← answered.1.2]
      have shorter := length_lt_of_readOn readAnswer
      simp only [Token.skip] at shorter
      omega
    · simp at answered

end Reader

end ArenaLisp
