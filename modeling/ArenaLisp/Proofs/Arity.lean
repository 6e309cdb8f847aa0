import ArenaLisp.Proofs.StrictAnswers

namespace ArenaLisp

/-!
# How operations refuse their operands

A builtin operation refuses a number of operands that it does not accept, or an operand
that it does not support.  It refuses in no other way.
-/

/-- The numbers of operands that an operation accepts. -/
structure Arity where
  /-- The least number that is accepted. -/
  least : Nat
  /-- Whether any larger number is accepted as well. -/
  more : Bool
  deriving Repr, DecidableEq

namespace Arity

def Accepts (arity : Arity) (given : Nat) : Prop :=
  arity.least ≤ given ∧ (given ≤ arity.least ∨ arity.more = true)

instance (arity : Arity) (given : Nat) : Decidable (arity.Accepts given) :=
  inferInstanceAs (Decidable (_ ∧ _))

theorem Accepts.exactly
    {arity : Arity}
    {given : Nat}
    (accepted : arity.Accepts given)
    (noMore : arity.more = false) :
    given = arity.least := by
  refine Nat.le_antisymm (accepted.2.resolve_right ?_) accepted.1
  simp [noMore]

/-- The wording of an arity in a refusal. -/
def text (arity : Arity) : String :=
  if arity.more then "at least " ++ toString arity.least else toString arity.least

end Arity

/-- Whatever error a result is, it is one of those that are allowed. -/
def FailsOnly {Result : Type} (allowed : Error → Prop) (result : Except Error Result) : Prop :=
  ∀ error, result = .error error → allowed error

namespace FailsOnly

variable {First Result : Type} {allowed : Error → Prop}

theorem pure (value : Result) : FailsOnly allowed (Pure.pure value) := by
  rintro _ ⟨⟩

theorem error
    {error : Error}
    (isAllowed : allowed error) :
    FailsOnly allowed (.error error : Except Error Result) := by
  rintro _ ⟨⟩
  exact isAllowed

theorem bind
    {result : Except Error First}
    {continuation : First → Except Error Result}
    (first : FailsOnly allowed result)
    (later : ∀ value, FailsOnly allowed (continuation value)) :
    FailsOnly allowed (result >>= continuation) := by
  rcases result with failure | value
  · exact .error (first failure rfl)
  · exact later value

end FailsOnly

namespace Builtin

/-- The numbers of operands that a builtin operation accepts. -/
def arity : Builtin → Arity
  | .add | .multiply => ⟨0, true⟩
  | .subtract => ⟨1, true⟩
  | .car | .cdr => ⟨1, false⟩
  | .equal | .less | .greater | .definition => ⟨2, false⟩
  | .conditional => ⟨3, false⟩

/-- The errors with which a builtin operation refuses as many operands as given. -/
inductive Refuses (builtin : Builtin) (given : Nat) : Error → Prop where
  | number
      (unaccepted : ¬builtin.arity.Accepts given) :
      Refuses builtin given (.arityMismatch builtin.name builtin.arity.text given)
  | kind
      (accepted : builtin.arity.Accepts given)
      (request : String)
      (kind : Kind) :
      Refuses builtin given (.unsupported request kind)

variable {Part : Type} {builtin : Builtin} {given : Nat}

theorem Refuses.recoverable
    {error : Error}
    (refuses : builtin.Refuses given error) :
    error.isFatal = false := by
  cases refuses <;> rfl

/-- Operands that are too few or too many are refused before any of them is looked at. -/
theorem answer_unaccepted
    {operands : List (View Part)}
    (unaccepted : ¬builtin.arity.Accepts operands.length) :
    builtin.answer operands = .error (builtin.refusal builtin.arity.text operands) := by
  cases builtin with
  | add | multiply =>
      simp [arity, Arity.Accepts] at unaccepted
  | subtract =>
      obtain rfl : operands = [] := by
        simpa [arity, Arity.Accepts] using unaccepted
      rfl
  | equal | less | greater =>
      match operands with
      | [] | [_] | _ :: _ :: _ :: _ =>
          rfl
      | [_, _] =>
          simp [arity, Arity.Accepts] at unaccepted
  | car | cdr =>
      match operands with
      | [] | _ :: _ :: _ =>
          rfl
      | [_] =>
          simp [arity, Arity.Accepts] at unaccepted
  | conditional | definition =>
      rfl

/-- The errors with which an operand is not supported. -/
def Unsupported (error : Error) : Prop :=
  ∃ request kind, error = .unsupported request kind

theorem integerValue_fails (operand : View Part) :
    FailsOnly Unsupported operand.integerValue := by
  cases operand with
  | integer value =>
      exact .pure value
  | pair | other =>
      exact .error ⟨_, _, rfl⟩

theorem integers_fails (operands : List (View Part)) :
    FailsOnly Unsupported (integers operands) := by
  induction operands with
  | nil =>
      exact .pure []
  | cons operand rest inductionHypothesis =>
      rw [integers_cons]
      exact .bind (integerValue_fails operand) fun value =>
        .bind inductionHypothesis fun values => .pure (value :: values)

/-- Operands of an accepted number are refused for their kind alone. -/
theorem answer_accepted
    (strict : builtin.evaluatesOperands = true)
    {operands : List (View Part)}
    (accepted : builtin.arity.Accepts operands.length) :
    FailsOnly Unsupported (builtin.answer operands) := by
  cases builtin with
  | add | multiply =>
      exact .bind (integers_fails operands) fun _ => .pure _
  | subtract =>
      rcases List.eq_nil_or_concat operands with rfl | ⟨others, first, rfl⟩
      · simp [arity, Arity.Accepts] at accepted
      · simp only [answer, subtracted, List.concat_eq_append, List.getLast?_concat]
        exact .bind (integerValue_fails first) fun _ =>
          .bind (integers_fails _) fun _ => .pure _
  | equal | less | greater =>
      obtain ⟨right, left, rfl⟩ := List.length_eq_two.mp (accepted.exactly rfl)
      exact .bind (integerValue_fails right) fun _ =>
        .bind (integerValue_fails left) fun _ => .pure _
  | car | cdr =>
      obtain ⟨operand, rfl⟩ := List.length_eq_one_iff.mp (accepted.exactly rfl)
      refine .bind ?_ fun part => .pure (Answer.part part)
      cases operand with
      | pair car cdr =>
          exact .pure _
      | integer | other =>
          exact .error ⟨_, _, rfl⟩
  | conditional | definition =>
      exact absurd strict (by decide)

/-- A strict operation that fails refuses its operands. -/
theorem answer_refuses
    (strict : builtin.evaluatesOperands = true)
    (operands : List (View Part)) :
    FailsOnly (builtin.Refuses operands.length) (builtin.answer operands) := by
  by_cases accepted : builtin.arity.Accepts operands.length
  · intro error failed
    obtain ⟨request, kind, rfl⟩ := answer_accepted strict accepted error failed
    exact .kind accepted request kind
  · rw [answer_unaccepted accepted]
    exact .error (.number accepted)

end Builtin

end ArenaLisp
