import ArenaLisp.Builtin.Arithmetic
import Mathlib.Data.List.Forall2

namespace ArenaLisp

/-!
# Answers of strict operations

A builtin operation whose operands are evaluated sees little of them: the value of
an integer, the two parts of a pair, and the kind of anything else.  Its answer is
a function of what it sees.

The function treats the parts of pairs as opaque, so answers to related operands are
related, whatever the parts are taken to be.
-/

/-- What a strict operation sees of an operand. -/
inductive View (Part : Type) where
  | integer (value : Int64)
  | pair (car cdr : Part)
  | other (kind : Kind)
  deriving Repr, DecidableEq

/-- What a strict operation answers with, unless it fails. -/
inductive Answer (Part : Type) where
  | integer (value : Int64)
  | boolean (value : Bool)
  /-- A part of an operand. -/
  | part (part : Part)
  deriving Repr, DecidableEq

namespace View

variable {Part : Type}

def kind : View Part → Kind
  | .integer _ => .integer
  | .pair _ _ => .pair
  | .other kind => kind

def integerValue : View Part → Except Error Int64
  | .integer value => .ok value
  | view => .error (.unsupported "integer value" view.kind)

def car : View Part → Except Error Part
  | .pair car _ => .ok car
  | view => .error (.unsupported "car" view.kind)

def cdr : View Part → Except Error Part
  | .pair _ cdr => .ok cdr
  | view => .error (.unsupported "cdr" view.kind)

end View

namespace Object

/-- What a strict operation sees of an object. -/
def view : Object → View Handle
  | .integer value => .integer value
  | .pair car cdr => .pair car cdr
  | object => .other object.kind

theorem integerValue_view (object : Object) : object.view.integerValue = object.integerValue := by
  cases object <;> rfl

theorem car_view (object : Object) : object.view.car = object.car := by
  cases object <;> rfl

theorem cdr_view (object : Object) : object.view.cdr = object.cdr := by
  cases object <;> rfl

end Object

namespace Builtin

variable {Part : Type}

/-- The values of integers; the first operand that is none is refused. -/
def integers (operands : List (View Part)) : Except Error (List Int64) :=
  operands.mapM View.integerValue

/-- The refusal of a number of operands. -/
def refusal (builtin : Builtin) (expected : String) (operands : List (View Part)) : Error :=
  .arityMismatch builtin.name expected operands.length

def folded
    (fold : List Int64 → Int64)
    (operands : List (View Part)) :
    Except Error (Answer Part) := do
  return .integer (fold (← integers operands))

/-- The operand that is subtracted from comes first in a call, so it is the last one here. -/
def subtracted (operands : List (View Part)) : Except Error (Answer Part) :=
  match operands.getLast? with
  | none => .error (subtract.refusal "at least 1" operands)
  | some first => do
      let first ← first.integerValue
      let others ← integers operands.dropLast
      return .integer (difference first others)

def compared
    (builtin : Builtin)
    (test : Int64 → Int64 → Bool) :
    List (View Part) → Except Error (Answer Part)
  | [right, left] => do
      let right ← right.integerValue
      let left ← left.integerValue
      return .boolean (test left right)
  | operands => .error (builtin.refusal "2" operands)

def selected
    (builtin : Builtin)
    (part : View Part → Except Error Part) :
    List (View Part) → Except Error (Answer Part)
  | [operand] => do return .part (← part operand)
  | operands => .error (builtin.refusal "1" operands)

/--
The answer of a strict operation to operands in the order in which they are taken,
the last operand first.  The special forms are not strict: they refuse.
-/
def answer : Builtin → List (View Part) → Except Error (Answer Part)
  | .add, operands => folded sum operands
  | .subtract, operands => subtracted operands
  | .multiply, operands => folded product operands
  | .equal, operands => compared .equal (fun left right => left == right) operands
  | .less, operands => compared .less (fun left right => left < right) operands
  | .greater, operands => compared .greater (fun left right => left > right) operands
  | .car, operands => selected .car View.car operands
  | .cdr, operands => selected .cdr View.cdr operands
  | .conditional, operands => .error (conditional.refusal "3" operands)
  | .definition, operands => .error (definition.refusal "2" operands)

theorem integers_cons
    (first : View Part)
    (rest : List (View Part)) :
    integers (first :: rest) = do
      let value ← first.integerValue
      let values ← integers rest
      return value :: values :=
  List.mapM_cons

end Builtin

/-- Two views that differ in nothing but related parts. -/
inductive View.Related {First Second : Type} (related : First → Second → Prop) :
    View First → View Second → Prop where
  | integer (value : Int64) : Related related (.integer value) (.integer value)
  | pair
      {firstCar firstCdr : First}
      {secondCar secondCdr : Second}
      (cars : related firstCar secondCar)
      (cdrs : related firstCdr secondCdr) :
      Related related (.pair firstCar firstCdr) (.pair secondCar secondCdr)
  | other (kind : Kind) : Related related (.other kind) (.other kind)

/-- Two answers that differ in nothing but related parts, or one recoverable error. -/
inductive Answer.Related {First Second : Type} (related : First → Second → Prop) :
    Except Error (Answer First) → Except Error (Answer Second) → Prop where
  | error
      {error : Error}
      (recoverable : error.isFatal = false) :
      Related related (.error error) (.error error)
  | integer (value : Int64) : Related related (.ok (.integer value)) (.ok (.integer value))
  | boolean (value : Bool) : Related related (.ok (.boolean value)) (.ok (.boolean value))
  | part
      {first : First}
      {second : Second}
      (parts : related first second) :
      Related related (.ok (.part first)) (.ok (.part second))

namespace Builtin

variable
  {First Second : Type}
  {related : First → Second → Prop}

theorem integerValue_related
    {first : View First}
    {second : View Second}
    (views : View.Related related first second) :
    first.integerValue = second.integerValue := by
  cases views <;> rfl

theorem integerValue_recoverable
    {view : View First}
    {error : Error}
    (refused : view.integerValue = .error error) :
    error.isFatal = false := by
  cases view with
  | integer value =>
      simp [View.integerValue] at refused
  | pair | other =>
      simp only [View.integerValue, Except.error.injEq] at refused
      rw [← refused]
      rfl

theorem integers_related
    {first : List (View First)}
    {second : List (View Second)}
    (operands : List.Forall₂ (View.Related related) first second) :
    integers first = integers second := by
  induction operands with
  | nil =>
      rfl
  | cons views _ inductionHypothesis =>
      rw [integers_cons, integers_cons, integerValue_related views, inductionHypothesis]

theorem integers_recoverable
    {operands : List (View First)}
    {error : Error}
    (refused : integers operands = .error error) :
    error.isFatal = false := by
  induction operands with
  | nil =>
      simp [integers, pure, Except.pure] at refused
  | cons first rest inductionHypothesis =>
      rw [integers_cons] at refused
      cases firstValue : first.integerValue with
      | error firstError =>
          simp only [firstValue, bind, Except.bind, Except.error.injEq] at refused
          exact refused ▸ integerValue_recoverable firstValue
      | ok value =>
          cases restValues : integers rest with
          | error restError =>
              simp only [firstValue, restValues, bind, Except.bind, Except.error.injEq] at refused
              subst refused
              exact inductionHypothesis restValues
          | ok values =>
              simp [firstValue, restValues, bind, Except.bind, pure, Except.pure] at refused

section Related

variable
  {first : List (View First)}
  {second : List (View Second)}
  (operands : List.Forall₂ (View.Related related) first second)

include operands

theorem folded_related (fold : List Int64 → Int64) :
    Answer.Related related (folded fold first) (folded fold second) := by
  unfold folded
  rw [integers_related operands]
  cases values : integers second with
  | error error =>
      exact .error (integers_recoverable values)
  | ok values =>
      exact .integer _

theorem refusal_related
    (builtin : Builtin)
    (expected : String) :
    @Answer.Related First Second related
      (.error (builtin.refusal expected first)) (.error (builtin.refusal expected second)) := by
  rw [refusal, refusal, operands.length_eq]
  exact .error rfl

theorem compared_related
    (builtin : Builtin)
    (test : Int64 → Int64 → Bool) :
    Answer.Related related (compared builtin test first) (compared builtin test second) := by
  have refused := refusal_related operands builtin "2"
  rcases operands with _ | ⟨right, _ | ⟨left, _ | _⟩⟩
  · exact refused
  · exact refused
  · rename_i firstRight secondRight firstLeft secondLeft
    simp only [compared, integerValue_related right, integerValue_related left]
    cases rightValue : secondRight.integerValue with
    | error error =>
        exact .error (integerValue_recoverable rightValue)
    | ok right =>
        cases leftValue : secondLeft.integerValue with
        | error error =>
            exact .error (integerValue_recoverable leftValue)
        | ok left =>
            exact .boolean (test left right)
  · exact refused

theorem selected_related
    (builtin : Builtin)
    {firstPart : View First → Except Error First}
    {secondPart : View Second → Except Error Second}
    (parts :
      ∀ firstView secondView,
        View.Related related firstView secondView →
        Answer.Related related
          (firstPart firstView >>= fun part => pure (.part part))
          (secondPart secondView >>= fun part => pure (.part part))) :
    Answer.Related related (selected builtin firstPart first)
      (selected builtin secondPart second) := by
  have refused := refusal_related operands builtin "1"
  rcases operands with _ | ⟨operand, _ | _⟩
  · exact refused
  · exact parts _ _ operand
  · exact refused

theorem subtracted_related :
    Answer.Related related (subtracted first) (subtracted second) := by
  have refused := refusal_related operands subtract "at least 1"
  rcases List.eq_nil_or_concat first with rfl | ⟨firstOthers, firstLast, rfl⟩
  · cases operands
    exact refused
  · obtain ⟨secondLast, secondOthers, lasts, others, shape⟩ :=
      List.forall₂_cons_left_iff.mp
        (by simpa using List.forall₂_reverse_iff.mpr operands)
    obtain rfl : second = secondOthers.reverse ++ [secondLast] := by
      rw [← List.reverse_reverse second, shape, List.reverse_cons]
    have othersRelated : List.Forall₂ (View.Related related) firstOthers secondOthers.reverse := by
      simpa using List.forall₂_reverse_iff.mpr others
    simp only [subtracted, List.concat_eq_append, List.getLast?_concat, List.dropLast_concat,
      integerValue_related lasts, integers_related othersRelated]
    cases lastValue : secondLast.integerValue with
    | error error =>
        exact .error (integerValue_recoverable lastValue)
    | ok last =>
        cases otherValues : integers secondOthers.reverse with
        | error error =>
            exact .error (integers_recoverable otherValues)
        | ok others =>
            exact .integer (difference last others)

end Related

/-- Related operands have related answers. -/
theorem answer_related
    (builtin : Builtin)
    {first : List (View First)}
    {second : List (View Second)}
    (operands : List.Forall₂ (View.Related related) first second) :
    Answer.Related related (builtin.answer first) (builtin.answer second) := by
  cases builtin with
  | add | multiply =>
      exact folded_related operands _
  | subtract =>
      exact subtracted_related operands
  | equal | less | greater =>
      exact compared_related operands _ _
  | car =>
      refine selected_related operands _ fun firstView secondView views => ?_
      cases views with
      | pair cars cdrs =>
          exact .part cars
      | integer | other =>
          exact .error rfl
  | cdr =>
      refine selected_related operands _ fun firstView secondView views => ?_
      cases views with
      | pair cars cdrs =>
          exact .part cdrs
      | integer | other =>
          exact .error rfl
  | conditional =>
      exact refusal_related operands conditional "3"
  | definition =>
      exact refusal_related operands definition "2"

end Builtin

end ArenaLisp
