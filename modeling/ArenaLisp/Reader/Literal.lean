import ArenaLisp.Error

namespace ArenaLisp

/-!
# Words as objects

A word of decimal digits, with or without a minus sign in front, is an integer;
it has to fit into 64 bits.  Every other word is a symbol of that name.
-/

namespace Literal

/-- The digits of a word that may have a minus sign in front. -/
def digits : List Char → List Char
  | '-' :: rest => rest
  | word => word

/-- Whether a word is written like an integer. -/
def isInteger (word : List Char) : Bool :=
  !(digits word).isEmpty && (digits word).all Char.isDigit

/-- The number that one decimal digit denotes. -/
def digitValue (digit : Char) : Nat :=
  digit.toNat - '0'.toNat

/-- The number that decimal digits denote. -/
def natural (digits : List Char) : Nat :=
  digits.foldl (fun value digit => 10 * value + digitValue digit) 0

/-- The number that decimal digits denote, or a bound if that is smaller. -/
def naturalUpTo (bound : Nat) (digits : List Char) : Nat :=
  digits.foldl (fun value digit => min (10 * value + digitValue digit) bound) 0

/-- The integer of a word, if its digits denote a given number. -/
def signed (word : List Char) (magnitude : Nat) : Int :=
  match word with
  | '-' :: _ => -(magnitude : Int)
  | _ => magnitude

/-- The number that a word written like an integer denotes. -/
def integer (word : List Char) : Int :=
  signed word (natural (digits word))

/-- Whether a number fits into a signed 64-bit word. -/
def fits (value : Int) : Bool :=
  -9223372036854775808 ≤ value && value ≤ 9223372036854775807

/-- A number whose sign does not matter: neither it nor its negation fits. -/
def tooLarge : Nat := 9223372036854775809

/--
The 64-bit integer of a word written like an integer, if it fits.  Digits beyond
those that can matter are not multiplied out.
-/
def integer? (word : List Char) : Option Int64 :=
  let value := signed word (naturalUpTo tooLarge (digits word))
  if fits value then
    some (Int64.ofInt value)
  else
    none

/-- The object that a word stands for. -/
def object (word : List Char) : Except ReadFault Object :=
  if isInteger word then
    match integer? word with
    | some value => .ok (.integer value)
    | none => .error (.integerOutOfRange (String.ofList word))
  else
    .ok (.symbol (String.ofList word))

/-- Cutting off at a bound after every digit is cutting off once at the end. -/
theorem naturalUpTo_eq (bound : Nat) (digits : List Char) :
    naturalUpTo bound digits = min (natural digits) bound := by
  have generalized
      (value : Nat) :
      digits.foldl (fun value digit => min (10 * value + digitValue digit) bound)
          (min value bound) =
        min (digits.foldl (fun value digit => 10 * value + digitValue digit) value) bound := by
    induction digits generalizing value with
    | nil =>
        rfl
    | cons digit rest inductionHypothesis =>
        have oneStep :
            min (10 * min value bound + digitValue digit) bound =
              min (10 * value + digitValue digit) bound := by
          omega
        simpa only [List.foldl_cons, oneStep] using
          inductionHypothesis (10 * value + digitValue digit)
  simpa [naturalUpTo, natural] using generalized 0

/-- The integer of a word is the number it denotes, if that fits. -/
theorem integer?_eq (word : List Char) :
    integer? word =
      if fits (integer word) then some (Int64.ofInt (integer word)) else none := by
  unfold integer? integer
  rw [naturalUpTo_eq]
  by_cases small : natural (digits word) ≤ tooLarge
  · rw [Nat.min_eq_left small]
  · have large : tooLarge ≤ natural (digits word) := Nat.le_of_not_le small
    have boundDoesNotFit : fits (signed word tooLarge) = false := by
      unfold signed
      split <;> decide
    have numberDoesNotFit : fits (signed word (natural (digits word))) = false := by
      simp only [tooLarge] at large
      unfold signed
      split <;> simp only [fits, Bool.and_eq_false_iff, decide_eq_false_iff_not] <;> omega
    simp [Nat.min_eq_right large, boundDoesNotFit, numberDoesNotFit]

end Literal

end ArenaLisp
