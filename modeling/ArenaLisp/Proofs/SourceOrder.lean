import ArenaLisp.Proofs.BuiltinDiscipline
import ArenaLisp.Proofs.MemoryExhaustion
import Mathlib.Algebra.BigOperators.Group.List.Basic
import Mathlib.Algebra.Ring.Int.Defs

namespace ArenaLisp

/-!
# Integers in source order

The operations on integers take their operands from the top of the stack, the last
operand first, and a subtraction adds up all operands but the first before it takes
their sum away.  What comes of it is what the operands give in their source order
over all integers, reduced to 64 bits.

An operand that is no integer is met in the order in which operands are looked at:
the last one first, except that a subtraction looks at its first operand first.
-/

def Object.isInteger : Object → Bool
  | .integer _ => true
  | _ => false

namespace Builtin

/-- The operations that accept nothing but integers. -/
def onIntegers : List Builtin :=
  [.add, .subtract, .multiply, .equal, .less, .greater]

/--
What an operation makes of integers of any size, in source order.  A number is
reduced to the 64-bit integer that is congruent to it modulo two to the power of 64.
-/
inductive Computes : Builtin → List Int → Object → Prop where
  | sum
      {operands : List Int}
      {value : Int64}
      (reduced : value.toInt = operands.sum.bmod (2 ^ 64)) :
      Computes .add operands (.integer value)
  | product
      {operands : List Int}
      {value : Int64}
      (reduced : value.toInt = operands.prod.bmod (2 ^ 64)) :
      Computes .multiply operands (.integer value)
  | negation
      {operand : Int}
      {value : Int64}
      (reduced : value.toInt = (-operand).bmod (2 ^ 64)) :
      Computes .subtract [operand] (.integer value)
  | difference
      {first second : Int}
      {others : List Int}
      {value : Int64}
      (reduced :
        value.toInt =
          ((second :: others).foldl (fun left right => left - right) first).bmod (2 ^ 64)) :
      Computes .subtract (first :: second :: others) (.integer value)
  | equality (left right : Int) : Computes .equal [left, right] (.boolean (left = right))
  | less (left right : Int) : Computes .less [left, right] (.boolean (left < right))
  | greater (left right : Int) : Computes .greater [left, right] (.boolean (left > right))

/--
The operand that a call reports, with the operands in source order: the last one that
is no integer, but the first one of a subtraction if that is none.
-/
def blamed? (builtin : Builtin) (operands : List Object) : Option Object :=
  let strangers := operands.filter fun operand => !operand.isInteger
  let first := operands.head?.filter fun operand => !operand.isInteger
  if builtin = .subtract then first.or strangers.getLast? else strangers.getLast?

/-- Somebody is to blame exactly if not all operands are integers. -/
theorem blamed?_isSome_iff
    (builtin : Builtin)
    (operands : List Object) :
    (builtin.blamed? operands).isSome = true ↔
      ∃ operand ∈ operands, operand.isInteger = false := by
  have last :
      (operands.filter fun operand => !operand.isInteger).getLast?.isSome = true ↔
        ∃ operand ∈ operands, operand.isInteger = false := by
    rw [List.getLast?_isSome, ne_eq, List.filter_eq_nil_iff]
    simp
  unfold blamed?
  split
  · rw [Option.isSome_or, Bool.or_eq_true, last]
    refine or_iff_right_of_imp fun isFirst => ?_
    cases operands with
    | nil =>
        cases isFirst
    | cons first others =>
        exact ⟨first, List.mem_cons_self, by simpa using isFirst⟩
  · exact last

variable (values : List Int64)

theorem sum_eq : sum values = Int64.ofInt (values.map Int64.toInt).sum := by
  have step
      (soFar : Int)
      (value : Int64) :
      Int64.ofInt soFar + value = Int64.ofInt (soFar + value.toInt) := by
    rw [Int64.ofInt_add, Int64.ofInt_toInt]
  rw [List.sum_eq_foldl, List.foldl_map, ← List.foldl_hom Int64.ofInt step]
  rfl

theorem product_eq : product values = Int64.ofInt (values.map Int64.toInt).prod := by
  have step
      (soFar : Int)
      (value : Int64) :
      Int64.ofInt soFar * value = Int64.ofInt (soFar * value.toInt) := by
    rw [Int64.ofInt_mul, Int64.ofInt_toInt]
  rw [List.prod_eq_foldl, List.foldl_map, ← List.foldl_hom Int64.ofInt step]
  rfl

/-- Subtracting one operand after the other subtracts their sum. -/
theorem foldl_sub
    (first : Int)
    (others : List Int) :
    others.foldl (fun left right => left - right) first = first - others.sum := by
  induction others generalizing first with
  | nil =>
      simp
  | cons second others inductionHypothesis =>
      rw [List.foldl_cons, inductionHypothesis, List.sum_cons]
      omega

/-- A single operand is negated; behind a first one the order of the others is no matter. -/
theorem computes_difference
    (first : Int64)
    (others : List Int64) :
    Computes .subtract ((first :: others).map Int64.toInt)
      (.integer (difference first others.reverse)) := by
  cases others with
  | nil =>
      have negated : difference first [] = Int64.ofInt (-first.toInt) := by
        rw [Int64.ofInt_neg, Int64.ofInt_toInt]
        rfl
      exact .negation ((congrArg Int64.toInt negated).trans Int64.toInt_ofInt)
  | cons second others =>
      have someOthers : (second :: others).reverse.isEmpty = false := by
        simp
      have subtracted :
          difference first (second :: others).reverse =
            Int64.ofInt
              (((second :: others).map Int64.toInt).foldl
                (fun left right => left - right) first.toInt) := by
        rw [foldl_sub, Int64.ofInt_sub, Int64.ofInt_toInt, difference, someOthers, sum_eq,
          List.map_reverse, List.sum_reverse]
        rfl
      exact .difference ((congrArg Int64.toInt subtracted).trans Int64.toInt_ofInt)

/-- The integers that some operands are, the last operand first. -/
theorem integers_values (values : List Int64) :
    integers (views (values.map Object.integer).reverse) = .ok values.reverse := by
  rw [← List.map_reverse]
  induction values.reverse with
  | nil =>
      rfl
  | cons value others inductionHypothesis =>
      have views_cons :
          views ((value :: others).map Object.integer) =
            .integer value :: views (others.map Object.integer) :=
        rfl
      rw [views_cons, integers_cons, inductionHypothesis]
      rfl

/-- Among some operands the first one is reported that is no integer. -/
theorem integers_blame
    {operands : List Object}
    {blamed : Object}
    (found : operands.find? (fun operand => !operand.isInteger) = some blamed) :
    integers (views operands) = .error (blamed.unsupported "integer value") := by
  induction operands with
  | nil =>
      cases found
  | cons operand others inductionHypothesis =>
      have views_cons : views (operand :: others) = operand.view :: views others :=
        rfl
      rw [views_cons, integers_cons, Object.integerValue_view]
      cases operand with
      | integer value =>
          rw [inductionHypothesis found]
          rfl
      | _ =>
          cases found
          rfl

/-- A subtraction of integers, the first of which is the last one that is taken. -/
theorem subtracted_values
    (first : Int64)
    (others : List Int64) :
    subtracted (views ((first :: others).map Object.integer).reverse) =
      .ok (.integer (difference first others.reverse)) := by
  have looked := integers_values others
  rw [views] at looked
  simp only [subtracted, views, List.map_cons, List.reverse_cons, List.map_append, List.map_nil,
    List.getLast?_concat, List.dropLast_concat, looked]
  rfl

theorem compared_values
    (builtin : Builtin)
    (test : Int64 → Int64 → Bool)
    (left right : Int64) :
    compared builtin test (views ([left, right].map Object.integer).reverse) =
      .ok (.boolean (test left right)) :=
  rfl

/-- Operands that are integers give what they give in source order, reduced to 64 bits. -/
theorem answer_computes
    {builtin : Builtin}
    (member : builtin ∈ onIntegers)
    {values : List Int64}
    (accepted : builtin.arity.Accepts values.length) :
    ∃ object,
      builtin.Computes (values.map Int64.toInt) object ∧
        finish (builtin.answer (views (values.map Object.integer).reverse)) =
          Machine.allocate object := by
  have looked := integers_values values
  cases builtin with
  | add =>
      refine ⟨.integer (sum values.reverse), .sum ?_, ?_⟩
      · rw [sum_eq, List.map_reverse, List.sum_reverse, Int64.toInt_ofInt]
        rfl
      · simp only [answer, folded, looked]
        rfl
  | multiply =>
      refine ⟨.integer (product values.reverse), .product ?_, ?_⟩
      · rw [product_eq, List.map_reverse, List.prod_reverse, Int64.toInt_ofInt]
        rfl
      · simp only [answer, folded, looked]
        rfl
  | subtract =>
      cases values with
      | nil =>
          simp [arity, Arity.Accepts] at accepted
      | cons first others =>
          refine ⟨.integer (difference first others.reverse), computes_difference first others, ?_⟩
          rw [answer, subtracted_values]
          rfl
  | equal =>
      obtain ⟨left, right, rfl⟩ := List.length_eq_two.mp (accepted.exactly rfl)
      refine ⟨_, .equality left.toInt right.toInt, ?_⟩
      rw [answer, compared_values]
      simp only [Int64.toInt_inj]
      rfl
  | less =>
      obtain ⟨left, right, rfl⟩ := List.length_eq_two.mp (accepted.exactly rfl)
      refine ⟨_, .less left.toInt right.toInt, ?_⟩
      rw [answer, compared_values]
      simp only [Int64.lt_iff_toInt_lt]
      rfl
  | greater =>
      obtain ⟨left, right, rfl⟩ := List.length_eq_two.mp (accepted.exactly rfl)
      refine ⟨_, .greater left.toInt right.toInt, ?_⟩
      rw [answer, compared_values]
      simp only [gt_iff_lt, Int64.lt_iff_toInt_lt]
      rfl
  | car | cdr | conditional | definition =>
      exact absurd member (by decide)

theorem blamed?_eq_find
    {builtin : Builtin}
    (notSubtract : builtin ≠ .subtract)
    (operands : List Object) :
    builtin.blamed? operands = operands.reverse.find? fun operand => !operand.isInteger := by
  rw [blamed?, if_neg notSubtract, List.getLast?_filter]

/-- A comparison looks at its last operand first. -/
theorem compared_blame
    (builtin : Builtin)
    (test : Int64 → Int64 → Bool)
    {operands : List Object}
    {blamed : Object}
    (two : operands.length = 2)
    (found : operands.find? (fun operand => !operand.isInteger) = some blamed) :
    compared builtin test (views operands) = .error (blamed.unsupported "integer value") := by
  obtain ⟨right, left, rfl⟩ := List.length_eq_two.mp two
  cases right with
  | integer rightValue =>
      cases left with
      | integer leftValue =>
          cases found
      | _ =>
          cases found
          rfl
  | _ =>
      cases found
      rfl

/-- Operands of an accepted number, not all of them integers, are refused for the blamed one. -/
theorem answer_blamed
    {builtin : Builtin}
    (member : builtin ∈ onIntegers)
    {operands : List Object}
    (accepted : builtin.arity.Accepts operands.length)
    {blamed : Object}
    (isBlamed : builtin.blamed? operands = some blamed) :
    builtin.answer (views operands.reverse) = .error (blamed.unsupported "integer value") := by
  cases builtin with
  | add | multiply =>
      rw [blamed?_eq_find (by decide)] at isBlamed
      simp only [answer, folded, integers_blame isBlamed]
      rfl
  | subtract =>
      cases operands with
      | nil =>
          simp [arity, Arity.Accepts] at accepted
      | cons first others =>
          simp only [answer, subtracted, views, List.reverse_cons, List.map_append, List.map_cons,
            List.map_nil, List.getLast?_concat, List.dropLast_concat, Object.integerValue_view]
          cases first with
          | integer value =>
              have othersBlame :
                  others.reverse.find? (fun operand => !operand.isInteger) = some blamed := by
                have noStranger :
                    (some (Object.integer value)).filter (fun operand => !operand.isInteger) =
                      none :=
                  rfl
                rw [blamed?, if_pos rfl, List.head?_cons, noStranger, Option.none_or,
                  List.getLast?_filter, List.reverse_cons, List.find?_append] at isBlamed
                exact (Option.or_none ..).symm.trans isBlamed
              have blames := integers_blame othersBlame
              rw [views] at blames
              rw [blames]
              rfl
          | _ =>
              cases isBlamed
              rfl
  | equal | less | greater =>
      rw [blamed?_eq_find (by decide)] at isBlamed
      refine compared_blame _ _ ?_ isBlamed
      rw [List.length_reverse]
      exact accepted.exactly rfl
  | car | cdr | conditional | definition =>
      exact absurd member (by decide)

open Machine

variable {machine : Machine}

theorem names_reverse
    {handles : List Handle}
    {objects : List Object}
    (names : Names machine handles objects) :
    Names machine handles.reverse objects.reverse :=
  List.forall₂_reverse_iff.mpr names

/--
An operation on integers, on a well-formed machine with its operands on the stack in
source order above any others.

If it accepts their number and all are integers, it returns with what it computes of
them, unless every slot holds an object that is still reachable once the operands are
gone.  If one of them is no integer, it reports the kind of the operand to blame and
does nothing else.  In each case the stack is left without the operands.
-/
theorem computes_in_source_order
    (wellFormed : machine.WellFormed)
    {builtin : Builtin}
    (member : builtin ∈ onIntegers)
    {operands base : List Handle}
    (entries : machine.stack.entries = operands.reverse ++ base)
    (evaluator : Evaluator) :
    (∀ values : List Int64,
      builtin.arity.Accepts operands.length →
      Names machine operands (values.map Object.integer) →
      ∃ object,
        builtin.Computes (values.map Int64.toInt) object ∧
          (builtin.procedure evaluator operands.length).Yields machine fun result after =>
            after.stack.entries = base ∧
              (result = .error .outOfMemory ↔ (machine.withEntries base).Saturated) ∧
              (¬(machine.withEntries base).Saturated →
                ∃ handle, result = .ok handle ∧ after.heap.get? handle = some object)) ∧
    (∀ objects : List Object,
      builtin.arity.Accepts operands.length →
      Names machine operands objects →
      (∃ object ∈ objects, object.isInteger = false) →
      ∃ blamed,
        builtin.blamed? objects = some blamed ∧
          builtin.procedure evaluator operands.length machine =
            some (.error (.unsupported "integer value" blamed.kind), machine.withEntries base)) ∧
    (¬builtin.arity.Accepts operands.length →
      builtin.procedure evaluator operands.length machine =
        some (.error (.arityMismatch builtin.name builtin.arity.text operands.length),
          machine.withEntries base)) := by
  have strict : builtin.evaluatesOperands = true := by
    revert builtin
    decide
  have finishes
      {objects : List Object}
      (names : Names machine operands objects) :
      builtin.procedure evaluator operands.length machine =
        some (finish (builtin.answer (views objects.reverse)) (machine.withEntries base)) := by
    have reversed := procedure_eq_finish entries (names_reverse names) strict evaluator
    rwa [List.length_reverse] at reversed
  refine ⟨?_, ?_, ?_⟩
  · intro values accepted names
    rw [names.length_eq, List.length_map] at accepted
    obtain ⟨object, computes, allocates⟩ := answer_computes member accepted
    refine ⟨object, computes, .of_answer (finishes names) ?_⟩
    have consistent : (machine.withEntries base).heap.Consistent := wellFormed.consistent
    have accommodates := place_accommodates consistent object base
    have allocated := allocate_eq consistent.toCounted object
    rw [entries_withEntries] at allocated
    rw [← allocated, ← allocates] at accommodates
    refine ⟨accommodates.entries, accommodates.exhausted, fun notSaturated => ?_⟩
    obtain ⟨handle, returned, found, _⟩ := accommodates.accommodated notSaturated
    exact ⟨handle, returned, found⟩
  · intro objects accepted names someStranger
    obtain ⟨blamed, isBlamed⟩ :=
      Option.isSome_iff_exists.mp ((blamed?_isSome_iff builtin objects).mpr someStranger)
    refine ⟨blamed, isBlamed, ?_⟩
    rw [names.length_eq] at accepted
    rw [finishes names, answer_blamed member accepted isBlamed]
    rfl
  · intro unaccepted
    have refused := procedure_unaccepted wellFormed.orderly entries
      (List.length_reverse ▸ unaccepted) evaluator
    rwa [List.length_reverse] at refused

/--
A machine with the operands of `(- least 1)` on its stack, where `least` is the least
integer, above an empty list and one more entry.
-/
def underflowing : Machine where
  heap :=
    { slots :=
        #[some ⟨.integer Int64.minValue, false⟩, some ⟨.integer 1, false⟩, some ⟨.nil, false⟩,
          some ⟨.boolean true, false⟩, none]
      last := some 3
      live := 4
      initialThreshold := 1
      threshold := 4 }
  environment := Environment.empty
  stack := ⟨[Handle.ofIndex 1, Handle.ofIndex 0, Handle.ofIndex 2, Handle.ofIndex 3]⟩
  eagerDefinitions := false
  diagnostics := []
  collections := 0
  journal := []

theorem underflowing_wellFormed : underflowing.WellFormed :=
  have orderly : underflowing.Orderly IsBuiltin :=
    .of_slots ⟨⟨by decide, by decide, by decide, by decide⟩, by decide, by decide⟩ (by decide)
      (by decide)
  orderly.toWellFormed

/--
The difference wraps around to the greatest integer, after a collection.  With the empty
list for a first operand it is the empty list that is reported, and three operands cannot
be compared.
-/
theorem computes_in_source_order_underflowing :
    underflowing.WellFormed ∧
      (∃ handle after,
        Builtin.subtract.procedure Evaluator.exhausted 2 underflowing =
            some (.ok handle, after) ∧
          after.heap.get? handle = some (.integer Int64.maxValue) ∧
          after.stack.entries = [Handle.ofIndex 2, Handle.ofIndex 3]) ∧
      Builtin.subtract.procedure Evaluator.exhausted 3 underflowing =
        some (.error (.unsupported "integer value" .nil),
          underflowing.withEntries [Handle.ofIndex 3]) ∧
      Builtin.less.procedure Evaluator.exhausted 3 underflowing =
        some (.error (.arityMismatch "<" "2" 3), underflowing.withEntries [Handle.ofIndex 3]) := by
  have twoOperands :=
    @computes_in_source_order underflowing underflowing_wellFormed .subtract (by decide)
      [Handle.ofIndex 0, Handle.ofIndex 1] [Handle.ofIndex 2, Handle.ofIndex 3] rfl
      Evaluator.exhausted
  have threeOperands
      (builtin : Builtin)
      (member : builtin ∈ onIntegers) :=
    @computes_in_source_order underflowing underflowing_wellFormed builtin member
      [Handle.ofIndex 2, Handle.ofIndex 0, Handle.ofIndex 1] [Handle.ofIndex 3] rfl
      Evaluator.exhausted
  refine ⟨underflowing_wellFormed, ?_, ?_, (threeOperands .less (by decide)).2.2 (by decide)⟩
  · have names :
        Names underflowing [Handle.ofIndex 0, Handle.ofIndex 1]
          ([Int64.minValue, 1].map Object.integer) :=
      .cons rfl (.cons rfl .nil)
    have hasRoom :
        ¬(underflowing.withEntries [Handle.ofIndex 2, Handle.ofIndex 3]).Saturated := by
      intro saturated
      exact absurd (saturated 4 (by decide)).isOccupied (by decide)
    obtain ⟨object, computes, result, after, returned, base, _, placed⟩ :=
      twoOperands.1 _ (by decide) names
    obtain ⟨handle, rfl, found⟩ := placed hasRoom
    cases computes with
    | difference reduced =>
        have greatest : _ = Int64.maxValue := Int64.toInt_inj.mp (reduced.trans (by decide))
        exact ⟨handle, after, returned, greatest ▸ found, base⟩
  · have names :
        Names underflowing [Handle.ofIndex 2, Handle.ofIndex 0, Handle.ofIndex 1]
          [.nil, .integer Int64.minValue, .integer 1] :=
      .cons rfl (.cons rfl (.cons rfl .nil))
    obtain ⟨blamed, isBlamed, refused⟩ :=
      (threeOperands .subtract (by decide)).2.1 _ (by decide) names
        ⟨.nil, List.mem_cons_self, rfl⟩
    cases isBlamed
    exact refused

end Builtin

end ArenaLisp
