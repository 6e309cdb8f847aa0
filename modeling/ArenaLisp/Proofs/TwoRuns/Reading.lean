import ArenaLisp.Proofs.ReadingSafety
import ArenaLisp.Proofs.TwoRuns.Allocation
import Mathlib.Algebra.GroupWithZero.Nat

namespace ArenaLisp

/-!
# Reading agrees

Two mirrored machines that read the same text place the same objects in the same
order.  So they find the same expression, or the same fault at the same place, unless
the smaller one runs out of memory first.
-/

open Machine

namespace Reader

variable
  {exact : Prop}
  {twin : Handle → Handle → Prop}
  {first second : Machine}

/-- Lists of equally many elements are put together alike. -/
theorem consPushed_agrees
    (firstOrderly : first.Orderly IsBuiltin)
    (secondOrderly : second.Orderly IsBuiltin)
    (mirrors : Mirrors exact twin first second)
    {firstTail secondTail : Handle}
    (tails : twin firstTail secondTail)
    {count : Nat}
    (enough : count ≤ first.stack.entries.length) :
    Outcome exact (Twinned exact) (consPushed count firstTail first)
      (consPushed count secondTail second) := by
  induction count generalizing first second twin firstTail secondTail with
  | zero =>
      exact .returned ⟨twin, mirrors, tails⟩
  | succ count inductionHypothesis =>
      have entries := mirrors.entries
      have pushed := mirrors.push tails
      have occupied := mirrors.isOccupied tails
      generalize firstEntries : first.stack.entries = firstHandles at entries enough pushed
      generalize secondEntries : second.stack.entries = secondHandles at entries pushed
      cases entries with
      | nil =>
          exact absurd enough (Nat.not_succ_le_zero count)
      | @cons firstCar secondCar firstBelow secondBelow _ _ =>
          have firstPushed := firstOrderly.push occupied.1
          have secondPushed := secondOrderly.push occupied.2
          rw [firstEntries] at firstPushed
          rw [secondEntries] at secondPushed
          have consed :=
            (consFromStack_agrees pushed firstPushed.consistent secondPushed.consistent rfl
              rfl).and_always
              (consFromStack_answers firstPushed rfl) (consFromStack_answers secondPushed rfl)
          rw [consPushed_succ, consPushed_succ, firstEntries, secondEntries]
          apply Outcome.bind consed
          intro firstPair firstAfter secondPair secondAfter holds
          obtain ⟨⟨after, mirrorsAfter, pairs⟩, firstAnswers, secondAnswers⟩ := holds
          have stillEnough : count ≤ firstAfter.stack.entries.length := by
            rw [(firstAnswers.value firstPair rfl).1]
            exact Nat.le_of_succ_le_succ enough
          exact inductionHypothesis firstAnswers.orderly secondAnswers.orderly mirrorsAfter pairs
            stillEnough

theorem closeList_agrees
    (firstOrderly : first.Orderly IsBuiltin)
    (secondOrderly : second.Orderly IsBuiltin)
    (mirrors : Mirrors exact twin first second)
    {count : Nat}
    (enough : count ≤ first.stack.entries.length) :
    Outcome exact (Twinned exact) (closeList count first) (closeList count second) := by
  have allocated :=
    (@allocate_agrees exact twin first second mirrors firstOrderly.consistent
      secondOrderly.consistent .nil rfl).and_always
      (allocate_answers firstOrderly rfl rfl) (allocate_answers secondOrderly rfl rfl)
  apply Outcome.bind allocated
  intro firstEmpty firstAfter secondEmpty secondAfter holds
  obtain ⟨⟨after, mirrorsAfter, empties⟩, firstAnswers, secondAnswers⟩ := holds
  have stillEnough : count ≤ firstAfter.stack.entries.length := by
    rwa [(firstAnswers.value firstEmpty rfl).1]
  exact consPushed_agrees firstAnswers.orderly secondAnswers.orderly mirrorsAfter empties
    stillEnough

/-- Two reads have found twins, left orderly machines, and have the same text before them. -/
def Found
    (exact : Prop)
    (firstFound : Handle × Reader)
    (first : Machine)
    (secondFound : Handle × Reader)
    (second : Machine) :
    Prop :=
  Twinned exact firstFound.1 first secondFound.1 second ∧
    first.Orderly IsBuiltin ∧
    second.Orderly IsBuiltin ∧
    firstFound.2 = secondFound.2

/-- Reads of a text agree on mirrored machines that hold the elements of the open lists. -/
def ReadingAgrees (exact : Prop) (text : List Char) : Prop :=
  ∀ counts twin first second,
    Machine.Orderly IsBuiltin first →
    Machine.Orderly IsBuiltin second →
    Mirrors exact twin first second →
    counts.sum ≤ first.stack.entries.length →
    Outcome exact (Found exact) (reading counts text first) (reading counts text second)

/-- What is handed over lies above the elements of the lists that are still open. -/
theorem handOver_agrees
    {rest : List Char}
    (agrees : ReadingAgrees exact rest)
    {counts : List Nat}
    {firstHandle secondHandle : Handle}
    (twinned : Twinned exact firstHandle first secondHandle second)
    (firstOrderly : first.Orderly IsBuiltin)
    (secondOrderly : second.Orderly IsBuiltin)
    (enough : counts.sum ≤ first.stack.entries.length) :
    Outcome exact (Found exact) (handOver counts rest firstHandle first)
      (handOver counts rest secondHandle second) := by
  cases counts with
  | nil =>
      exact .returned ⟨twinned, firstOrderly, secondOrderly, rfl⟩
  | cons count outer =>
      obtain ⟨twin, mirrors, twins⟩ := twinned
      have occupied := mirrors.isOccupied twins
      have stillEnough :
          ((count + 1) :: outer).sum ≤ (firstHandle :: first.stack.entries).length := by
        rw [List.sum_cons] at enough ⊢
        rw [List.length_cons]
        omega
      simp only [handOver, Transition.bind_apply, push_eq]
      exact agrees ((count + 1) :: outer) twin _ _ (firstOrderly.push occupied.1)
        (secondOrderly.push occupied.2) (mirrors.push twins) stillEnough

/-- A list that is closed takes its own elements and is handed over. -/
theorem closed_agrees
    {rest : List Char}
    (agrees : ReadingAgrees exact rest)
    (firstOrderly : first.Orderly IsBuiltin)
    (secondOrderly : second.Orderly IsBuiltin)
    (mirrors : Mirrors exact twin first second)
    {count : Nat}
    {outer : List Nat}
    (enough : (count :: outer).sum ≤ first.stack.entries.length) :
    Outcome exact (Found exact)
      ((closeList count >>= handOver outer rest : Action (Handle × Reader)) first)
      ((closeList count >>= handOver outer rest : Action (Handle × Reader)) second) := by
  rw [List.sum_cons] at enough
  have inside : count ≤ first.stack.entries.length := by
    omega
  have insideSecond : count ≤ second.stack.entries.length :=
    mirrors.entries.length_eq ▸ inside
  have firstAnswers :=
    closeList_answers firstOrderly (List.take_append_drop count first.stack.entries).symm
  have secondAnswers :=
    closeList_answers secondOrderly (List.take_append_drop count second.stack.entries).symm
  rw [List.length_take_of_le inside] at firstAnswers
  rw [List.length_take_of_le insideSecond] at secondAnswers
  apply Outcome.bind
    ((closeList_agrees firstOrderly secondOrderly mirrors inside).and_always firstAnswers
      secondAnswers)
  intro firstList firstAfter secondList secondAfter holds
  obtain ⟨twinned, firstAnswer, secondAnswer⟩ := holds
  have stillEnough : outer.sum ≤ firstAfter.stack.entries.length := by
    rw [(firstAnswer.value firstList rfl).1, List.length_drop]
    omega
  exact handOver_agrees agrees twinned firstAnswer.orderly secondAnswer.orderly stillEnough

/-- A word is refused by both machines, or its leaf is handed over. -/
theorem word_agrees
    {rest : List Char}
    (agrees : ReadingAgrees exact rest)
    (firstOrderly : first.Orderly IsBuiltin)
    (secondOrderly : second.Orderly IsBuiltin)
    (mirrors : Mirrors exact twin first second)
    (characters : List Char)
    {counts : List Nat}
    (enough : counts.sum ≤ first.stack.entries.length) :
    Outcome exact (Found exact)
      ((placeWord characters >>= handOver counts rest : Action (Handle × Reader)) first)
      ((placeWord characters >>= handOver counts rest : Action (Handle × Reader)) second) := by
  cases isObject : Literal.object characters with
  | error fault =>
      have fails
          (machine : Machine) :
          placeWord characters machine = (.error (.unreadable fault), machine) := by
        rw [placeWord, isObject]
        rfl
      rw [Transition.bind_apply, Transition.bind_apply, fails, fails]
      exact .failed rfl ⟨twin, mirrors⟩
  | ok object =>
      obtain ⟨noHandles, notCallable⟩ := Literal.object_leaf isObject
      have places : placeWord characters = allocate object := by
        rw [placeWord, isObject]
      rw [places]
      apply Outcome.bind
        ((allocate_agrees mirrors firstOrderly.consistent secondOrderly.consistent
          noHandles).and_always (allocate_answers firstOrderly noHandles notCallable)
          (allocate_answers secondOrderly noHandles notCallable))
      intro firstLeaf firstAfter secondLeaf secondAfter holds
      obtain ⟨twinned, firstAnswer, secondAnswer⟩ := holds
      have stillEnough : counts.sum ≤ firstAfter.stack.entries.length := by
        rwa [(firstAnswer.value firstLeaf rfl).1]
      exact handOver_agrees agrees twinned firstAnswer.orderly secondAnswer.orderly stillEnough

theorem reading_agrees
    (exact : Prop)
    (text : List Char) :
    ReadingAgrees exact text := by
  induction size : text.length using Nat.strongRecOn generalizing text with
  | ind size inductionHypothesis =>
      subst size
      intro counts twin first second firstOrderly secondOrderly mirrors enough
      cases found : Token.next? text with
      | none =>
          rw [reading_none found, reading_none found]
          exact .failed rfl ⟨twin, mirrors⟩
      | some step =>
          obtain ⟨token, rest⟩ := step
          have agrees := inductionHypothesis _ (Token.length_lt_of_next? found) rest rfl
          cases token with
          | opening =>
              rw [reading_opening found, reading_opening found]
              exact agrees (0 :: counts) twin first second firstOrderly secondOrderly mirrors
                (by rwa [List.sum_cons, Nat.zero_add])
          | closing =>
              cases counts with
              | nil =>
                  rw [reading_misplaced found, reading_misplaced found]
                  exact .failed rfl ⟨twin, mirrors⟩
              | cons count outer =>
                  rw [reading_closed found, reading_closed found]
                  exact closed_agrees agrees firstOrderly secondOrderly mirrors enough
          | word characters =>
              rw [reading_word found, reading_word found]
              exact word_agrees agrees firstOrderly secondOrderly mirrors characters enough

/-- Both machines find the next expression of a text, or its end, or the same fault. -/
inductive FoundNext (exact : Prop) :
    Option (Handle × Reader) → Machine → Option (Handle × Reader) → Machine → Prop where
  | done
      {first second : Machine}
      (mirrored : Mirrored exact first second) :
      FoundNext exact none first none second
  | expression
      {firstFound secondFound : Handle × Reader}
      {first second : Machine}
      (found : Found exact firstFound first secondFound second) :
      FoundNext exact (some firstFound) first (some secondFound) second

/-- Stacks of the same size are cut down to the same size. -/
theorem restoreStack_mirrored
    (mirrored : Mirrored exact first second)
    (size : Nat) :
    Mirrored exact (restoreStack size first) (restoreStack size second) := by
  obtain ⟨twin, mirrors⟩ := mirrored
  have sameSize : first.stack.size = second.stack.size :=
    mirrors.entries.length_eq
  refine ⟨twin, ?_⟩
  rw [restoreStack, restoreStack, sameSize]
  exact mirrors.withEntries (List.forall₂_drop _ mirrors.entries)

theorem nextExpression_agrees
    (reader : Reader)
    (firstOrderly : first.Orderly IsBuiltin)
    (secondOrderly : second.Orderly IsBuiltin)
    (mirrors : Mirrors exact twin first second) :
    Outcome exact (FoundNext exact) (reader.nextExpression first)
      (reader.nextExpression second) := by
  by_cases isEmpty : Token.skip reader.text = []
  · rw [nextExpression_done isEmpty, nextExpression_done isEmpty]
    exact .returned (.done ⟨twin, mirrors⟩)
  · have sameSize : first.stack.size = second.stack.size :=
      mirrors.entries.length_eq
    have agrees :=
      reading_agrees exact (Token.skip reader.text) [] twin first second firstOrderly
        secondOrderly mirrors (Nat.zero_le _)
    rw [nextExpression_eq isEmpty, nextExpression_eq isEmpty, sameSize]
    generalize reading [] (Token.skip reader.text) first = firstAnswer at agrees ⊢
    generalize reading [] (Token.skip reader.text) second = secondAnswer at agrees ⊢
    cases agrees with
    | exhausted both =>
        refine .exhausted fun isExact => ?_
        obtain ⟨secondAfter, rfl, sameDiagnostics⟩ := both isExact
        exact ⟨restoreStack second.stack.size secondAfter, rfl, sameDiagnostics⟩
    | failed recoverable mirrored =>
        exact .failed recoverable (restoreStack_mirrored mirrored _)
    | returned found =>
        exact .returned (.expression found)

end Reader

end ArenaLisp
