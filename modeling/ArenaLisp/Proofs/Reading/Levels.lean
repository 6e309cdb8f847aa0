import ArenaLisp.Proofs.CollectionFrame
import ArenaLisp.Proofs.Reading.Balance
import ArenaLisp.Proofs.Tokens

namespace ArenaLisp

/-!
# Reading by recursive descent

A reader that calls itself for every list needs no counts: an element is on the stack
while the rest of its list is read, and whoever has pushed it takes it off again, in a
pair or because the rest has failed.

Such a reader leaves the stack as it was at every level.  On a machine with wrong counters
a failure may leave more, but never less, and every call goes further on in the text.
-/

open Machine

namespace Reader

variable {machine : Machine} {below : List Handle} {First Result : Type}

/-- Goes on above a new stack entry, which is taken off again behind a failure. -/
def holding (handle : Handle) (action : Action Result) : Action Result := do
  push handle
  try
    action
  catch error =>
    let _ ← pop
    throw error

/-- Reads the object that a token begins, given how to read what follows an opening. -/
def descendFrom
    (tail : List Char → Action (Handle × List Char)) :
    (token : Token) → (rest : List Char) → Action (Handle × List Char)
  | .opening, rest => tail rest
  | .closing, _ => throw (.unreadable .unexpectedClose)
  | .word characters, rest => do
      return (← placeWord characters, rest)

/-- Reads what is left of a list behind an element, and puts the element in front of it. -/
def descendBehind
    (tail : List Char → Action (Handle × List Char))
    (head : Handle)
    (rest : List Char) :
    Action (Handle × List Char) := do
  let (list, rest) ← holding head (tail rest)
  push list
  return (← consFromStack, rest)

/-- Reads what is left of a list, from a text that is no longer than a limit. -/
def descendTail : (limit : Nat) → (text : List Char) → Action (Handle × List Char)
  | 0, _ => throw (.unreadable .unterminatedList)
  | limit + 1, text =>
      match Token.next? text with
      | none => throw (.unreadable .unterminatedList)
      | some (.closing, rest) => do
          return (← allocate .nil, rest)
      | some (token, rest) => do
          let (head, rest) ← descendFrom (descendTail limit) token rest
          descendBehind (descendTail limit) head rest

/-- Reads the next object of a text and answers with what is left, or with none at its end. -/
def descend (reader : Reader) : Action (Option (Handle × Reader)) :=
  match Token.next? reader.text with
  | none => pure none
  | some (token, rest) => do
      let (object, rest) ← descendFrom (descendTail rest.length) token rest
      return some (object, ⟨rest⟩)

variable
  {tail : List Char → Action (Handle × List Char)}
  {limit : Nat}
  {token : Token}
  {text rest : List Char}

theorem descendTail_none
    (found : Token.next? text = none)
    (limit : Nat) :
    descendTail limit text = throw (.unreadable .unterminatedList) := by
  cases limit with
  | zero =>
      rfl
  | succ limit =>
      rw [descendTail, found]

theorem descendTail_closing
    (found : Token.next? text = some (.closing, rest))
    (limit : Nat) :
    descendTail (limit + 1) text =
      allocate .nil >>= fun empty => pure (empty, rest) := by
  rw [descendTail, found]

theorem descendTail_element
    (found : Token.next? text = some (token, rest))
    (notClosing : token ≠ .closing)
    (limit : Nat) :
    descendTail (limit + 1) text =
      descendFrom (descendTail limit) token rest >>= fun element =>
        descendBehind (descendTail limit) element.1 element.2 := by
  rw [descendTail, found]
  cases token with
  | closing =>
      exact absurd rfl notClosing
  | opening | word characters =>
      rfl

/-- A list that fails behind an element takes an entry off the stack. -/
theorem descendBehind_failed
    {head top : Handle}
    {error : Error}
    {after : Machine}
    (failed :
      tail rest (machine.withEntries (head :: machine.stack.entries)) = (.error error, after))
    (entries : after.stack.entries = top :: below) :
    descendBehind tail head rest machine = (.error error, after.withEntries below) := by
  simp only [descendBehind, holding, Transition.bind_apply, push_eq, Transition.tryCatch_apply,
    failed, pop_cons entries, Transition.throw_apply]

/-- A list behind an element gets the element put in front of it. -/
theorem descendBehind_returned
    {head list : Handle}
    {others : List Char}
    {after : Machine}
    (returned :
      tail rest (machine.withEntries (head :: machine.stack.entries)) =
        (.ok (list, others), after)) :
    descendBehind tail head rest machine =
      (consFromStack >>= fun pair => pure (pair, others) : Action (Handle × List Char))
        (after.withEntries (list :: after.stack.entries)) := by
  simp only [descendBehind, holding, Transition.bind_apply, push_eq, Transition.tryCatch_apply,
    returned]

/-- A property of actions that descents have if their parts have it. -/
structure DescendingActions (holds : (Result : Type) → Action Result → Prop) : Prop where
  pure : ∀ {Result : Type} (result : Result), holds Result (Pure.pure result)
  unreadable : ∀ {Result : Type} fault, holds Result (throw (.unreadable fault))
  bind :
    ∀ {First Result : Type} {action : Action First} {continuation : First → Action Result},
      holds First action →
      (∀ value, holds Result (continuation value)) →
      holds Result (action >>= continuation)
  allocate : ∀ object, holds Handle (allocate object)
  behind :
    ∀ {tail : List Char → Action (Handle × List Char)} {rest : List Char} head,
      holds (Handle × List Char) (tail rest) →
      holds (Handle × List Char) (descendBehind tail head rest)

namespace DescendingActions

variable
  {holds : (Result : Type) → Action Result → Prop}
  (descending : DescendingActions holds)

include descending

theorem placeWord (word : List Char) : holds Handle (placeWord word) := by
  unfold Reader.placeWord
  split
  · exact descending.allocate _
  · exact descending.unreadable _

theorem descendFrom
    (tailHolds : holds (Handle × List Char) (tail rest))
    (token : Token) :
    holds (Handle × List Char) (descendFrom tail token rest) := by
  cases token with
  | opening =>
      exact tailHolds
  | closing =>
      exact descending.unreadable _
  | word characters =>
      exact descending.bind (descending.placeWord characters) fun _ => descending.pure _

/-- By induction on the limit: what holds of a list holds of an element in front of it. -/
theorem descendTail
    (limit : Nat)
    (text : List Char) :
    holds (Handle × List Char) (descendTail limit text) := by
  induction limit generalizing text with
  | zero =>
      exact descending.unreadable _
  | succ limit inductionHypothesis =>
      cases found : Token.next? text with
      | none =>
          rw [descendTail_none found]
          exact descending.unreadable _
      | some step =>
          obtain ⟨token, rest⟩ := step
          by_cases closes : token = .closing
          · subst closes
            rw [descendTail_closing found]
            exact descending.bind (descending.allocate .nil) fun _ => descending.pure _
          · rw [descendTail_element found closes]
            exact descending.bind (descending.descendFrom (inductionHypothesis rest) token)
              fun element => descending.behind element.1 (inductionHypothesis element.2)

theorem descend (reader : Reader) :
    holds (Option (Handle × Reader)) reader.descend := by
  unfold Reader.descend
  split
  · exact descending.pure none
  · exact descending.bind (descending.descendFrom (descending.descendTail _ _) _) fun _ =>
      descending.pure _

end DescendingActions

namespace EndsWith

/-- Two steps that leave the same entries leave them one after the other. -/
theorem bind
    {action : Action First}
    {continuation : First → Action Result}
    (first : EndsWith below (action machine))
    (goesOn :
      ∀ value after,
        after.heap.Consistent →
        after.stack.entries = below →
        EndsWith below (continuation value after)) :
    EndsWith below ((action >>= continuation) machine) := by
  rw [Transition.bind_apply]
  rcases step : action machine with ⟨error | value, after⟩ <;> rw [step] at first
  · exact .failed first.consistent (first.failure error rfl) first.entries
  · exact goesOn value after first.consistent first.entries

end EndsWith

/-- The entry that was pushed for an element is gone, with its list or with a failure. -/
theorem descendBehind_endsWith
    (tailEnds :
      ∀ machine : Machine,
        machine.heap.Consistent →
        EndsWith machine.stack.entries (tail rest machine))
    (consistent : machine.heap.Consistent)
    (head : Handle) :
    EndsWith machine.stack.entries (descendBehind tail head rest machine) := by
  let pushed := machine.withEntries (head :: machine.stack.entries)
  have ends := tailEnds pushed consistent
  rcases step : tail rest pushed with ⟨error | ⟨list, others⟩, after⟩ <;> rw [step] at ends
  · have poppedConsistent : (after.withEntries machine.stack.entries).heap.Consistent :=
      ends.consistent
    rw [descendBehind_failed step ends.entries]
    exact .failed poppedConsistent (ends.failure error rfl) rfl
  · let filled := after.withEntries (list :: after.stack.entries)
    have filledConsistent : filled.heap.Consistent :=
      ends.consistent
    have entries : filled.stack.entries = list :: head :: machine.stack.entries := by
      rw [entries_withEntries, ends.entries]
      rfl
    rw [descendBehind_returned step]
    refine (consFromStack_endsWith filledConsistent entries).bind ?_
    intro pair placed consistentAfter sameEntries
    exact .returned consistentAfter _ sameEntries

/-- On a machine with consistent counters every level takes off what it has pushed. -/
theorem endsWith_descending :
    DescendingActions fun _ action =>
      ∀ machine : Machine,
        machine.heap.Consistent →
        EndsWith machine.stack.entries (action machine) where
  pure result machine consistent := .returned consistent result rfl
  unreadable fault machine consistent := .failed consistent (.inr ⟨fault, rfl⟩) rfl
  bind first returned machine consistent := by
    refine (first machine consistent).bind fun value after consistentAfter sameEntries => ?_
    rw [← sameEntries]
    exact returned value after consistentAfter
  allocate object machine consistent := allocate_endsWith consistent object
  behind head tailEnds machine consistent := descendBehind_endsWith tailEnds consistent head

/--
What a step does to the entries below those that it may take, on any machine: they are all
that is left, or the step has failed above them.
-/
structure Spares (below : List Handle) (answer : Except Error Result × Machine) : Prop where
  value : ∀ result, answer.1 = .ok result → answer.2.stack.entries = below
  failure : ∀ error, answer.1 = .error error → below <:+ answer.2.stack.entries

namespace Spares

theorem of_entries
    {answer : Except Error Result × Machine}
    (entries : answer.2.stack.entries = below) :
    Spares below answer := by
  refine ⟨fun _ _ => entries, fun _ _ => ?_⟩
  rw [entries]

theorem failed
    {error : Error}
    (above : below <:+ machine.stack.entries) :
    Spares below ((.error error, machine) : Except Error Result × Machine) :=
  ⟨by rintro _ ⟨⟩, fun _ _ => above⟩

theorem bind
    {action : Action First}
    {continuation : First → Action Result}
    {between : List Handle}
    (first : Spares between (action machine))
    (above : below <:+ between)
    (goesOn :
      ∀ value after,
        after.stack.entries = between →
        Spares below (continuation value after)) :
    Spares below ((action >>= continuation) machine) := by
  rw [Transition.bind_apply]
  generalize action machine = answer at first
  obtain ⟨error | value, after⟩ := answer
  · exact .failed (above.trans (first.failure error rfl))
  · exact goesOn value after (first.value value rfl)

/-- Below the entries that have a certain one on top, some entry can be taken off. -/
theorem exists_top
    {head : Handle}
    {error : Error}
    {after : Machine}
    (spares : Spares (head :: below) ((.error error, after) : Except Error Result × Machine)) :
    ∃ top others, after.stack.entries = top :: others ∧ below <:+ others := by
  have above : head :: below <:+ after.stack.entries :=
    spares.failure error rfl
  cases entries : after.stack.entries with
  | nil =>
      rw [entries] at above
      cases List.suffix_nil.mp above
  | cons top others =>
      rw [entries] at above
      refine ⟨top, others, rfl, ?_⟩
      rcases List.suffix_cons_iff.mp above with same | further
      · rw [(List.cons.inj same).2]
      · exact (List.suffix_cons head below).trans further

end Spares

theorem reserve_spares (machine : Machine) :
    Spares machine.stack.entries (reserve machine) :=
  .of_entries (congrArg OperandStack.entries (reserve_untouched machine).1)

theorem place_spares
    (object : Object)
    (machine : Machine) :
    Spares machine.stack.entries (place object machine) := by
  rcases place_cases object machine with ⟨failed, _⟩ | ⟨index, placed, _⟩
  · rw [failed]
    exact .of_entries rfl
  · rw [placed]
    exact .of_entries rfl

theorem consFromStack_spares
    {car cdr : Handle}
    (entries : machine.stack.entries = cdr :: car :: below) :
    Spares below (consFromStack machine) := by
  refine (reserve_spares machine).bind ?_ fun _ reserved sameEntries => ?_
  · rw [entries]
    exact List.suffix_append [cdr, car] below
  · rw [entries] at sameEntries
    simp only [Transition.bind_apply, pop_cons sameEntries, pop_cons (entries_withEntries _)]
    exact place_spares (.pair car cdr) (reserved.withEntries below)

/-- Whatever its list leaves above an element, the entries below that are spared. -/
theorem descendBehind_spares
    (tailSpares : ∀ machine : Machine, Spares machine.stack.entries (tail rest machine))
    (head : Handle)
    (machine : Machine) :
    Spares machine.stack.entries (descendBehind tail head rest machine) := by
  let pushed := machine.withEntries (head :: machine.stack.entries)
  have spares := tailSpares pushed
  rcases step : tail rest pushed with ⟨error | ⟨list, others⟩, after⟩ <;> rw [step] at spares
  · obtain ⟨top, others, entries, above⟩ := spares.exists_top
    rw [descendBehind_failed step entries]
    exact .failed above
  · have entries :
        (after.withEntries (list :: after.stack.entries)).stack.entries =
          list :: head :: machine.stack.entries := by
      rw [entries_withEntries, spares.value _ rfl]
      rfl
    rw [descendBehind_returned step]
    exact (consFromStack_spares entries).bind (List.suffix_refl _) fun _ _ sameEntries =>
      .of_entries sameEntries

/-- Whatever is wrong with a machine, no level takes off more than it has pushed. -/
theorem spares_descending :
    DescendingActions fun _ action =>
      ∀ machine : Machine, Spares machine.stack.entries (action machine) where
  pure _ _ := .of_entries rfl
  unreadable _ _ := .of_entries rfl
  bind first returned machine := by
    refine (first machine).bind (List.suffix_refl _) fun value after sameEntries => ?_
    rw [← sameEntries]
    exact returned value after
  allocate object machine := by
    refine (reserve_spares machine).bind (List.suffix_refl _) fun _ reserved sameEntries => ?_
    rw [← sameEntries]
    exact place_spares object reserved
  behind head tailSpares machine := descendBehind_spares tailSpares head machine

/-- Whether a text is what is left of another from which something has been taken. -/
def Later (rest text : List Char) : Prop :=
  rest <:+ text ∧ rest.length < text.length

theorem Later.of_suffix
    {others : List Char}
    (later : Later rest others)
    (suffix : others <:+ text) :
    Later rest text :=
  ⟨later.1.trans suffix, Nat.lt_of_lt_of_le later.2 suffix.length_le⟩

theorem Later.after
    {others : List Char}
    (later : Later others text)
    (suffix : rest <:+ others) :
    Later rest text :=
  ⟨suffix.trans later.1, Nat.lt_of_le_of_lt suffix.length_le later.2⟩

/-- What follows a token is later than where the token starts. -/
theorem later_skip
    (found : Token.next? text = some (token, rest)) :
    Later rest (Token.skip text) := by
  obtain ⟨first, between, parts⟩ := Token.next?_suffix found
  rw [← parts]
  refine ⟨List.suffix_append (first :: between) rest, ?_⟩
  rw [List.length_append, List.length_cons]
  omega

theorem later_text
    (found : Token.next? text = some (token, rest)) :
    Later rest text :=
  (later_skip found).of_suffix (Token.skipFrom_suffix false text)

theorem descendFrom_suffix
    (tailTakes :
      ∀ {machine after : Machine} {answer : Handle × List Char},
        tail rest machine = (.ok answer, after) →
        Later answer.2 rest)
    {after : Machine}
    {answer : Handle × List Char}
    (answered : descendFrom tail token rest machine = (.ok answer, after)) :
    answer.2 <:+ rest := by
  cases token with
  | opening =>
      exact (tailTakes answered).1
  | closing =>
      cases answered
  | word characters =>
      obtain ⟨handle, between, _, returned⟩ := Transition.exists_of_bind_ok answered
      cases returned
      exact List.suffix_refl _

theorem descendBehind_later
    (tailTakes :
      ∀ {machine after : Machine} {answer : Handle × List Char},
        tail rest machine = (.ok answer, after) →
        Later answer.2 rest)
    {head : Handle}
    {after : Machine}
    {answer : Handle × List Char}
    (answered : descendBehind tail head rest machine = (.ok answer, after)) :
    Later answer.2 rest := by
  rcases step : tail rest (machine.withEntries (head :: machine.stack.entries)) with
    ⟨error | list, between⟩
  · have fails :
        ∃ failure final, descendBehind tail head rest machine = (.error failure, final) := by
      simp only [descendBehind, holding, Transition.bind_apply, push_eq,
        Transition.tryCatch_apply, step, Transition.throw_apply]
      rcases pop between with ⟨_ | _, _⟩ <;> exact ⟨_, _, rfl⟩
    obtain ⟨failure, final, failed⟩ := fails
    cases failed.symm.trans answered
  · rw [descendBehind_returned step] at answered
    obtain ⟨pair, placed, _, returned⟩ := Transition.exists_of_bind_ok answered
    cases returned
    have takes := tailTakes step
    exact takes

/-- Reading a list takes at least its closing parenthesis from the text. -/
theorem descendTail_later
    (limit : Nat)
    {after : Machine}
    {answer : Handle × List Char}
    (answered : descendTail limit text machine = (.ok answer, after)) :
    Later answer.2 text := by
  induction limit generalizing machine after text answer with
  | zero =>
      cases answered
  | succ limit inductionHypothesis =>
      cases found : Token.next? text with
      | none =>
          rw [descendTail_none found] at answered
          cases answered
      | some step =>
          obtain ⟨token, rest⟩ := step
          by_cases closes : token = .closing
          · subst closes
            rw [descendTail_closing found] at answered
            obtain ⟨empty, placed, _, returned⟩ := Transition.exists_of_bind_ok answered
            cases returned
            exact later_text found
          · rw [descendTail_element found closes] at answered
            obtain ⟨element, between, isElement, behind⟩ := Transition.exists_of_bind_ok answered
            have elementLeaves := descendFrom_suffix inductionHypothesis isElement
            have listLeaves := descendBehind_later inductionHypothesis behind
            exact (later_text found).after (listLeaves.1.trans elementLeaves)

theorem descendFrom_congr
    {other : List Char → Action (Handle × List Char)}
    (sameTail : tail rest = other rest)
    (token : Token) :
    descendFrom tail token rest = descendFrom other token rest := by
  cases token with
  | opening =>
      exact sameTail
  | closing | word characters =>
      rfl

theorem descendBehind_congr
    {other : List Char → Action (Handle × List Char)}
    (sameTail : tail rest = other rest)
    (head : Handle) :
    descendBehind tail head rest = descendBehind other head rest := by
  rw [descendBehind, descendBehind, sameTail]

/-- No descent comes to its limit if that is no less than the length of the text. -/
theorem descendTail_limit
    {limit other : Nat}
    (enough : text.length ≤ limit)
    (otherEnough : text.length ≤ other) :
    descendTail limit text = descendTail other text := by
  induction limit generalizing other text with
  | zero =>
      obtain rfl := List.eq_nil_of_length_eq_zero (Nat.le_zero.mp enough)
      rw [descendTail_none rfl, descendTail_none rfl]
  | succ limit inductionHypothesis =>
      cases found : Token.next? text with
      | none =>
          rw [descendTail_none found, descendTail_none found]
      | some step =>
          obtain ⟨token, rest⟩ := step
          have shorter := Token.length_lt_of_next? found
          have notZero : other ≠ 0 := by
            omega
          obtain ⟨other, rfl⟩ := Nat.exists_eq_succ_of_ne_zero notZero
          by_cases closes : token = .closing
          · subst closes
            rw [descendTail_closing found, descendTail_closing found]
          · have sameTail
                {left : List Char}
                (suffix : left <:+ rest) :
                descendTail limit left = descendTail other left := by
              have fits := suffix.length_le
              exact inductionHypothesis (by omega) (by omega)
            have sameElement := descendFrom_congr (sameTail (List.suffix_refl rest)) token
            rw [descendTail_element found closes, descendTail_element found closes]
            funext machine
            rw [Transition.bind_apply, Transition.bind_apply, ← sameElement]
            rcases element : descendFrom (descendTail limit) token rest machine with
              ⟨error | ⟨head, left⟩, after⟩
            · rfl
            · have suffix := descendFrom_suffix (descendTail_later limit) element
              exact congrFun (descendBehind_congr (sameTail suffix) head) after

end Reader

end ArenaLisp
