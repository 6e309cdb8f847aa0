import ArenaLisp.Proofs.ReaderSteps
import ArenaLisp.Proofs.Tokens

namespace ArenaLisp

/-!
# Reading the front of a text

A text that closes the lists it opens, and ends its line, is read without a look at
what follows it: each of its objects is read as if the text ended there.
-/

namespace Reader

variable
  {machine after : Machine}
  {counts : List Nat}
  {text : List Char}
  {handle : Handle}
  {rest : Reader}

/-- Whether a text closes every list that it opens, and no other. -/
def Closes (text : List Char) : Prop :=
  Token.depthAfter 0 (Token.all text) = some 0

theorem readOn_skip
    (counts : List Nat)
    (text : List Char)
    (machine : Machine) :
    readOn counts (Token.skip text) machine = readOn counts text machine := by
  have sameNext := Token.next?_skip text
  cases found : Token.next? text with
  | none =>
      rw [readOn_none found, readOn_none (sameNext.trans found)]
  | some step =>
      rw [readOn_some found, readOn_some (sameNext.trans found), Token.skip_skip]

theorem read_done_iff
    {reader : Reader} :
    reader.read machine = ((.ok none, rest), after) ↔
      Token.skip reader.text = [] ∧ rest = ⟨[]⟩ ∧ after = machine := by
  rw [read_eq]
  by_cases isEmpty : Token.skip reader.text = []
  · simp [isEmpty, eq_comm]
  · simp only [isEmpty, ↓reduceIte, false_and, iff_false]
    rcases readOn [] (Token.skip reader.text) machine with ⟨⟨_ | _, _⟩, _⟩ <;> simp

theorem read_object_iff
    {reader : Reader} :
    reader.read machine = ((.ok (some handle), rest), after) ↔
      readOn [] reader.text machine = ((.ok handle, rest), after) := by
  rw [read_eq]
  by_cases isEmpty : Token.skip reader.text = []
  · rw [if_pos isEmpty, readOn_none (Token.next?_eq_none_iff.mpr isEmpty)]
    simp
  · rw [if_neg isEmpty, readOn_skip]
    rcases readOn [] reader.text machine with ⟨⟨_ | _, _⟩, _⟩ <;> simp

theorem counts_of_deliver_more
    {produce : Action Handle}
    {later : List Nat}
    (delivered : deliver produce counts machine = .more later after) :
    later ≠ [] ∧ later.length = counts.length := by
  rw [deliver] at delivered
  split at delivered
  · cases delivered
  · cases counts with
    | nil =>
        cases delivered
    | cons count outer =>
        cases delivered
        exact ⟨List.cons_ne_nil _ _, rfl⟩

theorem counts_of_deliver_finished
    {produce : Action Handle}
    (delivered : deliver produce counts machine = .finished (.ok handle) after) :
    counts = [] := by
  rw [deliver] at delivered
  split at delivered
  · cases delivered
  · cases counts with
    | nil =>
        rfl
    | cons count outer =>
        cases delivered

/-- There are as many counts as open lists, and a read goes on only inside of a list. -/
theorem depth_of_advance_more
    {token : Token}
    {later : List Nat}
    (advanced : advance token counts machine = .more later after) :
    later ≠ [] ∧ Token.nextDepth counts.length token = some later.length := by
  cases token with
  | opening =>
      cases advanced
      exact ⟨List.cons_ne_nil _ _, rfl⟩
  | closing =>
      cases counts with
      | nil =>
          cases advanced
      | cons count outer =>
          obtain ⟨notEmpty, sameLength⟩ := counts_of_deliver_more advanced
          refine ⟨notEmpty, ?_⟩
          rw [sameLength]
          rfl
  | word characters =>
      have delivered : deliver (placeWord characters) counts machine = .more later after := by
        cases counts <;> exact advanced
      obtain ⟨notEmpty, sameLength⟩ := counts_of_deliver_more delivered
      refine ⟨notEmpty, ?_⟩
      rw [sameLength]
      rfl

/-- A read ends with an object only where no list is open. -/
theorem depth_of_advance_finished
    {token : Token}
    (advanced : advance token counts machine = .finished (.ok handle) after) :
    Token.nextDepth counts.length token = some 0 := by
  cases token with
  | opening =>
      cases advanced
  | closing =>
      cases counts with
      | nil =>
          cases advanced
      | cons count outer =>
          cases counts_of_deliver_finished advanced
          rfl
  | word characters =>
      have delivered :
          deliver (placeWord characters) counts machine = .finished (.ok handle) after := by
        cases counts <;> exact advanced
      cases counts_of_deliver_finished delivered
      rfl

/-- What an object was read from closes the lists that were open. -/
theorem depthAfter_of_readOn
    (answered : readOn counts text machine = ((.ok handle, rest), after)) :
    Token.depthAfter counts.length (Token.all text) =
      Token.depthAfter 0 (Token.all rest.text) := by
  fun_induction readOn counts text machine with
  | case1 | case2 =>
      cases answered
  | case3 counts text machine token behind found result between advanced =>
      cases answered
      rw [Token.all_some found, Token.depthAfter_cons, depth_of_advance_finished advanced]
      rfl
  | case4 counts text machine token behind found later between advanced inductionHypothesis =>
      rw [Token.all_some found, Token.depthAfter_cons, (depth_of_advance_more advanced).2]
      exact inductionHypothesis answered

/-- An object that a text completes is read as if nothing followed the text. -/
theorem readOn_append
    {behind : List Char}
    (ends : Token.EndsLine text)
    (closes : Token.depthAfter counts.length (Token.all text) = some 0)
    (needed : counts ≠ [] ∨ Token.next? text ≠ none)
    (answered : readOn counts (text ++ behind) machine = ((.ok handle, rest), after)) :
    ∃ left,
      rest = ⟨left ++ behind⟩ ∧
        readOn counts text machine = ((.ok handle, ⟨left⟩), after) ∧
        Token.EndsLine left ∧
        Closes left := by
  fun_induction readOn counts text machine with
  | case1 counts text machine noToken =>
      rw [Token.all_none noToken] at closes
      have noCounts : counts = [] :=
        List.length_eq_zero_iff.mp (Option.some.inj closes)
      rcases needed with someCounts | someToken
      · exact absurd noCounts someCounts
      · exact absurd noToken someToken
  | case2 counts text machine token left found between advanced =>
      rw [readOn_some (Token.next?_append ends found behind), advanced] at answered
      cases answered
  | case3 counts text machine token left found result between advanced =>
      rw [readOn_some (Token.next?_append ends found behind), advanced] at answered
      cases answered
      rw [Token.all_some found, Token.depthAfter_cons, depth_of_advance_finished advanced]
        at closes
      exact ⟨left, rfl, rfl, ends.of_suffix (Token.rest_suffix found), closes⟩
  | case4 counts text machine token left found later between advanced inductionHypothesis =>
      obtain ⟨notEmpty, sameDepth⟩ := depth_of_advance_more advanced
      rw [readOn_some (Token.next?_append ends found behind), advanced] at answered
      rw [Token.all_some found, Token.depthAfter_cons, sameDepth] at closes
      exact inductionHypothesis (ends.of_suffix (Token.rest_suffix found)) closes (.inl notEmpty)
        answered

end Reader

end ArenaLisp
