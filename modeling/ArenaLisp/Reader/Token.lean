import ArenaLisp.Text.Blank

namespace ArenaLisp

/-!
# Tokens

A text consists of parentheses and words, with separators and comments between
them.  A comment runs from a semicolon to the end of its line.  A word is as
long as possible: it ends only before a separator, a parenthesis or a semicolon.
-/

/-- A smallest meaningful part of a text. -/
inductive Token where
  | opening
  | closing
  | word (characters : List Char)
  deriving Repr, DecidableEq

namespace Token

/-- Whether a character can be part of a word. -/
def isWordCharacter (character : Char) : Bool :=
  !(Text.isSeparator character || character == '(' || character == ')' || character == ';')

/-- The rest of a text after its separators and comments, from inside a comment or outside. -/
def skipFrom (insideComment : Bool) : List Char → List Char
  | [] => []
  | first :: rest =>
      if insideComment then
        skipFrom (first != '\n') rest
      else if Text.isSeparator first then
        skipFrom false rest
      else if first == ';' then
        skipFrom true rest
      else
        first :: rest

/-- The text without the separators and comments in front. -/
def skip (text : List Char) : List Char :=
  skipFrom false text

/-- The first token of a text and what follows it. -/
def next? (text : List Char) : Option (Token × List Char) :=
  match skip text with
  | [] => none
  | '(' :: rest => some (.opening, rest)
  | ')' :: rest => some (.closing, rest)
  | first :: rest =>
      some (.word (first :: rest.takeWhile isWordCharacter), rest.dropWhile isWordCharacter)

/-- What is left after separators and comments is an end of the text. -/
theorem skipFrom_suffix
    (insideComment : Bool)
    (text : List Char) :
    skipFrom insideComment text <:+ text := by
  induction text generalizing insideComment with
  | nil =>
      exact List.suffix_refl _
  | cons first rest inductionHypothesis =>
      have later
          (inside : Bool) :
          skipFrom inside rest <:+ first :: rest :=
        (inductionHypothesis inside).trans (List.suffix_cons first rest)
      unfold skipFrom
      split
      · exact later _
      · split
        · exact later _
        · split
          · exact later _
          · exact List.suffix_refl _

/-- What follows a token is a proper end of the text. -/
theorem next?_suffix
    {text rest : List Char}
    {token : Token}
    (found : next? text = some (token, rest)) :
    ∃ first between, first :: between ++ rest = skip text := by
  unfold next? at found
  split at found
  · simp at found
  · rename_i after skipped
    simp only [Option.some.injEq, Prod.mk.injEq] at found
    exact ⟨'(', [], by rw [skipped, found.2]; rfl⟩
  · rename_i after skipped
    simp only [Option.some.injEq, Prod.mk.injEq] at found
    exact ⟨')', [], by rw [skipped, found.2]; rfl⟩
  · rename_i first after notOpening notClosing skipped
    simp only [Option.some.injEq, Prod.mk.injEq] at found
    refine ⟨first, after.takeWhile isWordCharacter, ?_⟩
    rw [skipped, ← found.2, List.cons_append, List.takeWhile_append_dropWhile]

/-- What follows a token is shorter than the text. -/
theorem length_lt_of_next?
    {text rest : List Char}
    {token : Token}
    (found : next? text = some (token, rest)) :
    rest.length < text.length := by
  obtain ⟨first, between, parts⟩ := next?_suffix found
  have skippedLength := (skipFrom_suffix false text).length_le
  have partsLength := congrArg List.length parts
  simp only [List.cons_append, List.length_cons, List.length_append, skip] at partsLength
  omega

/-- No word is empty. -/
theorem word_ne_nil_of_next?
    {text rest characters : List Char}
    (found : next? text = some (.word characters, rest)) :
    characters ≠ [] := by
  unfold next? at found
  split at found <;>
    simp only [Option.some.injEq, Prod.mk.injEq, Token.word.injEq, reduceCtorEq, false_and]
      at found
  rw [← found.1]
  exact List.cons_ne_nil _ _

end Token

end ArenaLisp
