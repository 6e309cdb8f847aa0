import ArenaLisp.Reader.Token
import Mathlib.Algebra.Ring.Int.Defs

namespace ArenaLisp

/-!
# Tokens of a text

All tokens of a text, from left to right.  What a text starts with decides its first
token and where the others start, so whatever is said of all tokens is proved by one
induction, `Token.text_induction`.

A text that ends with a line feed ends outside of words and comments.  Its tokens are
therefore the same whatever follows it.
-/

namespace Token

/-- All tokens of a text. -/
def all (text : List Char) : List Token :=
  match _ : next? text with
  | none => []
  | some (token, rest) => token :: all rest
termination_by text.length
decreasing_by exact length_lt_of_next? ‹_›

theorem all_none
    {text : List Char}
    (found : next? text = none) :
    all text = [] := by
  rw [all]
  split
  · rfl
  · rename_i isToken
    rw [found] at isToken
    cases isToken

theorem all_some
    {text rest : List Char}
    {token : Token}
    (found : next? text = some (token, rest)) :
    all text = token :: all rest := by
  rw [all]
  split
  · rename_i noToken
    rw [found] at noToken
    cases noToken
  · rename_i isToken
    rw [found] at isToken
    cases isToken
    rfl

/-- The tokens of texts that start alike are the same. -/
theorem all_congr
    {text other : List Char}
    (sameNext : next? text = next? other) :
    all text = all other := by
  cases found : next? other with
  | none =>
      rw [all_none found, all_none (sameNext.trans found)]
  | some step =>
      rw [all_some found, all_some (sameNext.trans found)]

/-- A text without a first token has nothing but separators and comments. -/
theorem next?_eq_none_iff {text : List Char} : next? text = none ↔ skip text = [] := by
  unfold next?
  split <;> simp_all

theorem skip_separator
    {first : Char}
    (separates : Text.isSeparator first = true)
    (rest : List Char) :
    skip (first :: rest) = skip rest := by
  simp [skip, skipFrom, separates]

theorem skip_separators
    {text : List Char}
    (separate : ∀ character ∈ text, Text.isSeparator character = true) :
    skip text = [] := by
  induction text with
  | nil =>
      rfl
  | cons first rest inductionHypothesis =>
      rw [skip_separator (separate first List.mem_cons_self)]
      exact inductionHypothesis fun character member =>
        separate character (List.mem_cons_of_mem first member)

/-- A comment ends with its line. -/
theorem skip_comment (rest : List Char) :
    skip (';' :: rest) = skip (rest.dropWhile (· != '\n')) := by
  have inside (text : List Char) :
      skipFrom true text = skip (text.dropWhile (· != '\n')) := by
    induction text with
    | nil =>
        rfl
    | cons first rest inductionHypothesis =>
        by_cases isLineFeed : first = '\n'
        · subst isLineFeed
          rfl
        · have goesOn : (first != '\n') = true :=
            bne_iff_ne.mpr isLineFeed
          rw [List.dropWhile_cons, if_pos goesOn, ← inductionHypothesis, skipFrom, if_pos rfl,
            goesOn]
  exact inside rest

theorem skip_token
    {first : Char}
    (notSeparator : Text.isSeparator first = false)
    (notComment : first ≠ ';')
    (rest : List Char) :
    skip (first :: rest) = first :: rest := by
  simp [skip, skipFrom, notSeparator, notComment]

theorem next?_separator
    {first : Char}
    (separates : Text.isSeparator first = true)
    (rest : List Char) :
    next? (first :: rest) = next? rest := by
  rw [next?, next?, skip_separator separates]

theorem next?_comment (rest : List Char) :
    next? (';' :: rest) = next? (rest.dropWhile (· != '\n')) := by
  rw [next?, next?, skip_comment]

theorem next?_opening (rest : List Char) : next? ('(' :: rest) = some (.opening, rest) :=
  rfl

theorem next?_closing (rest : List Char) : next? (')' :: rest) = some (.closing, rest) :=
  rfl

theorem isWordCharacter_iff {character : Char} :
    isWordCharacter character = true ↔
      Text.isSeparator character = false ∧ character ≠ '(' ∧ character ≠ ')' ∧
        character ≠ ';' := by
  simp [isWordCharacter, and_assoc]

theorem next?_word
    {first : Char}
    (inWord : isWordCharacter first = true)
    (rest : List Char) :
    next? (first :: rest) =
      some (.word (first :: rest.takeWhile isWordCharacter), rest.dropWhile isWordCharacter) := by
  obtain ⟨notSeparator, notOpening, notClosing, notComment⟩ := isWordCharacter_iff.mp inWord
  rw [next?, skip_token notSeparator notComment]
  split <;> simp_all

/-- Induction on a text: what it starts with, and where its tokens go on after that. -/
@[elab_as_elim]
theorem text_induction
    {motive : List Char → Prop}
    (nil : motive [])
    (separator :
      ∀ first rest,
        Text.isSeparator first = true →
        motive rest →
        motive (first :: rest))
    (comment : ∀ rest, motive (rest.dropWhile (· != '\n')) → motive (';' :: rest))
    (opening : ∀ rest, motive rest → motive ('(' :: rest))
    (closing : ∀ rest, motive rest → motive (')' :: rest))
    (word :
      ∀ first rest,
        isWordCharacter first = true →
        motive (rest.dropWhile isWordCharacter) →
        motive (first :: rest))
    (text : List Char) :
    motive text := by
  induction size : text.length using Nat.strongRecOn generalizing text with
  | ind size inductionHypothesis =>
      subst size
      cases text with
      | nil =>
          exact nil
      | cons first rest =>
          have later := inductionHypothesis _ (Nat.lt_succ_self _) rest rfl
          have dropped (belongs : Char → Bool) : motive (rest.dropWhile belongs) :=
            inductionHypothesis _
              (Nat.lt_succ_of_le (List.dropWhile_suffix belongs).length_le) _ rfl
          by_cases separates : Text.isSeparator first = true
          · exact separator first rest separates later
          by_cases isComment : first = ';'
          · exact isComment ▸ comment rest (dropped _)
          by_cases isOpening : first = '('
          · exact isOpening ▸ opening rest later
          by_cases isClosing : first = ')'
          · exact isClosing ▸ closing rest later
          have inWord : isWordCharacter first = true :=
            isWordCharacter_iff.mpr
              ⟨Bool.eq_false_iff.mpr separates, isOpening, isClosing, isComment⟩
          exact word first rest inWord (dropped _)

theorem skip_skip (text : List Char) : skip (skip text) = skip text := by
  induction text using text_induction with
  | nil | opening | closing =>
      rfl
  | separator first rest separates inductionHypothesis =>
      rw [skip_separator separates, inductionHypothesis]
  | comment rest inductionHypothesis =>
      rw [skip_comment, inductionHypothesis]
  | word first rest inWord _ =>
      obtain ⟨notSeparator, _, _, notComment⟩ := isWordCharacter_iff.mp inWord
      rw [skip_token notSeparator notComment, skip_token notSeparator notComment]

/-- Separators and comments in front make no difference to what comes next. -/
theorem next?_skip (text : List Char) : next? (skip text) = next? text := by
  rw [next?, next?, skip_skip]

/-- A text that ends with a line feed, or has no end at all. -/
def EndsLine (text : List Char) : Prop :=
  ∀ last ∈ text.getLast?, last = '\n'

theorem EndsLine.of_suffix
    {text rest : List Char}
    (ends : EndsLine text)
    (suffix : rest <:+ text) :
    EndsLine rest := by
  obtain ⟨front, rfl⟩ := suffix
  intro last isLast
  refine ends last ?_
  rw [Option.mem_def] at isLast ⊢
  rw [List.getLast?_append, isLast]
  rfl

theorem EndsLine.append
    {front rest : List Char}
    (frontEnds : EndsLine front)
    (restEnds : EndsLine rest) :
    EndsLine (front ++ rest) := by
  intro last isLast
  rw [Option.mem_def, List.getLast?_append] at isLast
  rcases Option.or_eq_some_iff.mp isLast with inRest | ⟨_, inFront⟩
  · exact restEnds last inRest
  · exact frontEnds last inFront

/-- A text that goes on after anything but a line feed still has one in front of it. -/
theorem EndsLine.mem_rest
    {first : Char}
    {rest : List Char}
    (ends : EndsLine (first :: rest))
    (notLineFeed : first ≠ '\n') :
    '\n' ∈ rest := by
  cases rest with
  | nil =>
      exact absurd (ends first rfl) notLineFeed
  | cons second later =>
      have isLast := ends ((second :: later).getLast (List.cons_ne_nil _ _)) (by
        simp [List.getLast?_eq_some_getLast])
      exact isLast ▸ List.getLast_mem _

/-- A run that ends inside a text is not changed by what follows the text. -/
theorem run_append
    {belongs : Char → Bool}
    {stop : Char}
    {text : List Char}
    (inText : stop ∈ text)
    (stops : belongs stop = false)
    (behind : List Char) :
    (text ++ behind).takeWhile belongs = text.takeWhile belongs ∧
      (text ++ behind).dropWhile belongs = text.dropWhile belongs ++ behind := by
  induction text with
  | nil =>
      cases inText
  | cons first rest inductionHypothesis =>
      cases goesOn : belongs first with
      | false =>
          simp [goesOn]
      | true =>
          have later : stop ∈ rest := by
            rcases List.mem_cons.mp inText with rfl | later
            · rw [stops] at goesOn
              cases goesOn
            · exact later
          simpa [goesOn] using inductionHypothesis later

/-- What follows a text that ends its line does not change its first token. -/
theorem next?_append
    {text rest : List Char}
    {token : Token}
    (ends : EndsLine text)
    (found : next? text = some (token, rest))
    (behind : List Char) :
    next? (text ++ behind) = some (token, rest ++ behind) := by
  induction text using text_induction generalizing token rest with
  | nil =>
      cases found
  | separator first later separates inductionHypothesis =>
      rw [next?_separator separates] at found
      rw [List.cons_append, next?_separator separates]
      exact inductionHypothesis (ends.of_suffix (List.suffix_cons first later)) found
  | comment later inductionHypothesis =>
      rw [next?_comment] at found
      have lineFeed := ends.mem_rest (by decide)
      rw [List.cons_append, next?_comment, (run_append lineFeed (by decide) behind).2]
      exact inductionHypothesis
        (ends.of_suffix ((List.dropWhile_suffix _).trans (List.suffix_cons _ later))) found
  | opening later _ =>
      cases found
      rfl
  | closing later _ =>
      cases found
      rfl
  | word first later inWord _ =>
      rw [next?_word inWord] at found
      cases found
      have notLineFeed : first ≠ '\n' := by
        rintro rfl
        cases inWord
      obtain ⟨taken, dropped⟩ :=
        @run_append isWordCharacter _ _ (ends.mem_rest notLineFeed) (by decide) behind
      rw [List.cons_append, next?_word inWord, taken, dropped]

/-- A text without tokens that ends its line makes no difference to what follows it. -/
theorem skip_append
    {text : List Char}
    (ends : EndsLine text)
    (isEmpty : skip text = [])
    (behind : List Char) :
    skip (text ++ behind) = skip behind := by
  induction text using text_induction with
  | nil =>
      rfl
  | separator first later separates inductionHypothesis =>
      rw [skip_separator separates] at isEmpty
      rw [List.cons_append, skip_separator separates]
      exact inductionHypothesis (ends.of_suffix (List.suffix_cons first later)) isEmpty
  | comment later inductionHypothesis =>
      rw [skip_comment] at isEmpty
      have lineFeed := ends.mem_rest (by decide)
      rw [List.cons_append, skip_comment, (run_append lineFeed (by decide) behind).2]
      exact inductionHypothesis
        (ends.of_suffix ((List.dropWhile_suffix _).trans (List.suffix_cons _ later))) isEmpty
  | opening | closing =>
      cases isEmpty
  | word first later inWord _ =>
      obtain ⟨notSeparator, _, _, notComment⟩ := isWordCharacter_iff.mp inWord
      rw [skip_token notSeparator notComment] at isEmpty
      cases isEmpty

/-- The text behind a token is an end of the text. -/
theorem rest_suffix
    {text rest : List Char}
    {token : Token}
    (found : next? text = some (token, rest)) :
    rest <:+ text := by
  obtain ⟨first, between, parts⟩ := next?_suffix found
  exact (List.suffix_append (first :: between) rest).trans
    (parts ▸ skipFrom_suffix false text)

/-- The tokens of a text that ends its line come before those of what follows it. -/
theorem all_append
    {text : List Char}
    (ends : EndsLine text)
    (behind : List Char) :
    all (text ++ behind) = all text ++ all behind := by
  fun_induction all text with
  | case1 text noToken =>
      have same : next? (text ++ behind) = next? behind := by
        rw [next?, next?, skip_append ends (next?_eq_none_iff.mp noToken)]
      rw [List.nil_append, all_congr same]
  | case2 text token rest found inductionHypothesis =>
      rw [all_some (next?_append ends found behind),
        inductionHypothesis (ends.of_suffix (rest_suffix found)), List.cons_append]

/-- How many lists are open after a token, unless it closes a list and none is open. -/
def nextDepth (depth : Nat) : Token → Option Nat
  | .opening => some (depth + 1)
  | .closing => if depth = 0 then none else some (depth - 1)
  | .word _ => some depth

/-- How many lists are open after some tokens, if each that is closed is open. -/
def depthAfter (depth : Nat) (tokens : List Token) : Option Nat :=
  tokens.foldlM nextDepth depth

theorem depthAfter_cons
    (depth : Nat)
    (token : Token)
    (rest : List Token) :
    depthAfter depth (token :: rest) =
      (nextDepth depth token).bind fun next => depthAfter next rest :=
  rfl

/-- What is open in the middle is open on the way. -/
theorem exists_depthAfter_of_append
    {depth final : Nat}
    {front rest : List Token}
    (after : depthAfter depth (front ++ rest) = some final) :
    ∃ between, depthAfter depth front = some between ∧ depthAfter between rest = some final := by
  rw [depthAfter, List.foldlM_append] at after
  exact Option.bind_eq_some_iff.mp after

/-- By how much a token changes the number of open lists. -/
def weight : Token → Int
  | .opening => 1
  | .closing => -1
  | .word _ => 0

/-- By how much tokens change the number of open lists. -/
def balance (tokens : List Token) : Int :=
  (tokens.map weight).sum

theorem balance_cons (token : Token) (rest : List Token) :
    balance (token :: rest) = weight token + balance rest := by
  rw [balance, List.map_cons, List.sum_cons, balance]

theorem balance_append (front rest : List Token) :
    balance (front ++ rest) = balance front + balance rest := by
  rw [balance, List.map_append, List.sum_append]
  rfl

theorem depthAfter_balance
    {depth final : Nat}
    {tokens : List Token}
    (after : depthAfter depth tokens = some final) :
    (final : Int) = depth + balance tokens := by
  induction tokens generalizing depth with
  | nil =>
      cases after
      simp [balance]
  | cons token rest inductionHypothesis =>
      rw [depthAfter_cons] at after
      obtain ⟨next, isNext, later⟩ := Option.bind_eq_some_iff.mp after
      have stepped : (next : Int) = depth + weight token := by
        cases token with
        | opening | word =>
            cases isNext
            simp [weight]
        | closing =>
            rw [nextDepth] at isNext
            split at isNext
            · cases isNext
            · cases isNext
              simp only [weight]
              omega
      rw [inductionHypothesis later, stepped, balance_cons, Int.add_assoc]

end Token

end ArenaLisp
