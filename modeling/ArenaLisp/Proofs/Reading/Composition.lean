import ArenaLisp.Proofs.Reading.Front

namespace ArenaLisp

/-!
# Texts compose

A line feed ends whatever word or comment a text ends in, and outside of both it only
separates.  What is read of a text up to its end is therefore read the same if a line
feed and another text follow, and behind the line feed that text is read as if it stood
alone.

Nothing is assumed of what evaluates the expressions in between.
-/

namespace Token

/-- A run goes no further than a character that stops it. -/
theorem run_append_stop
    {belongs : Char → Bool}
    {stop : Char}
    (stops : belongs stop = false)
    (text behind : List Char) :
    (text ++ stop :: behind).takeWhile belongs = text.takeWhile belongs ∧
      (text ++ stop :: behind).dropWhile belongs = text.dropWhile belongs ++ stop :: behind := by
  induction text with
  | nil =>
      simp [stops]
  | cons first rest inductionHypothesis =>
      cases goesOn : belongs first with
      | false =>
          simp [goesOn]
      | true =>
          simpa [goesOn] using inductionHypothesis

/-- A further line does not change the first token of a text. -/
theorem next?_append_line
    {text rest : List Char}
    {token : Token}
    (found : next? text = some (token, rest))
    (behind : List Char) :
    next? (text ++ '\n' :: behind) = some (token, rest ++ '\n' :: behind) := by
  induction text using text_induction with
  | nil =>
      cases found
  | separator first later separates inductionHypothesis =>
      rw [next?_separator separates] at found
      rw [List.cons_append, next?_separator separates]
      exact inductionHypothesis found
  | comment later inductionHypothesis =>
      rw [next?_comment] at found
      rw [List.cons_append, next?_comment, (run_append_stop (by decide) later behind).2]
      exact inductionHypothesis found
  | opening | closing =>
      cases found
      rfl
  | word first later inWord _ =>
      rw [next?_word inWord] at found
      cases found
      obtain ⟨taken, dropped⟩ :=
        @run_append_stop isWordCharacter '\n' (by decide) later behind
      rw [List.cons_append, next?_word inWord, taken, dropped]

/-- Behind a text without tokens a further line starts afresh. -/
theorem skip_append_line
    {text : List Char}
    (isEmpty : skip text = [])
    (behind : List Char) :
    skip (text ++ '\n' :: behind) = skip behind := by
  induction text using text_induction with
  | nil =>
      exact skip_separator (by decide) behind
  | separator first later separates inductionHypothesis =>
      rw [skip_separator separates] at isEmpty
      rw [List.cons_append, skip_separator separates]
      exact inductionHypothesis isEmpty
  | comment later inductionHypothesis =>
      rw [skip_comment] at isEmpty
      rw [List.cons_append, skip_comment, (run_append_stop (by decide) later behind).2]
      exact inductionHypothesis isEmpty
  | opening | closing =>
      cases isEmpty
  | word first later inWord _ =>
      obtain ⟨notSeparator, _, _, notComment⟩ := isWordCharacter_iff.mp inWord
      rw [skip_token notSeparator notComment] at isEmpty
      cases isEmpty

end Token

namespace Reader

variable
  {machine after : Machine}
  {counts : List Nat}
  {text left : List Char}
  {handle : Handle}

/-- An object that a text completes is read the same if a further line follows. -/
theorem readOn_append_line
    (answered : readOn counts text machine = ((.ok handle, ⟨left⟩), after))
    (behind : List Char) :
    readOn counts (text ++ '\n' :: behind) machine =
      ((.ok handle, ⟨left ++ '\n' :: behind⟩), after) := by
  fun_induction readOn counts text machine with
  | case1 | case2 =>
      cases answered
  | case3 counts text machine token rest found result between advanced =>
      cases answered
      rw [readOn_some (Token.next?_append_line found behind), advanced]
  | case4 counts text machine token rest found later between advanced inductionHypothesis =>
      rw [readOn_some (Token.next?_append_line found behind), advanced]
      exact inductionHypothesis answered

/-- The next expression of a text is read the same if a further line follows. -/
theorem read_append_line
    (answered : (Reader.mk text).read machine = ((.ok (some handle), ⟨left⟩), after))
    (behind : List Char) :
    (Reader.mk (text ++ '\n' :: behind)).read machine =
      ((.ok (some handle), ⟨left ++ '\n' :: behind⟩), after) :=
  read_object_iff.mpr (readOn_append_line (read_object_iff.mp answered) behind)

/-- Behind a text without another expression, the further line is all there is to read. -/
theorem read_further_line
    (isEmpty : Token.skip text = [])
    (behind : List Char)
    (machine : Machine) :
    (Reader.mk (text ++ '\n' :: behind)).read machine = (Reader.mk behind).read machine := by
  rw [read_eq, read_eq, Token.skip_append_line isEmpty]

end Reader

namespace Machine

variable
  {evaluator : Evaluator}
  {machine between : Machine}

/-- The answer to a text whose first expressions have had these values already. -/
def valuesThen (values : List String) (run : Run (List String)) : Run (List String) :=
  fun machine =>
    match run machine with
    | some (.ok more, final) => some (.ok (values ++ more), final)
    | unfinished => unfinished

theorem valuesThen_nil (run : Run (List String)) : valuesThen [] run = run := by
  funext machine
  rw [valuesThen]
  rcases run machine with _ | ⟨_ | _, _⟩ <;> rfl

/-- Equal readings make equal runs. -/
theorem evaluateRest_congr
    {reader other : Reader}
    (sameRead : reader.read machine = other.read machine) :
    evaluateRest evaluator reader machine = evaluateRest evaluator other machine := by
  rcases answered : other.read machine with ⟨⟨_ | _ | expression, rest⟩, after⟩
  · rw [evaluateRest_unreadable answered, evaluateRest_unreadable (sameRead.trans answered)]
  · rw [evaluateRest_done answered, evaluateRest_done (sameRead.trans answered)]
  · rw [evaluateRest_expression answered, evaluateRest_expression (sameRead.trans answered)]

/-- A text that returns values is evaluated before the line that follows it. -/
theorem evaluateRest_append_line
    {text : List Char}
    {values : List String}
    (returned : evaluateRest evaluator ⟨text⟩ machine = some (.ok values, between))
    (behind : List Char) :
    evaluateRest evaluator ⟨text ++ '\n' :: behind⟩ machine =
      valuesThen values (evaluateRest evaluator ⟨behind⟩) between := by
  induction size : text.length using Nat.strongRecOn generalizing text machine values with
  | ind size inductionHypothesis =>
      subst size
      rcases answered : (Reader.mk text).read machine with
        ⟨⟨_ | _ | expression, ⟨rest⟩⟩, afterReading⟩
      · rw [evaluateRest_unreadable answered] at returned
        cases returned
      · obtain ⟨isEmpty, _, sameMachine⟩ := Reader.read_done_iff.mp answered
        rw [evaluateRest_done answered, sameMachine] at returned
        cases returned
        rw [evaluateRest_congr (Reader.read_further_line isEmpty behind between),
          valuesThen_nil]
      · rw [evaluateRest_expression answered, Run.bind_apply] at returned
        rw [evaluateRest_expression (Reader.read_append_line answered behind), Run.bind_apply]
        rcases evaluated : evaluateTopLevel evaluator expression afterReading with
          _ | ⟨_ | value, afterFirst⟩ <;> rw [evaluated] at returned
        · cases returned
        · cases returned
        · simp only [concludeFirst, Run.bind_apply, Run.pure_apply] at returned ⊢
          rcases restReturned : evaluateRest evaluator ⟨rest⟩ afterFirst with
            _ | ⟨_ | others, final⟩ <;> rw [restReturned] at returned <;> cases returned
          have shorter : rest.length < text.length := Reader.length_lt_of_read answered
          rw [inductionHypothesis _ shorter restReturned rfl, valuesThen, valuesThen]
          rcases evaluateRest evaluator ⟨behind⟩ between with _ | ⟨_ | _, _⟩ <;> rfl

/--
Texts compose.  Where a text returns values, any text on the lines behind it is evaluated
on the machine that the first one leaves: its values come after the others, its error is
the error of both, it ends on the same machine, and it returns exactly if both together do.
-/
theorem evaluateText_append_line
    {front : String}
    {values : List String}
    (returned : evaluateText evaluator front machine = some (.ok values, between))
    (behind : String) :
    evaluateText evaluator (front ++ "\n" ++ behind) machine =
      match evaluateText evaluator behind between with
      | none => none
      | some (.error error, final) => some (.error error, final)
      | some (.ok more, final) => some (.ok (values ++ more), final) := by
  have appended :
      Reader.ofString (front ++ "\n" ++ behind) = ⟨front.toList ++ '\n' :: behind.toList⟩ := by
    rw [Reader.ofString, String.toList_append, String.toList_append, List.append_assoc]
    rfl
  have composed := evaluateRest_append_line returned behind.toList
  rw [evaluateText, appended, composed, valuesThen, evaluateText, Reader.ofString]
  rcases evaluateRest evaluator ⟨behind.toList⟩ between with _ | ⟨_ | _, _⟩ <;> rfl

/-- A word that only the line feed ends, and a second line with an error behind its value. -/
theorem evaluateText_append_line_unfinished :
    ∃ between final,
      evaluateText (ArenaLisp.evaluator Library.empty 2) "x ; (\n7" (blank 8 4 false) =
          some (.ok ["", "7"], between) ∧
        evaluateText (ArenaLisp.evaluator Library.empty 2) "8 )" between =
          some (.error (.unreadable .unexpectedClose), final) ∧
        evaluateText (ArenaLisp.evaluator Library.empty 2) ("x ; (\n7" ++ "\n" ++ "8 )")
            (blank 8 4 false) =
          some (.error (.unreadable .unexpectedClose), final) := by
  have frontReturns :
      (evaluateText (ArenaLisp.evaluator Library.empty 2) "x ; (\n7" (blank 8 4 false)).map
          Prod.fst =
        some (.ok ["", "7"]) := by
    decide +kernel
  have bothReturn :
      (evaluateText (ArenaLisp.evaluator Library.empty 2) ("x ; (\n7" ++ "\n" ++ "8 )")
          (blank 8 4 false)).map Prod.fst =
        some (.error (.unreadable .unexpectedClose)) := by
    decide +kernel
  obtain ⟨⟨_, between⟩, returned, rfl⟩ := Option.map_eq_some_iff.mp frontReturns
  have composed := evaluateText_append_line returned "8 )"
  rw [composed] at bothReturn
  refine ⟨between, ?_⟩
  rcases behind : evaluateText (ArenaLisp.evaluator Library.empty 2) "8 )" between with
    _ | ⟨error | more, final⟩ <;> rw [behind] at bothReturn composed <;> cases bothReturn
  exact ⟨final, returned, rfl, composed⟩

end Machine

end ArenaLisp
