import ArenaLisp.Console.Dialogue
import ArenaLisp.Proofs.Reading.Encoding

namespace ArenaLisp

/-!
# Lines and parentheses

A dialogue counts the parentheses of whole lines, the reader those outside of comments.
The two counts agree on a line whose comment closes as many parentheses as it opens.
-/

namespace Console

open Grammar

/-- Cuts a text after each line feed; the last line may lack one. -/
def textLines : List Char → List (List Char)
  | [] => []
  | first :: rest =>
      if first = '\n' then
        [first] :: textLines rest
      else
        match textLines rest with
        | [] => [[first]]
        | line :: later => (first :: line) :: later

/-- A text in which nothing follows a line feed. -/
def OneLine (text : List Char) : Prop :=
  ∀ front rest, text = front ++ '\n' :: rest → rest = []

/-- The lines of a text: none is empty, and each before another one ends with a line feed. -/
inductive Cut : List (List Char) → Prop where
  | none : Cut []
  | line
      {line : List Char}
      {later : List (List Char)}
      (notEmpty : line ≠ [])
      (oneLine : OneLine line)
      (ends : Token.EndsLine line ∨ later = [])
      (rest : Cut later) :
      Cut (line :: later)

theorem OneLine.of_suffix
    {text rest : List Char}
    (oneLine : OneLine text)
    (suffix : rest <:+ text) :
    OneLine rest := by
  obtain ⟨earlier, rfl⟩ := suffix
  intro front behind parts
  refine oneLine (earlier ++ front) behind ?_
  rw [parts, List.append_assoc]

theorem oneLine_lineFeed : OneLine ['\n'] := by
  intro front rest parts
  cases front with
  | nil =>
      exact (List.cons.inj parts).2.symm
  | cons _ front =>
      exact absurd (List.cons.inj parts).2.symm (List.append_ne_nil_of_right_ne_nil _ (by simp))

theorem OneLine.cons
    {first : Char}
    {rest : List Char}
    (oneLine : OneLine rest)
    (notLineFeed : first ≠ '\n') :
    OneLine (first :: rest) := by
  intro front behind parts
  cases front with
  | nil =>
      exact absurd (List.cons.inj parts).1 notLineFeed
  | cons _ front =>
      exact oneLine front behind (List.cons.inj parts).2

theorem flatten_textLines (text : List Char) : (textLines text).flatten = text := by
  induction text with
  | nil =>
      rfl
  | cons first rest inductionHypothesis =>
      rw [textLines]
      split
      · rw [List.flatten_cons, inductionHypothesis]
        rfl
      · cases isRest : textLines rest with
        | nil =>
            rw [isRest] at inductionHypothesis
            rw [← inductionHypothesis]
            rfl
        | cons line later =>
            rw [isRest, List.flatten_cons] at inductionHypothesis
            simp only [List.flatten_cons, List.cons_append, inductionHypothesis]

theorem cut_textLines (text : List Char) : Cut (textLines text) := by
  induction text with
  | nil =>
      exact .none
  | cons first rest inductionHypothesis =>
      rw [textLines]
      split
      · rename_i isLineFeed
        subst isLineFeed
        refine .line (List.cons_ne_nil _ _) oneLine_lineFeed (.inl ?_) inductionHypothesis
        rintro _ ⟨⟩
        rfl
      · rename_i notLineFeed
        cases isRest : textLines rest with
        | nil =>
            refine .line (List.cons_ne_nil _ _) (OneLine.cons ?_ notLineFeed) (.inr rfl) .none
            intro front behind parts
            simp at parts
        | cons line later =>
            rw [isRest] at inductionHypothesis
            cases inductionHypothesis with
            | line notEmpty oneLine ends restCut =>
                refine .line (List.cons_ne_nil _ _) (oneLine.cons notLineFeed)
                  (ends.imp_left fun endsLine last isLast => endsLine last ?_) restCut
                rwa [List.getLast?_cons_of_ne_nil notEmpty] at isLast

/-- Bytes without a line feed belong to the first line of what follows them. -/
theorem lines_append
    {front : List UInt8}
    (notEmpty : front ≠ [])
    (noLineFeed : ∀ byte ∈ front, byte ≠ 0x0a)
    (rest : List UInt8) :
    lines (front ++ rest) =
      match lines rest with
      | [] => [front]
      | line :: later => (front ++ line) :: later := by
  induction front with
  | nil =>
      exact absurd rfl notEmpty
  | cons first others inductionHypothesis =>
      rw [List.cons_append, lines, if_neg (noLineFeed first List.mem_cons_self)]
      cases others with
      | nil =>
          rw [List.nil_append]
          cases lines rest <;> rfl
      | cons second others =>
          rw [inductionHypothesis (List.cons_ne_nil _ _) fun byte member =>
            noLineFeed byte (List.mem_cons_of_mem first member)]
          cases lines rest <;> rfl

/-- The lines of bytes are the bytes of the lines. -/
theorem lines_encode (text : List Char) :
    lines (encode text) = (textLines text).map encode := by
  induction text with
  | nil =>
      rfl
  | cons first rest inductionHypothesis =>
      rw [textLines]
      split
      · rename_i isLineFeed
        subst isLineFeed
        have bytes : encode ('\n' :: rest) = 0x0a :: encode rest :=
          rfl
        rw [bytes, lines, if_pos rfl, inductionHypothesis]
        rfl
      · rename_i notLineFeed
        have noLineFeed : ∀ byte ∈ String.utf8EncodeChar first, byte ≠ 0x0a := by
          intro byte member isLineFeed
          have same := @beq_of_mem_encodeChar _ '\n' _ member (by decide)
          rw [isLineFeed, beq_eq_false_iff_ne.mpr notLineFeed] at same
          cases same
        rw [encode_cons, lines_append String.utf8EncodeChar_ne_nil noLineFeed,
          inductionHypothesis]
        cases textLines rest with
        | nil =>
            simp [encode]
        | cons line later =>
            rfl

theorem decode?_encode (text : List Char) : decode? (encode text) = some (String.ofList text) := by
  have bytes : (⟨(encode text).toArray⟩ : ByteArray) = text.utf8Encode := by
    refine ByteArray.ext ?_
    rw [List.utf8Encode, List.data_toByteArray, encode]
  rw [decode?, bytes, String.fromUTF8?, dif_pos ByteArray.isValidUTF8_utf8Encode,
    Option.some.injEq, ← String.toByteArray_inj, String.toByteArray_ofList]
  rfl

/-- How many more parentheses some characters open than they close. -/
def parentheses (text : List Char) : Int :=
  (text.count '(' : Int) - (text.count ')' : Int)

/--
A line on which the console and the reader see the same: its comment closes as many
parentheses as it opens, and it is not blank unless it consists of separators.
-/
structure Plain (line : List Char) : Prop where
  comment : parentheses (line.dropWhile (· != ';')) = 0
  blank :
    Text.isAllBlank line = true → ∀ character ∈ line, Text.isSeparator character = true

instance Plain.decidable (line : List Char) : Decidable (Plain line) :=
  decidable_of_iff
    (parentheses (line.dropWhile (· != ';')) = 0 ∧
      (Text.isAllBlank line = true → line.all Text.isSeparator = true)) <| by
    rw [List.all_eq_true]
    exact ⟨fun conditions => ⟨conditions.1, conditions.2⟩,
      fun plain => ⟨plain.comment, plain.blank⟩⟩

theorem parentheses_append (front rest : List Char) :
    parentheses (front ++ rest) = parentheses front + parentheses rest := by
  simp only [parentheses, List.count_append]
  omega

/-- Characters that are no parentheses do not count. -/
theorem parentheses_eq_zero
    {text : List Char}
    (none : ∀ character ∈ text, character ≠ '(' ∧ character ≠ ')') :
    parentheses text = 0 := by
  have noOpening : '(' ∉ text := fun member => (none _ member).1 rfl
  have noClosing : ')' ∉ text := fun member => (none _ member).2 rfl
  simp [parentheses, List.count_eq_zero_of_not_mem noOpening,
    List.count_eq_zero_of_not_mem noClosing]

/-- Blank characters are no parentheses. -/
theorem parentheses_of_isAllBlank
    {text : List Char}
    (isBlank : Text.isAllBlank text = true) :
    parentheses text = 0 := by
  refine parentheses_eq_zero fun character member => ?_
  have blank := List.all_eq_true.mp isBlank character member
  constructor <;>
    rintro rfl <;>
    exact absurd blank (by decide)

theorem parentheses_takeWhile_cons
    {first : Char}
    (notComment : first ≠ ';')
    (rest : List Char) :
    parentheses ((first :: rest).takeWhile (· != ';')) =
      parentheses [first] + parentheses (rest.takeWhile (· != ';')) := by
  have goesOn : (first != ';') = true :=
    bne_iff_ne.mpr notComment
  rw [List.takeWhile_cons, if_pos goesOn, ← parentheses_append]
  rfl

/-- A word has no parentheses and starts no comment. -/
theorem parentheses_takeWhile_word
    {first : Char}
    (inWord : Token.isWordCharacter first = true)
    (rest : List Char) :
    parentheses ((first :: rest).takeWhile (· != ';')) =
      parentheses ((rest.dropWhile Token.isWordCharacter).takeWhile (· != ';')) := by
  have isWord := forall_mem_run inWord rest
  have uncounted : parentheses (first :: rest.takeWhile Token.isWordCharacter) = 0 :=
    parentheses_eq_zero fun character member =>
      have special := Token.isWordCharacter_iff.mp (isWord character member)
      ⟨special.2.1, special.2.2.1⟩
  have noComment :
      ∀ character ∈ first :: rest.takeWhile Token.isWordCharacter, (character != ';') = true :=
    fun character member =>
      bne_iff_ne.mpr (Token.isWordCharacter_iff.mp (isWord character member)).2.2.2
  have parts :
      first :: rest =
        (first :: rest.takeWhile Token.isWordCharacter) ++
          rest.dropWhile Token.isWordCharacter := by
    rw [List.cons_append, List.takeWhile_append_dropWhile]
  rw [parts, List.takeWhile_append_of_pos noComment, parentheses_append, uncounted, Int.zero_add]

/-- The comment of a line has no tokens behind it. -/
theorem OneLine.all_comment
    {rest : List Char}
    (oneLine : OneLine (';' :: rest)) :
    Token.all (';' :: rest) = [] := by
  rw [Token.all_congr (Token.next?_comment rest)]
  cases isLeft : rest.dropWhile (· != '\n') with
  | nil =>
      exact Token.all_none rfl
  | cons first behind =>
      obtain rfl : first = '\n' := by
        have isHead := head?_dropWhile (· != '\n') rest first (by rw [isLeft]; rfl)
        simpa using isHead
      have suffix : '\n' :: behind <:+ ';' :: rest :=
        isLeft ▸ (List.dropWhile_suffix _).trans (List.suffix_cons ';' rest)
      obtain rfl := oneLine.of_suffix suffix [] behind rfl
      exact Token.all_none rfl

/-- The tokens of a line open as many lists as there are parentheses in front of its comment. -/
theorem balance_oneLine
    {text : List Char}
    (oneLine : OneLine text) :
    Token.balance (Token.all text) = parentheses (text.takeWhile (· != ';')) := by
  induction text using Token.text_induction with
  | nil =>
      rw [Token.all_none rfl]
      rfl
  | separator first rest separates inductionHypothesis =>
      have notSpecial : first ≠ ';' ∧ first ≠ '(' ∧ first ≠ ')' := by
        refine ⟨?_, ?_, ?_⟩ <;>
          rintro rfl <;>
          exact absurd separates (by decide)
      have uncounted : parentheses [first] = 0 :=
        parentheses_eq_zero (by simpa using notSpecial.2)
      rw [Token.all_congr (Token.next?_separator separates rest),
        inductionHypothesis (oneLine.of_suffix (List.suffix_cons first rest)),
        parentheses_takeWhile_cons notSpecial.1, uncounted, Int.zero_add]
  | comment rest _ =>
      rw [oneLine.all_comment]
      rfl
  | opening rest inductionHypothesis =>
      rw [Token.all_some (Token.next?_opening rest), Token.balance_cons,
        inductionHypothesis (oneLine.of_suffix (List.suffix_cons _ rest)),
        parentheses_takeWhile_cons (by decide)]
      rfl
  | closing rest inductionHypothesis =>
      rw [Token.all_some (Token.next?_closing rest), Token.balance_cons,
        inductionHypothesis (oneLine.of_suffix (List.suffix_cons _ rest)),
        parentheses_takeWhile_cons (by decide)]
      rfl
  | word first rest inWord inductionHypothesis =>
      have later :=
        inductionHypothesis
          (oneLine.of_suffix ((List.dropWhile_suffix _).trans (List.suffix_cons first rest)))
      rw [Token.all_some (Token.next?_word inWord rest), Token.balance_cons, later,
        parentheses_takeWhile_word inWord]
      exact Int.zero_add _

/-- On a plain line the console counts what the reader counts. -/
theorem Plain.parentheses_eq
    {line : List Char}
    (plain : Plain line)
    (oneLine : OneLine line) :
    parentheses line = Token.balance (Token.all line) := by
  have parts := @List.takeWhile_append_dropWhile _ (· != ';') line
  rw [balance_oneLine oneLine]
  conv_lhs => rw [← parts]
  rw [parentheses_append, plain.comment, Int.add_zero]

end Console

end ArenaLisp
