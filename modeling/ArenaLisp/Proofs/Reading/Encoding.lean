import ArenaLisp.Proofs.Reading.Grammar
import ArenaLisp.Proofs.Reference.Program
import ArenaLisp.Proofs.Tokens

namespace ArenaLisp

/-!
# Characters and bytes

The grammar speaks of bytes, the reader of characters.  Both find the same lexemes:
whatever separates lexemes is an ASCII character, which is a byte of its own, and no
other character contains such a byte.  So no atom is cut inside a character either.
-/

namespace Grammar

/-- The bytes of some characters. -/
def encode (text : List Char) : List UInt8 :=
  text.flatMap String.utf8EncodeChar

@[simp]
theorem encode_nil : encode [] = [] :=
  rfl

theorem encode_cons (first : Char) (rest : List Char) :
    encode (first :: rest) = String.utf8EncodeChar first ++ encode rest :=
  rfl

theorem encode_append (front rest : List Char) :
    encode (front ++ rest) = encode front ++ encode rest :=
  List.flatMap_append

theorem utf8_ofList (text : List Char) : utf8 (String.ofList text) = encode text := by
  rw [utf8, String.toUTF8_eq_toByteArray, String.toByteArray_ofList, List.utf8Encode,
    List.toList_data_toByteArray, encode]

theorem utf8_eq_encode (text : String) : utf8 text = encode text.toList := by
  rw [← utf8_ofList, String.ofList_toList]

/-- Texts of the same bytes are the same. -/
theorem utf8_injective : Function.Injective utf8 := by
  intro first second same
  rw [← String.toByteArray_inj]
  exact ByteArray.ext (Array.toList_inj.mp same)

theorem encodeChar_ascii
    {character : Char}
    (isAscii : character.toNat < 128) :
    String.utf8EncodeChar character = [UInt8.ofNat character.toNat] := by
  have small : character.val.toNat ≤ 0x7f :=
    Nat.le_of_lt_succ isAscii
  rw [String.utf8EncodeChar, if_pos small]
  rfl

/-- An ASCII character is its own byte, and all bytes of another one are beyond ASCII. -/
theorem toNat_of_mem_encodeChar
    {character : Char}
    {byte : UInt8}
    (member : byte ∈ String.utf8EncodeChar character) :
    character.toNat < 128 ∧ byte.toNat = character.toNat ∨
      128 ≤ character.toNat ∧ 128 ≤ byte.toNat := by
  by_cases isAscii : character.toNat < 128
  · rw [encodeChar_ascii isAscii, List.mem_singleton] at member
    subst member
    exact .inl ⟨isAscii, UInt8.toNat_ofNat_of_lt (Nat.lt_trans isAscii (by decide))⟩
  · refine .inr ⟨Nat.le_of_not_lt isAscii, ?_⟩
    have large : ¬character.val.toNat ≤ 0x7f := fun small =>
      isAscii (Nat.lt_succ_of_le small)
    have bounded : character.val.toNat < 0x110000 := by
      rcases character.valid with low | ⟨_, high⟩
      · exact Nat.lt_of_lt_of_le low (by decide)
      · exact high
    rw [String.utf8EncodeChar, if_neg large] at member
    split_ifs at member <;>
      simp only [List.mem_cons, List.not_mem_nil, or_false] at member <;>
      rcases member with rfl | rfl | rfl | rfl <;>
      simp only [UInt8.toNat_ofNat'] <;>
      omega

/-- A byte of a character is an ASCII character if and only if the character is. -/
theorem beq_of_mem_encodeChar
    {character ascii : Char}
    {byte : UInt8}
    (member : byte ∈ String.utf8EncodeChar character)
    (isAscii : ascii.toNat < 128) :
    (byte == UInt8.ofNat ascii.toNat) = (character == ascii) := by
  have codes := toNat_of_mem_encodeChar member
  have sameCode : (UInt8.ofNat ascii.toNat).toNat = ascii.toNat :=
    UInt8.toNat_ofNat_of_lt (Nat.lt_trans isAscii (by decide))
  rw [Bool.eq_iff_iff, beq_iff_eq, beq_iff_eq, ← UInt8.toNat_inj, ← Char.toNat_inj, sameCode]
  omega

theorem isAtomByte_of_mem_encodeChar
    {character : Char}
    {byte : UInt8}
    (member : byte ∈ String.utf8EncodeChar character) :
    isAtomByte byte = Token.isWordCharacter character := by
  have same
      (ascii : Char)
      (isAscii : ascii.toNat < 128) :
      (byte == UInt8.ofNat ascii.toNat) = (character == ascii) :=
    beq_of_mem_encodeChar member isAscii
  rw [Token.isWordCharacter, Text.isSeparator, ← same ' ' (by decide), ← same '\t' (by decide),
    ← same '\n' (by decide), ← same '\x0c' (by decide), ← same '\r' (by decide),
    ← same '(' (by decide), ← same ')' (by decide), ← same ';' (by decide)]
  rfl

theorem isDigit_of_mem_encodeChar
    {character : Char}
    {byte : UInt8}
    (member : byte ∈ String.utf8EncodeChar character) :
    isDigit byte = character.isDigit := by
  have codes := toNat_of_mem_encodeChar member
  rw [Bool.eq_iff_iff, isDigit, Char.isDigit]
  simp only [Bool.and_eq_true, decide_eq_true_eq, UInt8.le_iff_toNat_le, UInt32.le_iff_toNat_le,
    ge_iff_le, UInt8.reduceToNat, Char.reduceVal, UInt32.reduceToNat, Char.toNat_val]
  omega

/-- A property of characters that their bytes share holds of all bytes of a text or fails. -/
theorem forall_mem_encode
    {ofBytes : UInt8 → Bool}
    {ofCharacters : Char → Bool}
    (same :
      ∀ character byte,
        byte ∈ String.utf8EncodeChar character → ofBytes byte = ofCharacters character)
    (text : List Char) :
    (∀ byte ∈ encode text, ofBytes byte = true) ↔
      ∀ character ∈ text, ofCharacters character = true := by
  constructor
  · intro allBytes character member
    obtain ⟨byte, isByte⟩ := List.exists_mem_of_ne_nil _ String.utf8EncodeChar_ne_nil
    rw [← same character byte isByte]
    exact allBytes byte (List.mem_flatMap.mpr ⟨character, member, isByte⟩)
  · intro allCharacters byte member
    obtain ⟨character, inText, isByte⟩ := List.mem_flatMap.mp member
    rw [same character byte isByte]
    exact allCharacters character inText

/-- The first byte of a text belongs to its first character. -/
theorem head?_encode
    {ofBytes : UInt8 → Bool}
    {ofCharacters : Char → Bool}
    (same :
      ∀ character byte,
        byte ∈ String.utf8EncodeChar character → ofBytes byte = ofCharacters character)
    {text : List Char}
    (ends : ∀ character ∈ text.head?, ofCharacters character = false) :
    ∀ byte ∈ (encode text).head?, ofBytes byte = false := by
  intro byte isHead
  cases text with
  | nil =>
      cases isHead
  | cons first rest =>
      obtain ⟨head, others, bytes⟩ := List.exists_cons_of_ne_nil String.utf8EncodeChar_ne_nil
      rw [encode_cons, bytes] at isHead
      obtain rfl : head = byte := Option.some.inj isHead
      rw [same first head (by rw [bytes]; exact List.mem_cons_self)]
      exact ends first rfl

end Grammar

namespace Token

/-- The lexeme of a token. -/
def lexeme : Token → Grammar.Lexeme
  | .opening => .opening
  | .closing => .closing
  | .word characters => .atom (Grammar.encode characters)

end Token

namespace Grammar

theorem lex_encode_separator
    {first : Char}
    (separates : Text.isSeparator first = true)
    (rest : List Char) :
    lex (encode (first :: rest)) = lex (encode rest) := by
  simp only [Text.isSeparator, Bool.or_eq_true, beq_iff_eq] at separates
  rcases separates with (((isSpace | isTab) | isLineFeed) | isFormFeed) | isReturn <;>
    subst_vars <;>
    exact lex_space (by decide) (encode rest)

theorem lex_encode_comment (rest : List Char) :
    lex (encode (';' :: rest)) = lex (encode (rest.dropWhile (· != '\n'))) := by
  have sameLineFeed
      (character : Char)
      (byte : UInt8)
      (member : byte ∈ String.utf8EncodeChar character) :
      (byte != 0x0A) = (character != '\n') :=
    congrArg Bool.not (@beq_of_mem_encodeChar _ '\n' _ member (by decide))
  have inLine :
      ∀ character ∈ rest.takeWhile (· != '\n'), (character != '\n') = true := by
    intro character member
    simpa using List.mem_takeWhile_imp member
  have oneLine := (@forall_mem_encode (· != 0x0A) (· != '\n') sameLineFeed _).mpr inLine
  have ends :=
    @head?_encode (· != 0x0A) (· != '\n') sameLineFeed _ (head?_dropWhile (· != '\n') rest)
  have parts :
      encode rest =
        encode (rest.takeWhile (· != '\n')) ++ encode (rest.dropWhile (· != '\n')) := by
    rw [← encode_append, List.takeWhile_append_dropWhile]
  have bytes : encode (';' :: rest) = 0x3B :: encode rest :=
    rfl
  rw [bytes, parts]
  exact lex_comment (by simpa using oneLine) (by simpa using ends)

theorem lex_encode_word
    {first : Char}
    (inWord : Token.isWordCharacter first = true)
    (rest : List Char) :
    lex (encode (first :: rest)) =
      .atom (encode (first :: rest.takeWhile Token.isWordCharacter)) ::
        lex (encode (rest.dropWhile Token.isWordCharacter)) := by
  have same
      (character : Char)
      (byte : UInt8) :
      byte ∈ String.utf8EncodeChar character →
      isAtomByte byte = Token.isWordCharacter character :=
    isAtomByte_of_mem_encodeChar
  have parts :
      encode (first :: rest) =
        encode (first :: rest.takeWhile Token.isWordCharacter) ++
          encode (rest.dropWhile Token.isWordCharacter) := by
    rw [← encode_append, List.cons_append, List.takeWhile_append_dropWhile]
  have notEmpty : encode (first :: rest.takeWhile Token.isWordCharacter) ≠ [] := by
    rw [encode_cons]
    exact List.append_ne_nil_of_left_ne_nil String.utf8EncodeChar_ne_nil _
  rw [parts]
  exact lex_atom notEmpty ((forall_mem_encode same _).mpr (forall_mem_run inWord rest))
    (head?_encode same (head?_dropWhile Token.isWordCharacter rest))

/-- The lexemes of a text are those of its tokens. -/
theorem lex_encode (text : List Char) : lex (encode text) = (Token.all text).map Token.lexeme := by
  induction text using Token.text_induction with
  | nil =>
      rw [encode_nil, lex, Token.all_none rfl]
      rfl
  | separator first rest separates inductionHypothesis =>
      rw [lex_encode_separator separates, inductionHypothesis,
        Token.all_congr (Token.next?_separator separates rest)]
  | comment rest inductionHypothesis =>
      rw [lex_encode_comment, inductionHypothesis, Token.all_congr (Token.next?_comment rest)]
  | opening rest inductionHypothesis =>
      rw [Token.all_some (Token.next?_opening rest), List.map_cons, ← inductionHypothesis]
      exact lex_opening (encode rest)
  | closing rest inductionHypothesis =>
      rw [Token.all_some (Token.next?_closing rest), List.map_cons, ← inductionHypothesis]
      exact lex_closing (encode rest)
  | word first rest inWord inductionHypothesis =>
      rw [lex_encode_word inWord, inductionHypothesis,
        Token.all_some (Token.next?_word inWord rest)]
      rfl

theorem forall_isDigit_encode (word : List Char) :
    (∀ byte ∈ encode word, isDigit byte = true) ↔ ∀ character ∈ word, character.isDigit = true :=
  forall_mem_encode (fun _ _ => isDigit_of_mem_encodeChar) word

theorem encode_ne_nil_iff {word : List Char} : encode word ≠ [] ↔ word ≠ [] := by
  cases word with
  | nil =>
      simp
  | cons first rest =>
      simp [encode_cons]

/-- The value of digits does not depend on whether they are read as bytes or as characters. -/
theorem magnitude_encode
    {digits : List Char}
    (allDigits : ∀ digit ∈ digits, digit.isDigit = true) :
    magnitude (encode digits) = Literal.natural digits := by
  have generalized
      (value : Nat) :
      (encode digits).foldl (fun value byte => byte.toNat - 0x30 + 10 * value) value =
        digits.foldl (fun value digit => 10 * value + Literal.digitValue digit) value := by
    induction digits generalizing value with
    | nil =>
        rfl
    | cons first rest inductionHypothesis =>
        have isFirst := allDigits first List.mem_cons_self
        have isAscii : first.toNat < 128 := by
          simp only [Char.isDigit, Bool.and_eq_true, decide_eq_true_eq,
            UInt32.le_iff_toNat_le] at isFirst
          exact Nat.lt_of_le_of_lt isFirst.2 (by decide)
        have sameCode : (UInt8.ofNat first.toNat).toNat = first.toNat :=
          UInt8.toNat_ofNat_of_lt (Nat.lt_trans isAscii (by decide))
        rw [encode_cons, encodeChar_ascii isAscii, List.singleton_append, List.foldl_cons,
          List.foldl_cons, sameCode, Nat.add_comm]
        exact inductionHypothesis
          (fun digit member => allDigits digit (List.mem_cons_of_mem first member)) _
  rw [magnitude, Nat.ofDigits_eq_foldr, List.foldr_map, List.foldr_reverse]
  exact generalized 0

/-- A minus sign in front is a byte of its own. -/
theorem encode_eq_minus_cons
    {word : List Char}
    {bytes : List UInt8}
    (same : encode word = 0x2D :: bytes) :
    ∃ rest, word = '-' :: rest ∧ encode rest = bytes := by
  cases word with
  | nil =>
      cases same
  | cons first rest =>
      obtain ⟨head, others, isFirst⟩ := List.exists_cons_of_ne_nil String.utf8EncodeChar_ne_nil
      have member : head ∈ String.utf8EncodeChar first := by
        rw [isFirst]
        exact List.mem_cons_self
      rw [encode_cons, isFirst, List.cons_append, List.cons.injEq] at same
      obtain ⟨rfl, sameRest⟩ := same
      have isMinus : (first == '-') = true := by
        rw [← @beq_of_mem_encodeChar _ '-' _ member (by decide)]
        rfl
      obtain rfl := eq_of_beq isMinus
      cases isFirst
      exact ⟨rest, rfl, sameRest⟩

/-- A word has a minus sign in front, or it is its own digits. -/
theorem sign_cases (word : List Char) :
    (∃ rest, word = '-' :: rest) ∨
      Literal.digits word = word ∧ ∀ magnitude, Literal.signed word magnitude = magnitude := by
  cases word with
  | nil =>
      exact .inr ⟨rfl, fun _ => rfl⟩
  | cons first rest =>
      by_cases isMinus : first = '-'
      · exact .inl ⟨rest, by rw [isMinus]⟩
      · refine .inr ⟨?_, fun magnitude => ?_⟩
        · rw [Literal.digits]
          simp [isMinus]
        · rw [Literal.signed]
          simp [isMinus]

theorem isInteger_iff {word : List Char} :
    Literal.isInteger word = true ↔
      Literal.digits word ≠ [] ∧ ∀ digit ∈ Literal.digits word, digit.isDigit = true := by
  simp [Literal.isInteger]

/-- The numerals are the words that are written like integers. -/
theorem numeral_encode_iff
    {word : List Char}
    {value : Int} :
    Numeral (encode word) value ↔ Literal.isInteger word = true ∧ value = Literal.integer word := by
  rw [isInteger_iff, Literal.integer]
  constructor
  · intro numeral
    generalize isWord : encode word = bytes at numeral
    cases numeral with
    | unsigned notEmpty allDigits =>
        subst isWord
        rw [encode_ne_nil_iff] at notEmpty
        rw [forall_isDigit_encode] at allDigits
        rcases sign_cases word with ⟨rest, rfl⟩ | ⟨ownDigits, ownSign⟩
        · exact absurd (allDigits '-' List.mem_cons_self) (by decide)
        · rw [ownDigits, ownSign, magnitude_encode allDigits]
          exact ⟨⟨notEmpty, allDigits⟩, rfl⟩
    | negative notEmpty allDigits =>
        obtain ⟨rest, rfl, rfl⟩ := encode_eq_minus_cons isWord
        rw [encode_ne_nil_iff] at notEmpty
        rw [forall_isDigit_encode] at allDigits
        rw [magnitude_encode allDigits]
        exact ⟨⟨notEmpty, allDigits⟩, rfl⟩
  · rintro ⟨⟨notEmpty, allDigits⟩, rfl⟩
    rw [← magnitude_encode allDigits]
    rw [← encode_ne_nil_iff] at notEmpty
    rw [← forall_isDigit_encode] at allDigits
    rcases sign_cases word with ⟨rest, rfl⟩ | ⟨ownDigits, ownSign⟩
    · exact .negative notEmpty allDigits
    · rw [ownDigits] at notEmpty allDigits
      rw [ownDigits, ownSign]
      exact .unsigned notEmpty allDigits

theorem fits_iff {value : Int} : Literal.fits value = true ↔ -2 ^ 63 ≤ value ∧ value < 2 ^ 63 := by
  simp only [Literal.fits, Bool.and_eq_true, decide_eq_true_eq]
  omega

theorem ofWord_symbol
    {word : List Char}
    (notInteger : Literal.isInteger word = false) :
    Tree.ofWord word = .ok (.symbol (String.ofList word)) := by
  simp [Tree.ofWord, notInteger]

theorem ofWord_integer
    {word : List Char}
    (isInteger : Literal.isInteger word = true) :
    Tree.ofWord word =
      if Literal.fits (Literal.integer word) then
        .ok (.integer (Int64.ofInt (Literal.integer word)))
      else
        .error (.integerOutOfRange (String.ofList word)) := by
  rw [Tree.ofWord, if_pos isInteger, Literal.integer?_eq]
  cases Literal.fits (Literal.integer word) <;> rfl

/-- The tree of a word is the one that its bytes denote. -/
theorem denotes_encode_iff
    {word : List Char}
    {tree : Tree} :
    Denotes (encode word) tree ↔ Tree.ofWord word = .ok tree := by
  constructor
  · intro denotes
    cases denotes with
    | @integer value numeral =>
        obtain ⟨isInteger, isValue⟩ := numeral_encode_iff.mp numeral
        have fits : Literal.fits (Literal.integer word) = true := by
          rw [← isValue]
          exact fits_iff.mpr ⟨value.le_toInt, value.toInt_lt⟩
        rw [ofWord_integer isInteger, if_pos fits, ← isValue, Int64.ofInt_toInt]
    | symbol notNumeral sameBytes =>
        have notInteger : Literal.isInteger word = false := by
          rw [← Bool.not_eq_true]
          intro isInteger
          exact notNumeral _ (numeral_encode_iff.mpr ⟨isInteger, rfl⟩)
        rw [← utf8_ofList] at sameBytes
        rw [ofWord_symbol notInteger, utf8_injective sameBytes]
  · intro isTree
    cases isInteger : Literal.isInteger word with
    | false =>
        rw [ofWord_symbol isInteger] at isTree
        cases isTree
        refine .symbol (fun value numeral => ?_) (utf8_ofList word)
        rw [(numeral_encode_iff.mp numeral).1] at isInteger
        cases isInteger
    | true =>
        rw [ofWord_integer isInteger] at isTree
        split at isTree
        · rename_i fits
          cases isTree
          obtain ⟨notLess, notMore⟩ := fits_iff.mp fits
          exact .integer (numeral_encode_iff.mpr
            ⟨isInteger, Int64.toInt_ofInt_of_le notLess notMore⟩)
        · cases isTree

/-- A word cannot be read if and only if its bytes are a numeral that is out of range. -/
theorem outOfRange_encode_iff
    {word : List Char}
    {fault : ReadFault} :
    OutOfRange (encode word) ∧ fault = .integerOutOfRange (String.ofList word) ↔
      Tree.ofWord word = .error fault := by
  constructor
  · rintro ⟨⟨value, numeral, outside⟩, rfl⟩
    obtain ⟨isInteger, rfl⟩ := numeral_encode_iff.mp numeral
    rw [ofWord_integer isInteger, if_neg]
    rw [fits_iff]
    omega
  · intro fails
    cases isInteger : Literal.isInteger word with
    | false =>
        rw [ofWord_symbol isInteger] at fails
        cases fails
    | true =>
        rw [ofWord_integer isInteger] at fails
        split at fails
        · cases fails
        · rename_i notFits
          cases fails
          refine ⟨⟨_, numeral_encode_iff.mpr ⟨isInteger, rfl⟩, ?_⟩, rfl⟩
          rw [fits_iff] at notFits
          omega

end Grammar

end ArenaLisp
