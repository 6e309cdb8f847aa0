import ArenaLisp.Proofs.Reading.Composition
import ArenaLisp.Proofs.Reference.Program
import Mathlib.Data.List.DropRight

namespace ArenaLisp

/-!
# Words in a rendered list

The text of a list is trimmed once for each of its cells, from the last to the first.
What comes of it is the trimmed texts of the items with single spaces between them, the
empty ones left out.  The reader finds these words again.
-/

namespace Text

variable {text first behind : List Char}

/-- Whether a text neither begins nor ends with a blank character. -/
def IsTrimmed (text : List Char) : Prop :=
  (∀ character ∈ text.head?, isBlank character = false) ∧
    ∀ character ∈ text.getLast?, isBlank character = false

theorem dropWhile_eq_self_iff :
    text.dropWhile isBlank = text ↔ ∀ character ∈ text.head?, isBlank character = false := by
  rw [List.dropWhile_eq_self_iff]
  cases text <;> simp

theorem rdropWhile_eq_self_iff :
    text.rdropWhile isBlank = text ↔ ∀ character ∈ text.getLast?, isBlank character = false := by
  rw [List.rdropWhile, List.reverse_eq_iff, dropWhile_eq_self_iff, List.head?_reverse]

theorem trim_eq (text : List Char) : trim text = (text.dropWhile isBlank).rdropWhile isBlank :=
  rfl

/-- A text is trimmed if trimming leaves it alone. -/
theorem isTrimmed_iff : IsTrimmed text ↔ trim text = text := by
  rw [IsTrimmed, ← dropWhile_eq_self_iff, ← rdropWhile_eq_self_iff, trim_eq]
  constructor
  · rintro ⟨front, back⟩
    rw [front, back]
  · intro same
    have atMost := (List.rdropWhile_prefix isBlank (text.dropWhile isBlank)).length_le
    rw [same] at atMost
    have isEnd := List.dropWhile_suffix (l := text) isBlank
    have front := isEnd.eq_of_length (Nat.le_antisymm isEnd.length_le atMost)
    rw [front] at same
    exact ⟨front, same⟩

theorem isTrimmed_trim (text : List Char) : IsTrimmed (trim text) := by
  have isFront := List.rdropWhile_prefix isBlank (text.dropWhile isBlank)
  constructor
  · intro character atFront
    have notBlank := List.head?_dropWhile_not isBlank text
    obtain ⟨behind, split⟩ := isFront
    rw [← split, List.head?_append, ← trim_eq, Option.mem_def.mp atFront] at notBlank
    exact notBlank
  · rw [← rdropWhile_eq_self_iff]
    exact List.rdropWhile_idempotent isBlank (text.dropWhile isBlank)

/-- Every text without blank characters is trimmed. -/
theorem isTrimmed_of_forall
    (noneBlank : ∀ character ∈ text, isBlank character = false) :
    IsTrimmed text :=
  ⟨fun character atFront => noneBlank character (List.mem_of_mem_head? atFront),
    fun character atEnd => noneBlank character (List.mem_of_mem_getLast? atEnd)⟩

/-- Between trimmed texts that are not empty nothing is trimmed. -/
theorem isTrimmed_append
    (firstTrimmed : IsTrimmed first)
    (firstSome : first ≠ [])
    (behindTrimmed : IsTrimmed behind)
    (behindSome : behind ≠ [])
    (between : Char) :
    IsTrimmed (first ++ between :: behind) := by
  constructor
  · obtain ⟨character, rest, rfl⟩ := List.exists_cons_of_ne_nil firstSome
    exact firstTrimmed.1
  · rw [List.getLast?_append_of_ne_nil _ (List.cons_ne_nil _ _),
      List.getLast?_cons_of_ne_nil behindSome]
    exact behindTrimmed.2

theorem trim_blank
    {character : Char}
    (blank : isBlank character = true)
    (text : List Char) :
    trim (character :: text) = trim text := by
  rw [trim_eq, trim_eq, List.dropWhile_cons_of_pos blank]

/-- A blank behind a trimmed text is trimmed off again. -/
theorem trim_append_blank
    (trimmed : IsTrimmed text)
    {character : Char}
    (blank : isBlank character = true) :
    trim (text ++ [character]) = text := by
  cases text with
  | nil =>
      exact trim_blank blank []
  | cons first rest =>
      have front :
          ((first :: rest) ++ [character]).dropWhile isBlank = (first :: rest) ++ [character] :=
        dropWhile_eq_self_iff.mpr trimmed.1
      rw [trim_eq, front, List.rdropWhile_concat_pos _ _ _ blank]
      exact rdropWhile_eq_self_iff.mpr trimmed.2

theorem mem_of_mem_trim
    {character : Char}
    (member : character ∈ trim text) :
    character ∈ text :=
  (List.dropWhile_suffix isBlank).subset
    ((List.rdropWhile_prefix isBlank _).subset member)

theorem toList_stripParentheses (text : String) :
    (Heap.stripParentheses text).toList =
      trim (text.toList.filter fun character => character != '(' && character != ')') :=
  String.toList_ofList

theorem filter_of_noParentheses
    {text : List Char}
    (none : ∀ character ∈ text, character ≠ '(' ∧ character ≠ ')') :
    (text.filter fun character => character != '(' && character != ')') = text := by
  refine List.filter_eq_self.mpr fun character member => ?_
  simpa using none character member

/-- Whether a text is a word of the reader. -/
def IsWord (text : List Char) : Prop :=
  text ≠ [] ∧ ∀ character ∈ text, Token.isWordCharacter character = true

/-- The words that are left of some texts when each is trimmed. -/
def words (texts : List (List Char)) : List (List Char) :=
  (texts.map trim).filter fun word => !word.isEmpty

theorem words_cons_empty
    {texts : List (List Char)}
    (isEmpty : trim text = []) :
    words (text :: texts) = words texts := by
  simp [words, isEmpty]

theorem words_cons_some
    {texts : List (List Char)}
    (notEmpty : trim text ≠ []) :
    words (text :: texts) = trim text :: words texts := by
  simp [words, notEmpty]

/-- No word is missing only if trimming leaves something of every text. -/
theorem words_of_length_eq
    {texts : List (List Char)}
    (sameLength : (words texts).length = texts.length) :
    words texts = texts.map trim := by
  rw [words, ← texts.length_map trim, List.length_filter_eq_length_iff] at sameLength
  exact List.filter_eq_self.mpr sameLength

theorem words_of_isTrimmed
    {texts : List (List Char)}
    (trimmed : ∀ text ∈ texts, IsTrimmed text ∧ text ≠ []) :
    words texts = texts := by
  have nothingTrimmed : texts.map trim = texts :=
    List.map_congr_left (fun text member => isTrimmed_iff.mp (trimmed text member).1)
      |>.trans texts.map_id
  rw [words, nothingTrimmed]
  refine List.filter_eq_self.mpr fun text member => ?_
  simpa using (trimmed text member).2

/-- Some words with single spaces between them. -/
def spaced (words : List (List Char)) : List Char :=
  [' '].intercalate words

theorem spaced_cons
    (word next : List Char)
    (others : List (List Char)) :
    spaced (word :: next :: others) = word ++ ' ' :: spaced (next :: others) := by
  simp [spaced]

theorem spaced_append
    {words others : List (List Char)}
    (someWords : words ≠ [])
    (someOthers : others ≠ []) :
    spaced (words ++ others) = spaced words ++ ' ' :: spaced others := by
  induction words with
  | nil =>
      exact absurd rfl someWords
  | cons word words inductionHypothesis =>
      cases words with
      | nil =>
          obtain ⟨next, later, rfl⟩ := List.exists_cons_of_ne_nil someOthers
          rw [List.cons_append, List.nil_append, spaced_cons]
          simp [spaced]
      | cons next words =>
          rw [List.cons_append, List.cons_append, spaced_cons, spaced_cons, ← List.cons_append,
            inductionHypothesis (List.cons_ne_nil _ _), List.append_assoc, List.cons_append]

/-- What the texts of some cells come to, each trimmed with all that follows it. -/
def trimTogether : List (List Char) → List Char
  | [] => []
  | text :: rest => trim (trim text ++ ' ' :: trimTogether rest)

theorem isTrimmed_spaced
    {words : List (List Char)}
    (trimmed : ∀ word ∈ words, IsTrimmed word ∧ word ≠ []) :
    IsTrimmed (spaced words) ∧ (words ≠ [] → spaced words ≠ []) := by
  induction words with
  | nil =>
      exact ⟨isTrimmed_of_forall (by simp [spaced]), fun some => absurd rfl some⟩
  | cons word words inductionHypothesis =>
      obtain ⟨wordTrimmed, wordSome⟩ := trimmed word List.mem_cons_self
      cases words with
      | nil =>
          simpa [spaced] using ⟨wordTrimmed, wordSome⟩
      | cons next words =>
          obtain ⟨restTrimmed, restSome⟩ :=
            inductionHypothesis fun later member => trimmed later (List.mem_cons_of_mem word member)
          rw [spaced_cons]
          exact ⟨isTrimmed_append wordTrimmed wordSome restTrimmed
            (restSome (List.cons_ne_nil _ _)) ' ', fun _ => by simp⟩

theorem words_spec (texts : List (List Char)) :
    ∀ word ∈ words texts, IsTrimmed word ∧ word ≠ [] := by
  intro word member
  simp only [words, List.mem_filter, List.mem_map, Bool.not_eq_true', List.isEmpty_eq_false_iff]
    at member
  obtain ⟨⟨text, _, rfl⟩, notEmpty⟩ := member
  exact ⟨isTrimmed_trim text, notEmpty⟩

/-- Two rows of words with a space between them are one row, if either is empty too. -/
theorem trim_spaced_append
    {words others : List (List Char)}
    (trimmed : ∀ word ∈ words, IsTrimmed word ∧ word ≠ [])
    (othersTrimmed : ∀ word ∈ others, IsTrimmed word ∧ word ≠ []) :
    trim (spaced words ++ ' ' :: spaced others) = spaced (words ++ others) := by
  have space : isBlank ' ' = true := by
    decide
  obtain ⟨rowTrimmed, rowSome⟩ := isTrimmed_spaced trimmed
  obtain ⟨othersRowTrimmed, othersSome⟩ := isTrimmed_spaced othersTrimmed
  by_cases noWords : words = []
  · subst noWords
    exact (trim_blank space _).trans (isTrimmed_iff.mp othersRowTrimmed)
  by_cases noOthers : others = []
  · subst noOthers
    rw [List.append_nil]
    exact trim_append_blank rowTrimmed space
  · rw [spaced_append noWords noOthers]
    exact isTrimmed_iff.mp (isTrimmed_append rowTrimmed (rowSome noWords) othersRowTrimmed
      (othersSome noOthers) ' ')

/-- Trimming from cell to cell leaves the words with single spaces between them. -/
theorem trimTogether_eq (texts : List (List Char)) : trimTogether texts = spaced (words texts) := by
  induction texts with
  | nil =>
      rfl
  | cons text rest inductionHypothesis =>
      have ofText := trim_spaced_append (words_spec [text]) (words_spec rest)
      have wordsSplit : words (text :: rest) = words [text] ++ words rest := by
        rw [words, List.map_cons, ← List.singleton_append, List.filter_append]
        rfl
      have single : spaced (words [text]) = trim text := by
        by_cases isEmpty : trim text = []
        · rw [words_cons_empty isEmpty, isEmpty]
          rfl
        · rw [words_cons_some isEmpty]
          simp [words, spaced]
      rw [trimTogether, inductionHypothesis, wordsSplit, ← ofText, single]

/-- Nothing is added but spaces. -/
theorem mem_trimTogether
    {texts : List (List Char)}
    {character : Char}
    (member : character ∈ trimTogether texts) :
    character = ' ' ∨ ∃ text ∈ texts, character ∈ text := by
  induction texts with
  | nil =>
      cases member
  | cons text rest inductionHypothesis =>
      have inside := mem_of_mem_trim member
      rw [List.mem_append, List.mem_cons] at inside
      rcases inside with inText | isSpace | inRest
      · exact .inr ⟨text, List.mem_cons_self, mem_of_mem_trim inText⟩
      · exact .inl isSpace
      · rcases inductionHypothesis inRest with isSpace | ⟨later, isText, inLater⟩
        · exact .inl isSpace
        · exact .inr ⟨later, List.mem_cons_of_mem text isText, inLater⟩

theorem isWord_of_mem_words
    {texts : List (List Char)}
    (areWords : ∀ text ∈ texts, IsWord text)
    {word : List Char}
    (member : word ∈ words texts) :
    IsWord word := by
  simp only [words, List.mem_filter, List.mem_map, Bool.not_eq_true', List.isEmpty_eq_false_iff]
    at member
  obtain ⟨⟨text, isText, rfl⟩, notEmpty⟩ := member
  exact ⟨notEmpty, fun character inWord => (areWords text isText).2 character
    (mem_of_mem_trim inWord)⟩

end Text

open Text

/-- A word ends where a character stops it. -/
theorem Token.next?_append_stop
    {word : List Char}
    (isWord : IsWord word)
    {stop : Char}
    (stops : isWordCharacter stop = false)
    (behind : List Char) :
    next? (word ++ stop :: behind) = some (.word word, stop :: behind) := by
  obtain ⟨notEmpty, inWord⟩ := isWord
  obtain ⟨first, rest, rfl⟩ := List.exists_cons_of_ne_nil notEmpty
  have inRest : ∀ character ∈ rest, isWordCharacter character = true :=
    fun character member => inWord character (List.mem_cons_of_mem first member)
  obtain ⟨taken, dropped⟩ := run_append_stop stops rest behind
  rw [List.cons_append, next?_word (inWord first List.mem_cons_self), taken, dropped,
    List.takeWhile_eq_self_iff.mpr inRest, List.dropWhile_eq_nil_iff.mpr inRest, List.nil_append]

/-- A word that is found in a text is one. -/
theorem Token.isWord_of_next?
    {text rest word : List Char}
    (found : next? text = some (.word word, rest)) :
    IsWord word := by
  induction text using text_induction with
  | nil =>
      cases found
  | separator first later separates inductionHypothesis =>
      rw [next?_separator separates] at found
      exact inductionHypothesis found
  | comment later inductionHypothesis =>
      rw [next?_comment] at found
      exact inductionHypothesis found
  | opening later _ | closing later _ =>
      cases found
  | word first later inWord _ =>
      rw [next?_word inWord] at found
      cases found
      refine ⟨List.cons_ne_nil _ _, fun character member => ?_⟩
      rcases List.mem_cons.mp member with rfl | inLater
      · exact inWord
      · exact List.mem_takeWhile_imp inLater

namespace Reference

/-- Texts that start with the same token, and go on alike, are read alike. -/
theorem readOn_congr
    {text other : List Char}
    (sameNext : Token.next? text = Token.next? other)
    (opened : List (List Tree)) :
    readOn opened text = readOn opened other := by
  cases found : Token.next? other with
  | none =>
      rw [readOn_none found, readOn_none (sameNext.trans found)]
  | some step =>
      rw [readOn_some found, readOn_some (sameNext.trans found)]

theorem readOn_space
    (opened : List (List Tree))
    (text : List Char) :
    readOn opened (' ' :: text) = readOn opened text :=
  readOn_congr (Token.next?_separator (by decide) text) opened

/-- A word in a list is its next item, unless it cannot be read. -/
theorem readOn_word
    {text rest word : List Char}
    (found : Token.next? text = some (.word word, rest))
    (items : List Tree) :
    readOn [items] text =
      Tree.ofWord word >>= fun tree => readOn [tree :: items] rest := by
  rw [readOn_some found, advance]
  cases Tree.ofWord word <;> rfl

/-- Some words up to the end of a list are its items. -/
theorem readOn_spaced
    {words : List (List Char)}
    (areWords : ∀ word ∈ words, IsWord word)
    (items : List Tree) :
    readOn [items] (spaced words ++ [')']) =
      (words.mapM Tree.ofWord).map fun trees => (.list (items.reverse ++ trees), []) := by
  induction words generalizing items with
  | nil =>
      have found : Token.next? (spaced [] ++ [')']) = some (.closing, []) :=
        rfl
      rw [readOn_some found, List.mapM_nil]
      simp [advance, deliver, pure, Except.pure, Except.map]
  | cons word words inductionHypothesis =>
      have rests
          (tree : Tree) :=
        inductionHypothesis (fun later member => areWords later (List.mem_cons_of_mem word member))
          (tree :: items)
      have isWord := areWords word List.mem_cons_self
      obtain ⟨behind, found, same⟩ :
          ∃ behind,
            Token.next? (spaced (word :: words) ++ [')']) = some (.word word, behind) ∧
              ∀ opened, readOn opened behind = readOn opened (spaced words ++ [')']) := by
        cases words with
        | nil =>
            refine ⟨[')'], ?_, fun _ => rfl⟩
            simpa [spaced] using @Token.next?_append_stop word isWord ')' (by decide) []
        | cons next others =>
            refine ⟨' ' :: (spaced (next :: others) ++ [')']), ?_, fun _ => readOn_space _ _⟩
            rw [spaced_cons, List.append_assoc, List.cons_append]
            exact Token.next?_append_stop isWord (by decide) _
      rw [readOn_word found, List.mapM_cons]
      cases Tree.ofWord word with
      | error fault =>
          rfl
      | ok tree =>
          simp only [bind, Except.bind, same, rests]
          cases words.mapM Tree.ofWord with
          | error fault =>
              rfl
          | ok trees =>
              simp [pure, Except.pure, Except.map]

/-- The text of a list is read as what its words stand for. -/
theorem readNext_rendered
    {text : List Char}
    {texts : List (List Char)}
    (areWords : ∀ word ∈ text :: texts, IsWord word) :
    readNext ('(' :: (trim text ++ ' ' :: (trimTogether texts ++ [')']))) =
      ((words (text :: texts)).mapM Tree.ofWord).map fun trees => some (.list trees, []) := by
  have opens (inside : List Char) :
      readNext ('(' :: inside) = (readOn [[]] inside).map some := by
    have skipped : Token.skip ('(' :: inside) = '(' :: inside :=
      Token.skip_token (by decide) (by decide) inside
    rw [readNext, skipped, if_neg (List.cons_ne_nil _ _), readOn_some (Token.next?_opening inside)]
    rfl
  have wordsRead :
      readOn [[]] (spaced (words (text :: texts)) ++ [')']) =
        ((words (text :: texts)).mapM Tree.ofWord).map fun trees => (.list trees, []) :=
    readOn_spaced (fun word member => isWord_of_mem_words areWords member) []
  have inside :
      readOn [[]] (trim text ++ ' ' :: (trimTogether texts ++ [')'])) =
        readOn [[]] (spaced (words (text :: texts)) ++ [')']) := by
    rw [trimTogether_eq]
    by_cases isEmpty : trim text = []
    · rw [words_cons_empty isEmpty, isEmpty, List.nil_append, readOn_space]
    · have isWord : IsWord (trim text) :=
        isWord_of_mem_words areWords (by rw [words_cons_some isEmpty]; exact List.mem_cons_self)
      rw [words_cons_some isEmpty]
      cases isLast : words texts with
      | nil =>
          have space : Token.isWordCharacter ' ' = false := by
            decide
          have parenthesis : Token.isWordCharacter ')' = false := by
            decide
          have beforeSpace := Token.next?_append_stop isWord space [')']
          have beforeParenthesis := Token.next?_append_stop isWord parenthesis []
          have single : spaced [trim text] ++ [')'] = trim text ++ ')' :: [] := by
            simp [spaced]
          rw [single, readOn_word beforeParenthesis]
          refine (readOn_word beforeSpace []).trans ?_
          simp only [readOn_space]
      | cons next others =>
          rw [spaced_cons, List.append_assoc, List.cons_append]
  rw [opens, inside, wordsRead]
  cases (words (text :: texts)).mapM Tree.ofWord <;> rfl

end Reference

end ArenaLisp
