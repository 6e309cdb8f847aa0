import ArenaLisp.Proofs.Reading.Encoding
import ArenaLisp.Proofs.Rendering.Words

namespace ArenaLisp

/-!
# The texts of integers and symbols

An integer is rendered in decimal and read from its digits again.  A symbol is rendered
as its name, and a name that was read once is read as the same symbol again.
-/

open Text

namespace Tree

/-- Whether a tree is what a word stands for: an integer or a symbol. -/
inductive IsAtom : Tree → Prop where
  | integer (value : Int64) : IsAtom (.integer value)
  | symbol (name : String) : IsAtom (.symbol name)

/-- The text of an atom. -/
def text : Tree → List Char
  | .integer value => (toString value.toInt).toList
  | .symbol name => name.toList
  | _ => []

/-- Whether the name of a symbol neither begins nor ends with a blank character. -/
def IsTrimmed (tree : Tree) : Prop :=
  ∀ name, tree = .symbol name → Text.IsTrimmed name.toList

/-- The decimal text of an integer: its digits, behind a minus sign if it is negative. -/
theorem toList_toString (value : Int) :
    (toString value).toList =
      if 0 ≤ value then Nat.toDigits 10 value.toNat
      else '-' :: Nat.toDigits 10 (-value).toNat := by
  rw [Int.toString_eq_repr, Int.repr_eq_if]
  split
  · exact Nat.toList_repr
  · rw [String.toList_append, Nat.toList_repr]
    rfl

/-- The decimal text of a natural number consists of digits, and these denote it. -/
theorem toDigits_spec (natural : Nat) :
    (Nat.toDigits 10 natural ≠ [] ∧
      ∀ character ∈ Nat.toDigits 10 natural, character.isDigit = true) ∧
      Literal.natural (Nat.toDigits 10 natural) = natural :=
  ⟨⟨Nat.toDigits_ne_nil,
    fun _ member => Nat.isDigit_of_mem_toDigits (by decide) (by decide) member⟩,
    Nat.ofDigitChars_ten_toDigits⟩

/-- The number that a decimal text denotes is the one that it is the text of. -/
theorem integer_toString (value : Int) :
    Literal.isInteger (toString value).toList = true ∧
      Literal.integer (toString value).toList = value := by
  rw [toList_toString, Grammar.isInteger_iff]
  split
  · rename_i nonnegative
    obtain ⟨areDigits, denotes⟩ := toDigits_spec value.toNat
    rcases Grammar.sign_cases (Nat.toDigits 10 value.toNat) with ⟨rest, signed⟩ | ⟨same, unsigned⟩
    · have isDigit := areDigits.2 '-' (by rw [signed]; exact List.mem_cons_self)
      cases isDigit
    · rw [same, Literal.integer, unsigned, same, denotes]
      exact ⟨areDigits, Int.toNat_of_nonneg nonnegative⟩
  · rename_i negative
    obtain ⟨areDigits, denotes⟩ := toDigits_spec (-value).toNat
    have signed : Literal.digits ('-' :: Nat.toDigits 10 (-value).toNat) =
        Nat.toDigits 10 (-value).toNat :=
      rfl
    rw [signed, Literal.integer, signed, denotes, Literal.signed]
    refine ⟨areDigits, ?_⟩
    rw [Int.toNat_of_nonneg (by omega), Int.neg_neg]

/-- Every 64-bit integer is read from its decimal text. -/
theorem ofWord_toString (value : Int64) :
    ofWord (toString value.toInt).toList = .ok (.integer value) := by
  obtain ⟨isInteger, denotes⟩ := integer_toString value.toInt
  have atLeast := value.le_toInt
  have below := value.toInt_lt
  have fits : Literal.fits value.toInt = true := by
    simp only [Literal.fits, Bool.and_eq_true, decide_eq_true_eq]
    omega
  rw [ofWord, if_pos isInteger, Literal.integer?_eq, denotes, if_pos fits, Int64.ofInt_toInt]

theorem characters_of_isDigit
    {character : Char}
    (isDigit : character.isDigit = true) :
    Token.isWordCharacter character = true ∧ isBlank character = false := by
  have notBlank : isBlank character = false := by
    simp only [Char.isDigit, Bool.and_eq_true, decide_eq_true_eq] at isDigit
    have atLeast : 48 ≤ character.toNat := UInt32.le_iff_toNat_le.mp isDigit.1
    have atMost : character.toNat ≤ 57 := UInt32.le_iff_toNat_le.mp isDigit.2
    simp only [isBlank, blankCodePoints, List.contains_eq_mem, List.mem_cons, List.not_mem_nil,
      or_false, decide_eq_false_iff_not]
    omega
  have notSeparator : isSeparator character = false := by
    rw [← Bool.not_eq_true]
    intro separates
    rw [isBlank_of_isSeparator separates] at notBlank
    cases notBlank
  have notDelimiter
      {other : Char}
      (none : other.isDigit = false) :
      character ≠ other := by
    rintro rfl
    rw [isDigit] at none
    cases none
  exact ⟨Token.isWordCharacter_iff.mpr
    ⟨notSeparator, notDelimiter rfl, notDelimiter rfl, notDelimiter rfl⟩, notBlank⟩

/-- There are no blanks in a decimal text, and nothing that ends a word. -/
theorem characters_toString
    {value : Int}
    {character : Char}
    (member : character ∈ (toString value).toList) :
    Token.isWordCharacter character = true ∧ isBlank character = false := by
  rw [toList_toString] at member
  split at member
  · exact characters_of_isDigit ((toDigits_spec _).1.2 character member)
  · rcases List.mem_cons.mp member with rfl | inDigits
    · exact ⟨by decide, by decide⟩
    · exact characters_of_isDigit ((toDigits_spec _).1.2 character inDigits)

/-- Whether the symbols in a tree are ones that some text is read as. -/
def IsReadable : Tree → Prop
  | .pair car cdr => car.IsReadable ∧ cdr.IsReadable
  | .symbol name => IsWord name.toList ∧ ofWord name.toList = .ok (.symbol name)
  | _ => True

theorem isReadable_list {items : List Tree} :
    (list items).IsReadable ↔ ∀ item ∈ items, item.IsReadable := by
  induction items with
  | nil =>
      simp [list, IsReadable]
  | cons item items inductionHypothesis =>
      have unfolded :
          (list (item :: items)).IsReadable ↔ item.IsReadable ∧ (list items).IsReadable :=
        Iff.rfl
      rw [unfolded, inductionHypothesis, List.forall_mem_cons]

theorem isReadable_ofWord
    {word : List Char}
    {tree : Tree}
    (isWord : IsWord word)
    (isTree : ofWord word = .ok tree) :
    tree.IsReadable := by
  have denotes := isTree
  rw [ofWord] at isTree
  split at isTree
  · split at isTree
    · cases isTree
      trivial
    · cases isTree
  · cases isTree
    rw [IsReadable, String.toList_ofList]
    exact ⟨isWord, denotes⟩

/-- The text of an atom that is read stands for it, and trimming an integer changes nothing. -/
theorem text_spec
    {item : Tree}
    (readable : item.IsReadable)
    (isAtom : item.IsAtom) :
    IsWord item.text ∧
      ofWord item.text = .ok item ∧
      (Text.IsTrimmed item.text ↔ item.IsTrimmed) := by
  cases isAtom with
  | integer value =>
      have notEmpty : (toString value.toInt).toList ≠ [] := by
        rw [toList_toString]
        split
        · exact Nat.toDigits_ne_nil
        · exact List.cons_ne_nil _ _
      refine ⟨⟨notEmpty, fun _ member => (characters_toString member).1⟩, ofWord_toString value, ?_⟩
      constructor
      · rintro _ _ ⟨⟩
      · exact fun _ => isTrimmed_of_forall fun _ member => (characters_toString member).2
  | symbol name =>
      refine ⟨readable.1, readable.2, ?_⟩
      constructor
      · rintro trimmed _ ⟨⟩
        exact trimmed
      · exact fun trimmed => trimmed name rfl

end Tree

namespace Reference

/-- What is handed to open lists, and completes them, is as readable as they are. -/
theorem isReadable_deliver
    {item : Tree}
    (readable : item.IsReadable)
    {outer : List (List Tree)}
    (outerReadable : ∀ items ∈ outer, ∀ item ∈ items, item.IsReadable) :
    (∀ tree, deliver item outer = .finished (.ok tree) → tree.IsReadable) ∧
      ∀ opened,
        deliver item outer = .more opened →
        ∀ items ∈ opened, ∀ item ∈ items, item.IsReadable := by
  cases outer with
  | nil =>
      refine ⟨?_, by rintro _ ⟨⟩⟩
      rintro _ ⟨⟩
      exact readable
  | cons items outer =>
      refine ⟨by rintro _ ⟨⟩, ?_⟩
      rintro _ ⟨⟩
      rw [List.forall_mem_cons] at outerReadable ⊢
      exact ⟨List.forall_mem_cons.mpr ⟨readable, outerReadable.1⟩, outerReadable.2⟩

theorem isReadable_advance
    {text rest : List Char}
    {token : Token}
    (found : Token.next? text = some (token, rest))
    {opened : List (List Tree)}
    (openReadable : ∀ items ∈ opened, ∀ item ∈ items, item.IsReadable) :
    (∀ tree, advance token opened = .finished (.ok tree) → tree.IsReadable) ∧
      ∀ after,
        advance token opened = .more after →
        ∀ items ∈ after, ∀ item ∈ items, item.IsReadable := by
  cases token with
  | opening =>
      refine ⟨by rintro _ ⟨⟩, ?_⟩
      rintro _ ⟨⟩
      exact List.forall_mem_cons.mpr ⟨List.forall_mem_nil _, openReadable⟩
  | closing =>
      cases opened with
      | nil =>
          exact ⟨by rintro _ ⟨⟩, by rintro _ ⟨⟩⟩
      | cons items outer =>
          rw [List.forall_mem_cons] at openReadable
          refine isReadable_deliver (Tree.isReadable_list.mpr fun item member => ?_) openReadable.2
          exact openReadable.1 item (List.mem_reverse.mp member)
  | word characters =>
      rw [advance]
      cases isTree : Tree.ofWord characters with
      | error fault =>
          exact ⟨by rintro _ ⟨⟩, by rintro _ ⟨⟩⟩
      | ok tree =>
          have readable := Tree.isReadable_ofWord (Token.isWord_of_next? found) isTree
          exact isReadable_deliver readable openReadable

/-- What is read of a text is made of words of it. -/
theorem isReadable_of_readOn
    {opened : List (List Tree)}
    (openReadable : ∀ items ∈ opened, ∀ item ∈ items, item.IsReadable)
    {text rest : List Char}
    {tree : Tree}
    (isRead : readOn opened text = .ok (tree, rest)) :
    tree.IsReadable := by
  fun_induction readOn opened text with
  | case1 | case3 =>
      cases isRead
  | case2 opened text token remaining found result advanced =>
      cases isRead
      exact (isReadable_advance found openReadable).1 _ advanced
  | case4 opened text token remaining found after advanced inductionHypothesis =>
      exact inductionHypothesis ((isReadable_advance found openReadable).2 _ advanced) isRead

end Reference

end ArenaLisp
