import ArenaLisp.Error
import ArenaLisp.Proofs.Reference.Tree
import Mathlib.Data.List.TakeWhile
import Mathlib.Data.Nat.Digits.Defs

namespace ArenaLisp

/-!
# The grammar of texts

What a text says, by its bytes.  White space and comments separate lexemes: the two
parentheses, and atoms, which are as long as possible.  An expression is an atom or
a list of expressions between parentheses.

A text need not say anything to its end.  It may close a list that is not open, write
an integer that does not fit into 64 bits, or end inside a list.  The grammar names the
first of these faults together with the expressions in front of it.
-/

namespace Grammar

/-- The bytes of a text. -/
def utf8 (text : String) : List UInt8 :=
  text.toUTF8.data.toList

/-- Space, tab, line feed, form feed and return. -/
def isSpace (byte : UInt8) : Bool :=
  byte == 0x20 || byte == 0x09 || byte == 0x0A || byte == 0x0C || byte == 0x0D

/-- Whether a byte can be part of an atom: not white space, a parenthesis or a semicolon. -/
def isAtomByte (byte : UInt8) : Bool :=
  !(isSpace byte || byte == 0x28 || byte == 0x29 || byte == 0x3B)

/-- The decimal digits. -/
def isDigit (byte : UInt8) : Bool :=
  0x30 ≤ byte && byte ≤ 0x39

/-- A parenthesis, or the bytes of an atom. -/
inductive Lexeme where
  | opening
  | closing
  | atom (word : List UInt8)
  deriving Repr, DecidableEq

/--
The lexemes of some bytes.  A comment runs from a semicolon to before the next line
feed or to the end; an atom is a maximal run of bytes that can be part of one.
-/
inductive Lexed : List UInt8 → List Lexeme → Prop where
  | done : Lexed [] []
  | space
      {byte : UInt8}
      {rest : List UInt8}
      {lexemes : List Lexeme}
      (isSpace : isSpace byte = true)
      (later : Lexed rest lexemes) :
      Lexed (byte :: rest) lexemes
  | comment
      {body rest : List UInt8}
      {lexemes : List Lexeme}
      (oneLine : ∀ byte ∈ body, byte ≠ 0x0A)
      (ends : ∀ byte ∈ rest.head?, byte = 0x0A)
      (later : Lexed rest lexemes) :
      Lexed (0x3B :: (body ++ rest)) lexemes
  | opening
      {rest : List UInt8}
      {lexemes : List Lexeme}
      (later : Lexed rest lexemes) :
      Lexed (0x28 :: rest) (.opening :: lexemes)
  | closing
      {rest : List UInt8}
      {lexemes : List Lexeme}
      (later : Lexed rest lexemes) :
      Lexed (0x29 :: rest) (.closing :: lexemes)
  | atom
      {word rest : List UInt8}
      {lexemes : List Lexeme}
      (notEmpty : word ≠ [])
      (inWord : ∀ byte ∈ word, isAtomByte byte = true)
      (maximal : ∀ byte ∈ rest.head?, isAtomByte byte = false)
      (later : Lexed rest lexemes) :
      Lexed (word ++ rest) (.atom word :: lexemes)

/-- The number that decimal digits denote. -/
def magnitude (digits : List UInt8) : Nat :=
  Nat.ofDigits 10 (digits.reverse.map fun digit => digit.toNat - 0x30)

/-- A word of decimal digits, with or without a minus sign in front, and its value. -/
inductive Numeral : List UInt8 → Int → Prop where
  | unsigned
      {digits : List UInt8}
      (notEmpty : digits ≠ [])
      (allDigits : ∀ digit ∈ digits, isDigit digit = true) :
      Numeral digits (magnitude digits)
  | negative
      {digits : List UInt8}
      (notEmpty : digits ≠ [])
      (allDigits : ∀ digit ∈ digits, isDigit digit = true) :
      Numeral (0x2D :: digits) (-(magnitude digits))

/-- What an atom stands for: its integer if it is a numeral, else the symbol of its bytes. -/
inductive Denotes : List UInt8 → Tree → Prop where
  | integer
      {word : List UInt8}
      {value : Int64}
      (numeral : Numeral word value.toInt) :
      Denotes word (.integer value)
  | symbol
      {word : List UInt8}
      {name : String}
      (notNumeral : ∀ value, ¬Numeral word value)
      (sameBytes : utf8 name = word) :
      Denotes word (.symbol name)

/-- A numeral whose value is not a signed 64-bit integer. -/
def OutOfRange (word : List UInt8) : Prop :=
  ∃ value, Numeral word value ∧ (value < -2 ^ 63 ∨ 2 ^ 63 ≤ value)

/-- The lexemes of some expressions, and the trees that these stand for. -/
inductive Spells : List Lexeme → List Tree → Prop where
  | none : Spells [] []
  | atom
      {word : List UInt8}
      {tree : Tree}
      {lexemes : List Lexeme}
      {trees : List Tree}
      (denotes : Denotes word tree)
      (later : Spells lexemes trees) :
      Spells (.atom word :: lexemes) (tree :: trees)
  | list
      {inside lexemes : List Lexeme}
      {items trees : List Tree}
      (elements : Spells inside items)
      (later : Spells lexemes trees) :
      Spells (.opening :: (inside ++ .closing :: lexemes)) (.list items :: trees)

/-- Lists that are not closed, each with the elements it has so far; the innermost list first. -/
inductive Unclosed : List Lexeme → List (List Tree) → Prop where
  | none : Unclosed [] []
  | list
      {outside inside : List Lexeme}
      {opened : List (List Tree)}
      {items : List Tree}
      (outer : Unclosed outside opened)
      (elements : Spells inside items) :
      Unclosed (outside ++ .opening :: inside) (items :: opened)

/-- The expressions of some lexemes up to the first fault, and that fault if there is one. -/
inductive Parses : List Lexeme → List Tree → Option ReadFault → Prop where
  | complete
      {lexemes : List Lexeme}
      {trees : List Tree}
      (spells : Spells lexemes trees) :
      Parses lexemes trees Option.none
  | unexpectedClose
      {front rest : List Lexeme}
      {trees : List Tree}
      (spells : Spells front trees) :
      Parses (front ++ .closing :: rest) trees (some .unexpectedClose)
  | unterminated
      {front inside : List Lexeme}
      {trees : List Tree}
      {opened : List (List Tree)}
      (spells : Spells front trees)
      (unclosed : Unclosed inside opened)
      (someOpen : opened ≠ []) :
      Parses (front ++ inside) trees (some .unterminatedList)
  | outOfRange
      {front inside rest : List Lexeme}
      {trees : List Tree}
      {opened : List (List Tree)}
      {word : String}
      (spells : Spells front trees)
      (unclosed : Unclosed inside opened)
      (outOfRange : OutOfRange (utf8 word)) :
      Parses (front ++ (inside ++ .atom (utf8 word) :: rest)) trees
        (some (.integerOutOfRange word))

/-- The expressions of a text up to its first fault, and that fault if there is one. -/
def Program (text : String) (trees : List Tree) (fault : Option ReadFault) : Prop :=
  ∃ lexemes, Lexed (utf8 text) lexemes ∧ Parses lexemes trees fault

theorem Spells.append
    {front lexemes : List Lexeme}
    {trees others : List Tree}
    (first : Spells front trees)
    (second : Spells lexemes others) :
    Spells (front ++ lexemes) (trees ++ others) := by
  induction first with
  | none =>
      exact second
  | atom denotes _ inductionHypothesis =>
      exact .atom denotes inductionHypothesis
  | list elements _ _ inductionHypothesis =>
      rw [List.cons_append, List.append_assoc, List.cons_append]
      exact .list elements inductionHypothesis

/-- More expressions in front change neither the fault nor what follows them. -/
theorem Parses.after
    {front lexemes : List Lexeme}
    {trees others : List Tree}
    {fault : Option ReadFault}
    (first : Spells front trees)
    (parses : Parses lexemes others fault) :
    Parses (front ++ lexemes) (trees ++ others) fault := by
  cases parses with
  | complete spells =>
      exact .complete (first.append spells)
  | unexpectedClose spells =>
      rw [← List.append_assoc]
      exact .unexpectedClose (first.append spells)
  | unterminated spells unclosed someOpen =>
      rw [← List.append_assoc]
      exact .unterminated (first.append spells) unclosed someOpen
  | outOfRange spells unclosed outOfRange =>
      rw [← List.append_assoc]
      exact .outOfRange (first.append spells) unclosed outOfRange

/-- A complete expression is the next element of the innermost list that is not closed. -/
theorem Unclosed.element
    {inside lexemes : List Lexeme}
    {opened : List (List Tree)}
    {items trees : List Tree}
    (unclosed : Unclosed inside (items :: opened))
    (spells : Spells lexemes trees) :
    Unclosed (inside ++ lexemes) ((items ++ trees) :: opened) := by
  cases unclosed with
  | list outer elements =>
      rw [List.append_assoc, List.cons_append]
      exact .list outer (elements.append spells)

/-- Splits bytes into lexemes from left to right. -/
def lex : List UInt8 → List Lexeme
  | [] => []
  | first :: rest =>
      if isSpace first then
        lex rest
      else if first = 0x3B then
        lex (rest.dropWhile (· ≠ 0x0A))
      else if first = 0x28 then
        .opening :: lex rest
      else if first = 0x29 then
        .closing :: lex rest
      else
        .atom (first :: rest.takeWhile isAtomByte) :: lex (rest.dropWhile isAtomByte)
termination_by bytes => bytes.length
decreasing_by
  all_goals simp only [List.length_cons]
  all_goals first
    | omega
    | exact Nat.lt_succ_of_le (List.dropWhile_suffix _).length_le

/-- A run up to a byte that does not belong to it is taken and dropped as a whole. -/
theorem takeWhile_dropWhile_append
    {belongs : UInt8 → Bool}
    {run rest : List UInt8}
    (inRun : ∀ byte ∈ run, belongs byte = true)
    (ends : ∀ byte ∈ rest.head?, belongs byte = false) :
    (run ++ rest).takeWhile belongs = run ∧ (run ++ rest).dropWhile belongs = rest := by
  rw [List.takeWhile_append_of_pos inRun, List.dropWhile_append_of_pos inRun]
  cases rest with
  | nil =>
      simp
  | cons first later =>
      have stops : belongs first = false :=
        ends first rfl
      simp [stops]

theorem lex_space
    {byte : UInt8}
    (separates : isSpace byte = true)
    (rest : List UInt8) :
    lex (byte :: rest) = lex rest := by
  rw [lex, if_pos separates]

theorem lex_comment
    {body rest : List UInt8}
    (oneLine : ∀ byte ∈ body, byte ≠ 0x0A)
    (ends : ∀ byte ∈ rest.head?, byte = 0x0A) :
    lex (0x3B :: (body ++ rest)) = lex rest := by
  have dropped : (body ++ rest).dropWhile (· ≠ 0x0A) = rest :=
    (takeWhile_dropWhile_append (by simpa using oneLine) (by simpa using ends)).2
  rw [lex, if_neg (by decide), if_pos rfl, dropped]

theorem lex_opening (rest : List UInt8) : lex (0x28 :: rest) = .opening :: lex rest := by
  rw [lex, if_neg (by decide), if_neg (by decide), if_pos rfl]

theorem lex_closing (rest : List UInt8) : lex (0x29 :: rest) = .closing :: lex rest := by
  rw [lex, if_neg (by decide), if_neg (by decide), if_neg (by decide), if_pos rfl]

theorem lex_atom
    {word rest : List UInt8}
    (notEmpty : word ≠ [])
    (inWord : ∀ byte ∈ word, isAtomByte byte = true)
    (maximal : ∀ byte ∈ rest.head?, isAtomByte byte = false) :
    lex (word ++ rest) = .atom word :: lex rest := by
  cases word with
  | nil =>
      exact absurd rfl notEmpty
  | cons first others =>
      have isFirst := inWord first List.mem_cons_self
      simp only [isAtomByte, Bool.not_eq_true', Bool.or_eq_false_iff, beq_eq_false_iff_ne]
        at isFirst
      obtain ⟨⟨⟨notSpace, notOpening⟩, notClosing⟩, notComment⟩ := isFirst
      obtain ⟨taken, dropped⟩ :=
        takeWhile_dropWhile_append
          (fun byte member => inWord byte (List.mem_cons_of_mem first member)) maximal
      rw [List.cons_append, lex, if_neg (by simp [notSpace]), if_neg notComment,
        if_neg notOpening, if_neg notClosing, taken, dropped]

/-- Bytes have no other lexemes than those they are split into. -/
theorem Lexed.eq_lex
    {bytes : List UInt8}
    {lexemes : List Lexeme}
    (lexed : Lexed bytes lexemes) :
    lexemes = lex bytes := by
  induction lexed with
  | done =>
      rw [lex]
  | space separates _ inductionHypothesis =>
      rw [lex_space separates, inductionHypothesis]
  | comment oneLine ends _ inductionHypothesis =>
      rw [lex_comment oneLine ends, inductionHypothesis]
  | opening _ inductionHypothesis =>
      rw [lex_opening, inductionHypothesis]
  | closing _ inductionHypothesis =>
      rw [lex_closing, inductionHypothesis]
  | atom notEmpty inWord maximal _ inductionHypothesis =>
      rw [lex_atom notEmpty inWord maximal, inductionHypothesis]

/-- What stands behind a maximal run does not belong to it. -/
theorem head?_dropWhile
    {Symbol : Type}
    (belongs : Symbol → Bool)
    (text : List Symbol) :
    ∀ symbol ∈ (text.dropWhile belongs).head?, belongs symbol = false := by
  intro symbol isHead
  have notHead := List.head?_dropWhile_not belongs text
  rw [Option.mem_def] at isHead
  rw [isHead] at notHead
  simpa using notHead

/-- Everything in a run belongs to it, the first symbol included. -/
theorem forall_mem_run
    {Symbol : Type}
    {belongs : Symbol → Bool}
    {first : Symbol}
    (isFirst : belongs first = true)
    (rest : List Symbol) :
    ∀ symbol ∈ first :: rest.takeWhile belongs, belongs symbol = true := by
  intro symbol member
  rcases List.mem_cons.mp member with rfl | inRest
  · exact isFirst
  · exact List.mem_takeWhile_imp inRest

/-- All bytes can be split into lexemes. -/
theorem lexed_lex (bytes : List UInt8) : Lexed bytes (lex bytes) := by
  fun_induction lex bytes with
  | case1 =>
      exact .done
  | case2 first rest separates later =>
      exact .space separates later
  | case3 rest _ later =>
      have lexed :=
        @Lexed.comment (rest.takeWhile (· ≠ 0x0A)) (rest.dropWhile (· ≠ 0x0A)) _
          (fun byte member => by simpa using List.mem_takeWhile_imp member)
          (fun byte isHead => by simpa using head?_dropWhile _ rest byte isHead)
          later
      rwa [List.takeWhile_append_dropWhile] at lexed
  | case4 rest _ _ later =>
      exact .opening later
  | case5 rest _ _ _ later =>
      exact .closing later
  | case6 first rest notSpace notComment notOpening notClosing later =>
      have isFirst : isAtomByte first = true := by
        simp [isAtomByte, notSpace, notComment, notOpening, notClosing]
      have lexed :=
        @Lexed.atom (first :: rest.takeWhile isAtomByte) (rest.dropWhile isAtomByte) _
          (List.cons_ne_nil _ _) (forall_mem_run isFirst rest) (head?_dropWhile isAtomByte rest)
          later
      rwa [List.cons_append, List.takeWhile_append_dropWhile] at lexed

end Grammar

end ArenaLisp
