namespace ArenaLisp

/-!
# Blank characters

Two sets of blank characters are in use.  The reader separates words at five
ASCII characters; the rendering and the console trim the characters that have
the Unicode property `White_Space`, of which there are twenty-five.
-/

namespace Text

/-- The characters that separate words: space, tab, line feed, form feed, return. -/
def isSeparator (character : Char) : Bool :=
  character == ' ' || character == '\t' || character == '\n' ||
    character == '\x0c' || character == '\r'

/-- The code points with the Unicode property `White_Space`. -/
def blankCodePoints : List Nat :=
  [0x0009, 0x000A, 0x000B, 0x000C, 0x000D, 0x0020, 0x0085, 0x00A0, 0x1680,
    0x2000, 0x2001, 0x2002, 0x2003, 0x2004, 0x2005, 0x2006, 0x2007, 0x2008,
    0x2009, 0x200A, 0x2028, 0x2029, 0x202F, 0x205F, 0x3000]

/-- Whether a character has the Unicode property `White_Space`. -/
def isBlank (character : Char) : Bool :=
  blankCodePoints.contains character.toNat

/-- The text without the blank characters at its end. -/
def trimEnd (text : List Char) : List Char :=
  (text.reverse.dropWhile isBlank).reverse

/-- The text without the blank characters at either end. -/
def trim (text : List Char) : List Char :=
  trimEnd (text.dropWhile isBlank)

/-- Whether every character of a text is blank. -/
def isAllBlank (text : List Char) : Bool :=
  text.all isBlank

/-- Every separator is blank. -/
theorem isBlank_of_isSeparator
    {character : Char}
    (separates : isSeparator character = true) :
    isBlank character = true := by
  simp only [isSeparator, Bool.or_eq_true, beq_iff_eq] at separates
  rcases separates with (((isSpace | isTab) | isLineFeed) | isFormFeed) | isReturn <;>
    subst_vars <;> decide

end Text

end ArenaLisp
