namespace ArenaLisp

/-!
# Text without terminal control

Records of the log are printed as plain text: control characters and the escape
sequences of terminals are left out.  A sequence starts with an escape
character; what follows decides its form and where it ends.  White space is the
only kind of control character that is kept.

A character other than an ASCII one never takes part in a sequence, but it can
end one: the terminator of the string forms is the byte `0x9C`, and that byte
can occur inside the UTF-8 encoding of a character.
-/

namespace Terminal

/-- Where a text stands with respect to escape sequences. -/
inductive Mode where
  /-- Outside of every sequence. -/
  | ground
  /-- After the escape character. -/
  | escape
  /-- In a sequence that an intermediate character has opened. -/
  | escapeIntermediate
  /-- In a control sequence, which an opening bracket starts. -/
  | control
  /-- At the start of a device control string. -/
  | deviceEntry
  /-- In the parameters of a device control string. -/
  | deviceParameter
  /-- After an intermediate character of a device control string. -/
  | deviceIntermediate
  /-- In the body of a device control string or of another string. -/
  | stringBody
  /-- In an operating-system command. -/
  | operatingCommand
  deriving Repr, DecidableEq

/-- The character that starts an escape sequence. -/
def escapeCharacter : Char := '\x1b'

/-- Whether a character ends every sequence at once. -/
def cancels (character : Char) : Bool :=
  character == '\x18' || character == '\x1a'

/-- Whether a character is among those from one code point to another. -/
def isBetween (low high : Nat) (character : Char) : Bool :=
  low ≤ character.toNat && character.toNat ≤ high

/-- Whether a character can stand between the start of a sequence and its end. -/
def isIntermediate : Char → Bool :=
  isBetween 0x20 0x2f

/-- Whether the encoding of a character contains the terminator of strings. -/
def containsTerminator (character : Char) : Bool :=
  (String.singleton character).toUTF8.toList.contains 0x9c

/-- What follows the escape character decides the form of a sequence. -/
def modeAfterEscape (character : Char) : Mode :=
  if isIntermediate character then .escapeIntermediate
  else if character == '[' then .control
  else if character == ']' then .operatingCommand
  else if character == 'P' then .deviceEntry
  else if character == 'X' || character == '^' || character == '_' then .stringBody
  else if isBetween 0x30 0x7e character then .ground
  else .escape

/-- The mode after a character that neither starts nor cancels a sequence. -/
def Mode.next (character : Char) : Mode → Mode
  | .ground => .ground
  | .escape => modeAfterEscape character
  | .escapeIntermediate =>
      if isBetween 0x30 0x7e character then .ground else .escapeIntermediate
  | .control =>
      if isBetween 0x40 0x7e character then .ground else .control
  | .deviceEntry =>
      if isIntermediate character then .deviceIntermediate
      else if isBetween 0x30 0x3f character then .deviceParameter
      else if isBetween 0x40 0x7e character then .stringBody
      else .deviceEntry
  | .deviceParameter =>
      if isIntermediate character then .deviceIntermediate
      else if isBetween 0x3c 0x7e character then .stringBody
      else .deviceParameter
  | .deviceIntermediate =>
      if isBetween 0x30 0x7e character then .stringBody else .deviceIntermediate
  | .stringBody =>
      if containsTerminator character then .ground else .stringBody
  | .operatingCommand =>
      if character == '\x07' then .ground else .operatingCommand

/-- The mode after any character. -/
def Mode.step (mode : Mode) (character : Char) : Mode :=
  if character == escapeCharacter then .escape
  else if cancels character then .ground
  else mode.next character

/-- Whether a character is ASCII white space. -/
def isControlSpace (character : Char) : Bool :=
  character == '\t' || character == '\n' || character == '\x0c' || character == '\r'

/-- Whether a character met in a mode belongs to the plain text. -/
def Mode.keeps (mode : Mode) (character : Char) : Bool :=
  match mode with
  | .ground =>
      isControlSpace character || (0x20 ≤ character.toNat && character != '\x7f')
  | .escape | .escapeIntermediate | .control => isControlSpace character
  | .deviceEntry | .deviceParameter | .deviceIntermediate
  | .stringBody | .operatingCommand => false

/-- The plain text among characters that are met in a mode. -/
def plainFrom (mode : Mode) : List Char → List Char
  | [] => []
  | first :: rest =>
      if mode.keeps first then
        first :: plainFrom (mode.step first) rest
      else
        plainFrom (mode.step first) rest

/-- The text without control characters and escape sequences. -/
def plain (text : String) : String :=
  String.ofList (plainFrom .ground text.toList)

end Terminal

end ArenaLisp
