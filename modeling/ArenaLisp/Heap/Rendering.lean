import ArenaLisp.Heap.Basic
import ArenaLisp.Text.Blank

namespace ArenaLisp

/-!
# Rendering

A pair is rendered as the texts of its two sides in one pair of parentheses.
The parentheses inside those texts are removed and the texts are trimmed, so
nesting leaves no trace: the list of one and of the list of two and three reads
`(1 2 3)`.  Nil and void have no text of their own.

A pair may reach itself, so the text is cut below a fixed depth.
-/

namespace Heap

/-- The depth of the deepest objects that are rendered; the pair itself is at depth zero. -/
def renderingDepth : Nat := 1000

/-- Stands for everything below the rendering depth. -/
def ellipsis : String := "..."

/-- The text that an object has of its own; nil, void and pairs have none. -/
def leafText : Object → String
  | .nil | .void | .pair _ _ => ""
  | .integer value => toString value.toInt
  | .boolean true => "T"
  | .boolean false => "F"
  | .symbol name => name
  | .function _ _ => "func"
  | .specialForm _ _ => "syntax"

/-- The text of a handle whose slot is empty. -/
def freeText (handle : Handle) : String :=
  "#<free " ++ toString handle.index ++ ">"

/-- The text without its parentheses, trimmed. -/
def stripParentheses (text : String) : String :=
  String.ofList
    (Text.trim (text.toList.filter fun character => character != '(' && character != ')'))

/-- The text of what a handle names, cut after as many levels as given. -/
def renderWithin (heap : Heap) : Nat → Handle → String
  | 0, _ => ellipsis
  | levels + 1, handle =>
      match heap.get? handle with
      | none => freeText handle
      | some (.pair car cdr) =>
          "(" ++ stripParentheses (heap.renderWithin levels car) ++
            " " ++ stripParentheses (heap.renderWithin levels cdr) ++ ")"
      | some object => leafText object

/-- The text of what a handle names. -/
def render (heap : Heap) (handle : Handle) : String :=
  heap.renderWithin (renderingDepth + 1) handle

end Heap

end ArenaLisp
