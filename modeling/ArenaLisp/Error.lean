import ArenaLisp.Object.Basic

namespace ArenaLisp

/-!
# Errors

Every error names its cause; the wording is in one function for each type.
`Error.isFatal` separates the two ways an error is handled: a fatal error ends
the evaluation that met it, any other is recorded and replaced by a fresh void.
-/

/-- Why a text cannot be read. -/
inductive ReadFault where
  | unexpectedClose
  | unterminatedList
  | unexpectedEnd
  | integerOutOfRange (word : String)
  /-- A fault reported by a custom operation in words of its own. -/
  | other (description : String)
  deriving Repr, DecidableEq

/-- The wording of a reading fault. -/
def ReadFault.message : ReadFault → String
  | .unexpectedClose => "unexpected ')'"
  | .unterminatedList => "unterminated list"
  | .unexpectedEnd => "unexpected EOF"
  | .integerOutOfRange word => "integer out of range: " ++ word
  | .other description => description

/-- How the bookkeeping of a machine can be broken. -/
inductive InternalFault where
  /-- A handle of an empty slot was followed. -/
  | danglingHandle (handle : Handle)
  /-- An evaluation left the operand stack with a different number of entries. -/
  | unbalancedStack (entries expected : Nat)
  /-- A fault reported by a custom operation in words of its own. -/
  | other (description : String)
  deriving Repr, DecidableEq

/-- The wording of a bookkeeping fault. -/
def InternalFault.message : InternalFault → String
  | .danglingHandle handle =>
      "dangling handle ObjId(" ++ toString handle.index ++ ")"
  | .unbalancedStack entries expected =>
      "operand stack unbalanced: " ++ toString entries ++
        " entries, expected " ++ toString expected
  | .other description => description

/-- The causes for which an operation of the machine fails. -/
inductive Error where
  /-- An entry was taken from an empty operand stack. -/
  | stackUnderflow
  /-- A slot that holds no object was to be emptied. -/
  | doubleFree (handle : Handle)
  /-- No slot is free even after a collection. -/
  | outOfMemory
  /-- An object of the wrong kind was asked for something. -/
  | unsupported (request : String) (kind : Kind)
  /-- A callable was given a number of operands that it does not accept. -/
  | arityMismatch (callable : String) (expected : String) (given : Nat)
  /-- A symbol without a binding was evaluated. -/
  | unboundVariable (name : String)
  /-- A chain of operands ends in something other than nil or void. -/
  | malformedList
  /-- A text cannot be read. -/
  | unreadable (fault : ReadFault)
  /-- The bookkeeping of the machine is broken. -/
  | internal (fault : InternalFault)
  deriving Repr, DecidableEq

namespace Error

/-- The wording of an error. -/
def message : Error → String
  | .stackUnderflow => "stack underflow"
  | .doubleFree handle => "double free of slot " ++ toString handle.index
  | .outOfMemory => "out of memory"
  | .unsupported request kind => kind.label ++ " does not have " ++ request
  | .arityMismatch callable expected given =>
      callable ++ " expects " ++ expected ++ " argument(s), got " ++ toString given
  | .unboundVariable name => "variable " ++ name ++ " not found"
  | .malformedList => "malformed argument list"
  | .unreadable fault => "read error: " ++ fault.message
  | .internal fault => "internal error: " ++ fault.message

/-- Whether an error ends the evaluation that met it. -/
def isFatal : Error → Bool
  | .stackUnderflow | .doubleFree _ | .outOfMemory | .internal _ => true
  | .unsupported _ _ | .arityMismatch _ _ _ | .unboundVariable _
  | .malformedList | .unreadable _ => false

end Error

end ArenaLisp
