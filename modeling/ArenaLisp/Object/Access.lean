import ArenaLisp.Error

namespace ArenaLisp

/-!
# Access to the parts of an object

Each accessor answers for one kind of object and refuses every other kind with
an error that says what was asked and which kind was met.
-/

namespace Object

/-- The error for asking an object for something that its kind does not have. -/
def unsupported (object : Object) (request : String) : Error :=
  .unsupported request object.kind

/-- The first handle of a pair. -/
def car : Object → Except Error Handle
  | .pair car _ => .ok car
  | object => .error (object.unsupported "car")

/-- The second handle of a pair. -/
def cdr : Object → Except Error Handle
  | .pair _ cdr => .ok cdr
  | object => .error (object.unsupported "cdr")

/-- The value of an integer. -/
def integerValue : Object → Except Error Int64
  | .integer value => .ok value
  | object => .error (object.unsupported "integer value")

/-- The name of a symbol. -/
def symbolName : Object → Except Error String
  | .symbol name => .ok name
  | object => .error (object.unsupported "string value")

/-- The value of a boolean. -/
def booleanValue : Object → Except Error Bool
  | .boolean value => .ok value
  | object => .error (object.unsupported "bool value")

end Object

end ArenaLisp
