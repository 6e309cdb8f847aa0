import ArenaLisp.Handle

namespace ArenaLisp

/-!
# Objects

An object is what one arena slot holds.  Pairs hold handles of other objects;
everything else stands for itself.  A callable carries the operation that runs
when it is called: one of the ten builtin operations, or a custom one that the
embedding program supplies under a key.
-/

/-- The operations that every machine starts with. -/
inductive Builtin where
  | add
  | subtract
  | multiply
  | equal
  | less
  | greater
  | car
  | cdr
  | conditional
  | definition
  deriving Repr, DecidableEq

/-- What runs when a callable is called. -/
inductive Operation where
  | builtin (builtin : Builtin)
  | custom (key : String)
  deriving Repr, DecidableEq

/-- The variants of objects, used to describe a mismatch. -/
inductive Kind where
  | nil
  | void
  | integer
  | boolean
  | pair
  | symbol
  | function
  | specialForm
  deriving Repr, DecidableEq

/-- The name of a kind in messages. -/
def Kind.label : Kind → String
  | .nil => "Nil"
  | .void => "Void"
  | .integer => "Integer"
  | .boolean => "Bool"
  | .pair => "Cons"
  | .symbol => "Symbol"
  | .function => "Function"
  | .specialForm => "Syntax"

/-- The contents of one arena slot. -/
inductive Object where
  | nil
  | void
  | integer (value : Int64)
  | boolean (value : Bool)
  | pair (car cdr : Handle)
  | symbol (name : String)
  /-- A callable whose operands are evaluated before the call. -/
  | function (name : String) (operation : Operation)
  /-- A callable that receives its operand expressions as they are. -/
  | specialForm (name : String) (operation : Operation)
  deriving Repr, DecidableEq

/-- The parts that functions and special forms share. -/
structure Callable where
  name : String
  operation : Operation
  /-- Whether operands are evaluated before the call. -/
  evaluatesOperands : Bool
  deriving Repr, DecidableEq

/-- The object that a callable is stored as. -/
def Callable.toObject (callable : Callable) : Object :=
  if callable.evaluatesOperands then
    .function callable.name callable.operation
  else
    .specialForm callable.name callable.operation

namespace Object

/-- The variant of an object. -/
def kind : Object → Kind
  | .nil => .nil
  | .void => .void
  | .integer _ => .integer
  | .boolean _ => .boolean
  | .pair _ _ => .pair
  | .symbol _ => .symbol
  | .function _ _ => .function
  | .specialForm _ _ => .specialForm

/-- The two handles that a pair holds: the edges that the collector follows. -/
def children? : Object → Option (Handle × Handle)
  | .pair car cdr => some (car, cdr)
  | _ => none

/-- The callable that a function or special form stores. -/
def callable? : Object → Option Callable
  | .function name operation => some ⟨name, operation, true⟩
  | .specialForm name operation => some ⟨name, operation, false⟩
  | _ => none

/-- Whether the object holds two handles. -/
def isPair (object : Object) : Bool :=
  object.children?.isSome

/-- Whether the object can stand at the head of a call. -/
def isCallable (object : Object) : Bool :=
  object.callable?.isSome

/-- Nil and void both end an operand list. -/
def isListEnd : Object → Bool
  | .nil | .void => true
  | _ => false

/-- Everything but false, nil and void counts as true in a conditional. -/
def isTruthy : Object → Bool
  | .boolean false | .nil | .void => false
  | _ => true

/-- A stored callable is found again. -/
@[simp]
theorem callable?_toObject (callable : Callable) :
    callable.toObject.callable? = some callable := by
  cases callable with
  | mk name operation evaluatesOperands =>
      cases evaluatesOperands <;> rfl

/-- Only a pair has children, namely its own two handles. -/
theorem children?_eq_some_iff
    {object : Object}
    {car cdr : Handle} :
    object.children? = some (car, cdr) ↔ object = .pair car cdr := by
  cases object <;> simp [children?]

end Object

end ArenaLisp
