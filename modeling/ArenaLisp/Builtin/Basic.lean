import ArenaLisp.Object.Basic

namespace ArenaLisp

/-!
# The builtin operations

Each builtin operation has a name, under which it is bound when a machine is
created.  The conditional and the definition receive their operands
unevaluated; the operands of all others are evaluated first.
-/

namespace Builtin

/-- The builtin operations in the order in which they are installed. -/
def all : List Builtin :=
  [.add, .subtract, .multiply, .equal, .less, .greater, .car, .cdr, .conditional, .definition]

/-- The name that a builtin operation is bound under. -/
def name : Builtin → String
  | .add => "+"
  | .subtract => "-"
  | .multiply => "*"
  | .equal => "="
  | .less => "<"
  | .greater => ">"
  | .car => "car"
  | .cdr => "cdr"
  | .conditional => "if"
  | .definition => "define"

/-- Whether the operands are evaluated before the call. -/
def evaluatesOperands : Builtin → Bool
  | .conditional | .definition => false
  | .add | .subtract | .multiply | .equal | .less | .greater | .car | .cdr => true

/-- The callable that a builtin operation is installed as. -/
def callable (builtin : Builtin) : Callable where
  name := builtin.name
  operation := .builtin builtin
  evaluatesOperands := builtin.evaluatesOperands

/-- The builtin operation of a name. -/
def ofName? (name : String) : Option Builtin :=
  all.find? fun builtin => builtin.name == name

/-- The list of builtin operations leaves none out. -/
theorem mem_all (builtin : Builtin) : builtin ∈ all := by
  cases builtin <;> decide

/-- No builtin operation is listed twice. -/
theorem nodup_all : all.Nodup := by
  decide

/-- A builtin operation is found under its name, and only there. -/
theorem ofName?_name (builtin : Builtin) : ofName? builtin.name = some builtin := by
  cases builtin <;> decide

end Builtin

end ArenaLisp
