import ArenaLisp.Builtin.Basic
import ArenaLisp.Machine.Allocation

namespace ArenaLisp

/-!
# Creating a machine

A new machine has every builtin operation installed, in their order.  An arena
that is too small for them cannot be made into a machine.
-/

/-- What can be chosen when a machine is created. -/
structure Configuration where
  /-- The number of slots. -/
  capacity : Nat
  /-- The number of objects at which the first collection is due. -/
  initialThreshold : Nat
  /-- Whether a definition evaluates the expression that it binds. -/
  eagerDefinitions : Bool
  deriving Repr, DecidableEq

namespace Configuration

/-- The configuration of a machine for which nothing is chosen. -/
def standard : Configuration where
  capacity := Heap.defaultCapacity
  initialThreshold := Heap.defaultThreshold
  eagerDefinitions := false

end Configuration

namespace Machine

/-- Installs every builtin operation. -/
def installBuiltins : Action Unit :=
  Builtin.all.forM fun builtin => do
    let _ ← install builtin.callable

/-- The installation of the builtin operations on a blank machine, and how it ended. -/
def start (configuration : Configuration) : Except Error Unit × Machine :=
  installBuiltins
    (blank configuration.capacity configuration.initialThreshold
      configuration.eagerDefinitions)

/-- A machine that has only the builtin operations. -/
def create (configuration : Configuration) : Except Error Machine :=
  match start configuration with
  | (.ok (), machine) => .ok machine
  | (.error error, _) => .error error

end Machine

end ArenaLisp
