import ArenaLisp.OperandStack
import ArenaLisp.Environment
import ArenaLisp.Heap.Basic
import ArenaLisp.Object.Access

namespace ArenaLisp

/-!
# The machine

A machine holds everything that an evaluation can touch: the heap, the two
kinds of roots (bindings and operand-stack entries), the recently recovered
errors, and a journal.  The journal lists what happened, event by event; nothing
but the journal itself ever depends on it.
-/

/-- What one collection did. -/
structure CollectionSummary where
  /-- How many collections there have been, this one included. -/
  number : Nat
  liveBefore : Nat
  freed : Nat
  remaining : Nat
  capacity : Nat
  /-- The number of occupied slots at which the next collection is due. -/
  nextThreshold : Nat
  deriving Repr, DecidableEq

/-- The wording of a collection summary. -/
def CollectionSummary.message (summary : CollectionSummary) : String :=
  "gc #" ++ toString summary.number ++ ": " ++
    toString summary.liveBefore ++ " live, " ++
    toString summary.freed ++ " freed, " ++
    toString summary.remaining ++ " remaining of " ++
    toString summary.capacity ++ ", next at " ++
    toString summary.nextThreshold

/-- What can happen on a machine. -/
inductive Event where
  /-- An object was placed in the slot of a handle. -/
  | placed (handle : Handle)
  /-- A name was bound to a handle. -/
  | bound (name : String) (value : Handle)
  /-- The evaluation of an expression began. -/
  | evaluating (expression : Handle)
  /-- A recoverable error was replaced by a void. -/
  | recovered (error : Error)
  /-- A collection was finished. -/
  | collected (summary : CollectionSummary)
  deriving Repr, DecidableEq

/-- The state of an interpreter. -/
structure Machine where
  heap : Heap
  environment : Environment
  stack : OperandStack
  /-- Whether a definition evaluates the expression that it binds. -/
  eagerDefinitions : Bool
  /-- The errors recovered since the diagnostics were last taken, the newest last. -/
  diagnostics : List Error
  /-- How many collections there have been. -/
  collections : Nat
  /-- What happened since the journal was last taken, the newest event first. -/
  journal : List Event
  deriving Repr, DecidableEq

/-- A step of a machine that always ends. -/
abbrev Action : Type → Type :=
  Transition Machine

namespace Machine

/-- A machine with an empty heap of the given size, no bindings and no history. -/
def blank (capacity initialThreshold : Nat) (eagerDefinitions : Bool) : Machine where
  heap := Heap.create capacity initialThreshold
  environment := Environment.empty
  stack := OperandStack.empty
  eagerDefinitions := eagerDefinitions
  diagnostics := []
  collections := 0
  journal := []

/-- The handles from which a collection starts: bindings, then the stack upwards. -/
def roots (machine : Machine) : List Handle :=
  machine.environment.values ++ machine.stack.bottomUp

/-- The machine with one more event in its journal. -/
def record (machine : Machine) (event : Event) : Machine :=
  { machine with journal := event :: machine.journal }

/-- Enters an event into the journal. -/
def note (event : Event) : Action Unit :=
  modify fun machine => machine.record event

/-- A step of the heap as a step of the machine. -/
def onHeap {Result : Type} (step : Transition Heap Result) : Action Result
  | ⟨heap, environment, stack, eagerDefinitions, diagnostics, collections, journal⟩ =>
      let (result, next) := step heap
      (result,
        ⟨next, environment, stack, eagerDefinitions, diagnostics, collections, journal⟩)

/-- A step of the operand stack as a step of the machine. -/
def onStack {Result : Type} (step : Transition OperandStack Result) : Action Result
  | ⟨heap, environment, stack, eagerDefinitions, diagnostics, collections, journal⟩ =>
      let (result, next) := step stack
      (result,
        ⟨heap, environment, next, eagerDefinitions, diagnostics, collections, journal⟩)

/-- A step of the heap changes no other part of the machine. -/
theorem onHeap_apply
    {Result : Type}
    (step : Transition Heap Result)
    (machine : Machine) :
    onHeap step machine =
      ((step machine.heap).1, { machine with heap := (step machine.heap).2 }) :=
  rfl

/-- A step of the operand stack changes no other part of the machine. -/
theorem onStack_apply
    {Result : Type}
    (step : Transition OperandStack Result)
    (machine : Machine) :
    onStack step machine =
      ((step machine.stack).1, { machine with stack := (step machine.stack).2 }) :=
  rfl

/-- Puts a handle on top of the operand stack. -/
def push (handle : Handle) : Action Unit :=
  modify fun machine => { machine with stack := machine.stack.push handle }

/-- Takes the top entry of the operand stack. -/
def pop : Action Handle :=
  onStack OperandStack.pop

/-- Takes entries of the operand stack one after the other. -/
def discard (count : Nat) : Action (Option Handle) :=
  onStack (OperandStack.discard count)

/-- Takes entries of the operand stack at once, the top entry first. -/
def popMany (count : Nat) : Action (List Handle) :=
  onStack (OperandStack.popMany count)

/-- The operand-stack entry the given number of places below the top. -/
def peek (depth : Nat) : Action Handle :=
  Transition.observe fun machine => machine.stack.peek depth

/-- The object that a handle names. -/
def object (machine : Machine) (handle : Handle) : Except Error Object :=
  match machine.heap.get? handle with
  | some object => .ok object
  | none => .error (.internal (.danglingHandle handle))

/-- Looks at the object that a handle names. -/
def look (handle : Handle) : Action Object :=
  Transition.observe fun machine => machine.object handle

/-- The integer that a handle names. -/
def lookInteger (handle : Handle) : Action Int64 := do
  (← look handle).integerValue

/-- Puts an object into the next free slot, without any collection. -/
def place (object : Object) : Action Handle := do
  let handle ← onHeap (Heap.place object)
  note (.placed handle)
  return handle

/-- Binds a name, whatever it was bound to. -/
def bindName (name : String) (value : Handle) : Action Unit := do
  modify fun machine =>
    { machine with environment := machine.environment.define name value }
  note (.bound name value)

end Machine

end ArenaLisp
