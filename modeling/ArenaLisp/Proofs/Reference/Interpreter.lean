import ArenaLisp.Proofs.Reference.Tree

namespace ArenaLisp

/-!
# The reference interpreter

What a program means, without handles, operand stack or collections: expressions and
values are trees, and the environment is a function from names to trees.

An expression is evaluated by recursion on itself.  The operands of a call are handed
over with what their evaluation does, and the operation decides which of them it
evaluates.
-/

/-- Everything that an evaluation without memory can touch. -/
structure World where
  bindings : String → Option Tree
  /-- All recovered errors, the newest last. -/
  diagnostics : List Error
  eagerDefinitions : Bool

namespace World

def define (world : World) (name : String) (value : Tree) : World :=
  { world with
    bindings := fun other => if other = name then some value else world.bindings other }

/-- Records a recoverable error; a void takes the place of the value. -/
def recover (world : World) (error : Error) : Tree × World :=
  (.void, { world with diagnostics := world.diagnostics ++ [error] })

/-- The world in which every builtin operation is bound under its name. -/
def initial (eagerDefinitions : Bool) : World :=
  Builtin.all.foldl (fun world builtin => world.define builtin.name (.builtin builtin))
    { bindings := fun _ => none, diagnostics := [], eagerDefinitions := eagerDefinitions }

end World

namespace Reference

/-- An operand of a call: its expression, and what the evaluation of that does. -/
structure Operand where
  expression : Tree
  evaluate : World → Tree × World

/-- The value of a symbol: its tree as it is, or a void if it is unbound. -/
def evaluateSymbol (name : String) (world : World) : Tree × World :=
  match world.bindings name with
  | some value => (value, world)
  | none => world.recover (.unboundVariable name)

/-- Takes operands from left to right, each evaluated if asked. -/
def gather (evaluatesOperands : Bool) : List Operand → World → List Tree × World
  | [], world => ([], world)
  | operand :: rest, world =>
      let first :=
        if evaluatesOperands then operand.evaluate world else (operand.expression, world)
      let others := gather evaluatesOperands rest first.2
      (first.1 :: others.1, others.2)

/-- The answer of a strict operation to its operands, the first one first. -/
def strict (builtin : Builtin) (values : List Tree) : Except Error Tree :=
  match builtin.answer (values.reverse.map Tree.view) with
  | .error error => .error error
  | .ok (.integer value) => .ok (.integer value)
  | .ok (.boolean value) => .ok (.boolean value)
  | .ok (.part part) => .ok part

def conditional (operands : List Operand) (world : World) : Except Error Tree × World :=
  match operands with
  | [condition, consequent, otherwise] =>
      let outcome := condition.evaluate world
      let selected := if outcome.1.isTruthy then consequent else otherwise
      let value := selected.evaluate outcome.2
      (.ok value.1, value.2)
  | operands =>
      (.error (.arityMismatch Builtin.conditional.name "3" operands.length), world)

def definition (operands : List Operand) (world : World) : Except Error Tree × World :=
  match operands with
  | [name, expression] =>
      match name.expression.symbolName with
      | .error error => (.error error, world)
      | .ok name =>
          let value :=
            if world.eagerDefinitions then
              expression.evaluate world
            else
              (expression.expression, world)
          (.ok .void, value.2.define name value.1)
  | operands =>
      (.error (.arityMismatch Builtin.definition.name "2" operands.length), world)

/-- What an operation does with its operands and what has been gathered of them. -/
def perform
    (builtin : Builtin)
    (operands : List Operand)
    (values : List Tree)
    (world : World) :
    Except Error Tree × World :=
  match builtin with
  | .conditional => conditional operands world
  | .definition => definition operands world
  | _ => (strict builtin values, world)

/-- A failed operation records its error and answers with a void. -/
def recovering : Except Error Tree × World → Tree × World
  | (.ok value, world) => (value, world)
  | (.error error, world) => world.recover error

/-- Calls an operation on a chain of operands, which has to end in nil or void. -/
def call
    (builtin : Builtin)
    (operands : List Operand)
    (isProper : Bool)
    (world : World) :
    Tree × World :=
  let gathered := gather builtin.evaluatesOperands operands world
  if isProper then
    recovering (perform builtin operands gathered.1 gathered.2)
  else
    gathered.2.recover .malformedList

mutual

def evaluate : Tree → World → Tree × World
  | .symbol name, world => evaluateSymbol name world
  | .pair car cdr, world =>
      let head := evaluate car world
      match head.1 with
      | .builtin builtin => call builtin (operands cdr) cdr.isProper head.2
      | _ => (.pair car cdr, head.2)
  | tree, world => (tree, world)

/-- The operands that a chain of pairs holds. -/
def operands : Tree → List Operand
  | .pair car cdr => ⟨car, evaluate car⟩ :: operands cdr
  | _ => []

end

theorem evaluate_call
    {car cdr : Tree}
    {world : World}
    {builtin : Builtin}
    (isBuiltin : (evaluate car world).1 = .builtin builtin) :
    evaluate (.pair car cdr) world =
      call builtin (operands cdr) cdr.isProper (evaluate car world).2 := by
  simp only [evaluate, isBuiltin]

/-- A pair whose head is no operation is its own value. -/
theorem evaluate_self
    {car cdr : Tree}
    {world : World}
    (notBuiltin : ∀ operation, (evaluate car world).1 ≠ .builtin operation) :
    evaluate (.pair car cdr) world = (.pair car cdr, (evaluate car world).2) := by
  rw [evaluate]
  split
  · rename_i operation isBuiltin
    exact absurd isBuiltin (notBuiltin operation)
  · rfl

/-- An expression as an operand. -/
def Operand.ofExpression (expression : Tree) : Operand where
  expression := expression
  evaluate := Reference.evaluate expression

theorem conditional_eq
    (condition consequent otherwise : Tree)
    (world : World) :
    conditional ([condition, consequent, otherwise].map .ofExpression) world =
      let outcome := evaluate condition world
      let value := evaluate (if outcome.1.isTruthy then consequent else otherwise) outcome.2
      (.ok value.1, value.2) := by
  simp only [conditional, List.map_cons, List.map_nil, Operand.ofExpression]
  split <;> rfl

theorem conditional_refused
    {operands : List Operand}
    (mismatch : operands.length ≠ 3)
    (world : World) :
    conditional operands world =
      (.error (.arityMismatch Builtin.conditional.name "3" operands.length), world) := by
  unfold conditional
  split
  · exact absurd rfl mismatch
  · rfl

theorem definition_refused
    {operands : List Operand}
    (mismatch : operands.length ≠ 2)
    (world : World) :
    definition operands world =
      (.error (.arityMismatch Builtin.definition.name "2" operands.length), world) := by
  unfold definition
  split
  · exact absurd rfl mismatch
  · rfl

/-- The operands of a chain are the elements that it holds. -/
theorem operands_eq (chain : Tree) : operands chain = chain.items.map .ofExpression := by
  induction chain with
  | pair car cdr _ inductionHypothesis =>
      rw [operands, inductionHypothesis]
      rfl
  | nil | void | integer | boolean | symbol | builtin =>
      rfl

theorem gather_expressions
    (expressions : List Tree)
    (world : World) :
    gather false (expressions.map .ofExpression) world = (expressions, world) := by
  induction expressions with
  | nil =>
      rfl
  | cons first rest inductionHypothesis =>
      simp only [List.map_cons, gather, Bool.false_eq_true, ↓reduceIte, inductionHypothesis,
        Operand.ofExpression]

end Reference

end ArenaLisp
