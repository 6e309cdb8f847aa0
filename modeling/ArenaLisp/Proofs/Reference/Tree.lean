import ArenaLisp.Heap.Rendering
import ArenaLisp.Proofs.StrictAnswers
import Mathlib.Algebra.GroupWithZero.Nat

namespace ArenaLisp

/-!
# Trees

Values without a memory: a pair is its two parts, and a builtin operation is
itself.  What the operations ask of an object has its counterpart for trees.
-/

inductive Tree where
  | nil
  | void
  | integer (value : Int64)
  | boolean (value : Bool)
  | symbol (name : String)
  | pair (car cdr : Tree)
  | builtin (operation : Builtin)
  deriving Repr, DecidableEq

namespace Tree

def kind : Tree → Kind
  | .nil => .nil
  | .void => .void
  | .integer _ => .integer
  | .boolean _ => .boolean
  | .symbol _ => .symbol
  | .pair _ _ => .pair
  | .builtin operation => if operation.evaluatesOperands then .function else .specialForm

/-- What a strict operation sees of a tree. -/
def view : Tree → View Tree
  | .integer value => .integer value
  | .pair car cdr => .pair car cdr
  | tree => .other tree.kind

def symbolName : Tree → Except Error String
  | .symbol name => .ok name
  | tree => .error (.unsupported "string value" tree.kind)

def isListEnd : Tree → Bool
  | .nil | .void => true
  | _ => false

def isTruthy : Tree → Bool
  | .boolean false | .nil | .void => false
  | _ => true

/-- Whether a chain of pairs ends in nil or void. -/
def isProper : Tree → Bool
  | .pair _ cdr => cdr.isProper
  | tree => tree.isListEnd

/-- The elements of a chain of pairs, whatever it ends in. -/
def items : Tree → List Tree
  | .pair car cdr => car :: cdr.items
  | _ => []

/-- The list of some trees. -/
def list (items : List Tree) : Tree :=
  items.foldr .pair .nil

/-- The number of pairs that lie in each other. -/
def height : Tree → Nat
  | .pair car cdr => max car.height cdr.height + 1
  | _ => 0

/-- The number of objects that a tree is read into. -/
def size : Tree → Nat
  | .pair car cdr => car.size + cdr.size + 1
  | _ => 1

/-- The object that a tree without parts is stored as. -/
def leafObject? : Tree → Option Object
  | .nil => some .nil
  | .void => some .void
  | .integer value => some (.integer value)
  | .boolean value => some (.boolean value)
  | .symbol name => some (.symbol name)
  | .pair _ _ => none
  | .builtin operation => some operation.callable.toObject

theorem height_lt_of_mem_items
    {chain item : Tree}
    (member : item ∈ chain.items) :
    item.height < chain.height := by
  induction chain with
  | pair car cdr _ inductionHypothesis =>
      simp only [items, List.mem_cons] at member
      simp only [height]
      rcases member with rfl | later
      · omega
      · have lower := inductionHypothesis later
        omega
  | nil | void | integer | boolean | symbol | builtin =>
      simp [items] at member

theorem items_list (items : List Tree) : (list items).items = items := by
  induction items with
  | nil =>
      rfl
  | cons item items inductionHypothesis =>
      exact congrArg (item :: ·) inductionHypothesis

/-- A list takes one pair for each item, and nil. -/
theorem size_list (items : List Tree) :
    (list items).size = (items.map size).sum + items.length + 1 := by
  induction items with
  | nil =>
      rfl
  | cons item items inductionHypothesis =>
      have unfolded : (list (item :: items)).size = item.size + (list items).size + 1 :=
        rfl
      rw [unfolded, inductionHypothesis, List.map_cons, List.sum_cons, List.length_cons]
      omega

theorem leafObject?_ne_pair
    (tree : Tree)
    {car cdr : Handle} :
    tree.leafObject? ≠ some (.pair car cdr) := by
  cases tree with
  | builtin operation =>
      cases operation <;> simp [leafObject?, Builtin.callable, Callable.toObject,
        Builtin.evaluatesOperands]
  | _ =>
      simp [leafObject?]

/-- The tree that an object without parts stands for. -/
def ofLeaf? : Object → Option Tree
  | .nil => some .nil
  | .void => some .void
  | .integer value => some (.integer value)
  | .boolean value => some (.boolean value)
  | .symbol name => some (.symbol name)
  | .function _ (.builtin operation) | .specialForm _ (.builtin operation) =>
      some (.builtin operation)
  | _ => none

theorem ofLeaf?_of_leafObject?
    {tree : Tree}
    {object : Object}
    (stored : tree.leafObject? = some object) :
    ofLeaf? object = some tree := by
  cases tree with
  | pair car cdr =>
      simp [leafObject?] at stored
  | builtin operation =>
      cases stored
      cases operation <;> rfl
  | _ =>
      cases stored
      rfl

/-- A tree without parts is determined by the object that it is stored as. -/
theorem leafObject?_injective
    {tree other : Tree}
    {object : Object}
    (stored : tree.leafObject? = some object)
    (otherStored : other.leafObject? = some object) :
    tree = other := by
  have sameTree := ofLeaf?_of_leafObject? stored
  rw [ofLeaf?_of_leafObject? otherStored, Option.some.injEq] at sameTree
  exact sameTree.symm

theorem height_of_leafObject?
    {tree : Tree}
    {object : Object}
    (stored : tree.leafObject? = some object) :
    tree.height = 0 := by
  cases tree <;> first | rfl | simp [leafObject?] at stored

theorem size_of_leafObject?
    {tree : Tree}
    {object : Object}
    (stored : tree.leafObject? = some object) :
    tree.size = 1 := by
  cases tree <;> first | rfl | simp [leafObject?] at stored

/-- The text of a tree, cut after as many levels as given. -/
def renderWithin : Nat → Tree → String
  | 0, _ => Heap.ellipsis
  | levels + 1, .pair car cdr =>
      "(" ++ Heap.stripParentheses (renderWithin levels car) ++
        " " ++ Heap.stripParentheses (renderWithin levels cdr) ++ ")"
  | _ + 1, .nil | _ + 1, .void => ""
  | _ + 1, .integer value => toString value.toInt
  | _ + 1, .boolean value => if value then "T" else "F"
  | _ + 1, .symbol name => name
  | _ + 1, .builtin operation => if operation.evaluatesOperands then "func" else "syntax"

def render (tree : Tree) : String :=
  renderWithin (Heap.renderingDepth + 1) tree

end Tree

end ArenaLisp
