namespace ArenaLisp

/-!
# Handles

A handle names one slot of the arena by its number.  Handles are 32 bits wide,
so an arena of at most `Handle.bound` slots gives every slot a handle of its
own: there `Handle.ofIndex` and `Handle.index` are inverse to each other.
-/

/-- The number of an arena slot, as a 32-bit word. -/
structure Handle where
  word : UInt32
  deriving Repr, DecidableEq

namespace Handle

/-- How many different handles there are: two to the power of thirty-two. -/
def bound : Nat := 4294967296

/-- The slot number that a handle names. -/
def index (handle : Handle) : Nat :=
  handle.word.toNat

/-- The handle of a slot number, which is taken modulo `Handle.bound`. -/
def ofIndex (index : Nat) : Handle where
  word := UInt32.ofNat index

/-- Every handle names a slot number below the bound. -/
theorem index_lt_bound (handle : Handle) : handle.index < bound :=
  handle.word.toNat_lt

/-- A slot number below the bound is read back from its handle. -/
theorem index_ofIndex
    {index : Nat}
    (indexBelowBound : index < bound) :
    (ofIndex index).index = index :=
  UInt32.toNat_ofNat_of_lt' indexBelowBound

/-- A handle is rebuilt from the slot number it names. -/
@[simp]
theorem ofIndex_index (handle : Handle) : ofIndex handle.index = handle := by
  cases handle
  simp [ofIndex, index]

/-- Two handles of one slot number are the same handle. -/
theorem eq_of_index_eq
    {first second : Handle}
    (sameIndex : first.index = second.index) :
    first = second := by
  rw [← ofIndex_index first, sameIndex, ofIndex_index]

end Handle

end ArenaLisp
