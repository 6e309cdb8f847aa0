import ArenaLisp.Proofs.SlotTable

namespace ArenaLisp

/-!
# Reachability

Which occupied slots some handles reach, by following the handles that occupied
pairs hold.  Nothing is assumed of the heap: pairs may be cyclic and may hold
handles of empty slots, which are not followed.

`Heap.Keeps` is the frame condition of everything that may collect: what the
given handles reach stays in its slot with its contents.
-/

namespace Heap

/-- The occupied slots that some handles reach through occupied slots. -/
inductive Reaches (heap : Heap) (roots : List Handle) : Handle → Prop where
  | root
      {handle : Handle}
      (member : handle ∈ roots)
      (occupied : heap.isOccupied handle = true) :
      Reaches heap roots handle
  | step
      {parent child : Handle}
      {object : Object}
      (reached : Reaches heap roots parent)
      (found : heap.get? parent = some object)
      (held : child ∈ object.handles)
      (occupied : heap.isOccupied child = true) :
      Reaches heap roots child

namespace Reaches

variable {heap : Heap} {roots : List Handle}

theorem isOccupied
    {handle : Handle}
    (reached : heap.Reaches roots handle) :
    heap.isOccupied handle = true := by
  cases reached with
  | root _ occupied =>
      exact occupied
  | step _ _ _ occupied =>
      exact occupied

theorem exists_object
    {handle : Handle}
    (reached : heap.Reaches roots handle) :
    ∃ object, heap.get? handle = some object :=
  isOccupied_iff.mp reached.isOccupied

/-- More roots reach more. -/
theorem mono
    {others : List Handle}
    {handle : Handle}
    (more : ∀ root ∈ roots, heap.isOccupied root = true → heap.Reaches others root)
    (reached : heap.Reaches roots handle) :
    heap.Reaches others handle := by
  induction reached with
  | root member occupied =>
      exact more _ member occupied
  | step _ found held occupied inductionHypothesis =>
      exact .step inductionHypothesis found held occupied

theorem of_subset
    {others : List Handle}
    {handle : Handle}
    (more : ∀ root ∈ roots, root ∈ others)
    (reached : heap.Reaches roots handle) :
    heap.Reaches others handle :=
  reached.mono fun root member occupied => .root (more root member) occupied

/-- Reachability depends on nothing but the objects that are found on the way. -/
theorem transfer
    {other : Heap}
    {handle : Handle}
    (same : ∀ reached, heap.Reaches roots reached → other.get? reached = heap.get? reached)
    (reached : heap.Reaches roots handle) :
    other.Reaches roots handle := by
  induction reached with
  | @root handle member occupied =>
      refine .root member ?_
      rwa [isOccupied_congr (same handle (.root member occupied))]
  | @step parent child object reached found held occupied inductionHypothesis =>
      refine .step inductionHypothesis ((same parent reached).trans found) held ?_
      rwa [isOccupied_congr (same child (.step reached found held occupied))]

/-- What some roots reach is reached from one of them. -/
theorem exists_root
    {handle : Handle}
    (reached : heap.Reaches roots handle) :
    ∃ root ∈ roots, heap.Reaches [root] handle := by
  induction reached with
  | root member occupied =>
      exact ⟨_, member, .root (List.mem_singleton_self _) occupied⟩
  | step _ found held occupied inductionHypothesis =>
      obtain ⟨root, member, reached⟩ := inductionHypothesis
      exact ⟨root, member, .step reached found held occupied⟩

end Reaches

/-- What some handles reach is found unchanged in a later heap. -/
def Keeps (roots : List Handle) (before after : Heap) : Prop :=
  ∀ handle, before.Reaches roots handle → after.get? handle = before.get? handle

namespace Keeps

variable {before after final : Heap} {roots : List Handle}

theorem refl (roots : List Handle) (heap : Heap) : Keeps roots heap heap :=
  fun _ _ => rfl

theorem reaches
    (keeps : Keeps roots before after)
    {handle : Handle}
    (reached : before.Reaches roots handle) :
    after.Reaches roots handle :=
  reached.transfer keeps

theorem trans
    (first : Keeps roots before after)
    (second : Keeps roots after final) :
    Keeps roots before final := by
  intro handle reached
  exact (second handle (first.reaches reached)).trans (first handle reached)

theorem of_subset
    {fewer : List Handle}
    (keeps : Keeps roots before after)
    (subset : ∀ root ∈ fewer, root ∈ roots) :
    Keeps fewer before after :=
  fun handle reached => keeps handle (reached.of_subset subset)

theorem below
    {taken : List Handle}
    (keeps : Keeps (taken ++ roots) before after) :
    Keeps roots before after :=
  keeps.of_subset fun _ member => List.mem_append_right taken member

end Keeps

/-- Every handle that an occupied pair holds names an occupied slot. -/
def Closed (heap : Heap) : Prop :=
  ∀ parent object child,
    heap.get? parent = some object →
    child ∈ object.handles →
    heap.isOccupied child = true

theorem Closed.reaches_child
    {heap : Heap}
    {roots : List Handle}
    {parent child : Handle}
    {object : Object}
    (closed : heap.Closed)
    (reached : heap.Reaches roots parent)
    (found : heap.get? parent = some object)
    (held : child ∈ object.handles) :
    heap.Reaches roots child :=
  .step reached found held (closed parent object child found held)

/-- A pair that is reached leads to both of its parts. -/
theorem Closed.reaches_parts
    {heap : Heap}
    {roots : List Handle}
    {pair car cdr : Handle}
    (closed : heap.Closed)
    (reached : heap.Reaches roots pair)
    (found : heap.get? pair = some (.pair car cdr)) :
    heap.Reaches roots car ∧ heap.Reaches roots cdr :=
  ⟨closed.reaches_child reached found List.mem_cons_self,
    closed.reaches_child reached found (List.mem_cons_of_mem car List.mem_cons_self)⟩

/-- In a closed heap the roots reach nothing more once what they reach has been kept. -/
theorem Keeps.reaches_iff
    {before after : Heap}
    {roots : List Handle}
    (keeps : Keeps roots before after)
    (closed : before.Closed)
    (occupied : ∀ root ∈ roots, before.isOccupied root = true)
    (handle : Handle) :
    after.Reaches roots handle ↔ before.Reaches roots handle := by
  constructor
  · intro reached
    induction reached with
    | root member _ =>
        exact .root member (occupied _ member)
    | step _ found held _ inductionHypothesis =>
        exact closed.reaches_child inductionHypothesis
          ((keeps _ inductionHypothesis).symm.trans found) held
  · exact keeps.reaches

end Heap

end ArenaLisp
