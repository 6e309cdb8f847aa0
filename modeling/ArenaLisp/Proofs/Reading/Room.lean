import ArenaLisp.Proofs.Reading.Building

namespace ArenaLisp

/-!
# Room to read

Memory runs out only when every slot holds a reachable object.  A machine therefore has
room for another object as long as all that can be reached fits into fewer slots than
there are, however much garbage there is.  With room for as many objects as its tree is
made of, every text that can be read is read.
-/

namespace Machine

variable
  {operations : Operation → Prop}
  {machine after : Machine}
  {count : Nat}

/-- Whether a machine has slots for some more objects besides all that can be reached. -/
def HasRoomFor (machine : Machine) (count : Nat) : Prop :=
  ∃ held : List Handle,
    (∀ handle, machine.Reachable handle → handle ∈ held) ∧
      held.length + count ≤ machine.heap.capacity

namespace HasRoomFor

/-- All of a memory is room if nothing is bound and nothing lies on the stack. -/
theorem of_no_roots
    (noRoots : machine.roots = [])
    (fits : count ≤ machine.heap.capacity) :
    machine.HasRoomFor count := by
  refine ⟨[], fun handle reached => ?_, by simpa using fits⟩
  obtain ⟨root, member, _⟩ := reached.exists_root
  rw [noRoots] at member
  cases member

theorem of_le
    {fewer : Nat}
    (room : machine.HasRoomFor count)
    (atMost : fewer ≤ count) :
    machine.HasRoomFor fewer := by
  obtain ⟨held, holds, fits⟩ := room
  exact ⟨held, holds, by omega⟩

/-- A machine with room for one more object is not saturated: slots are counted by handles. -/
theorem not_saturated
    (room : machine.HasRoomFor (count + 1))
    (capacityBound : machine.heap.capacity ≤ Handle.bound) :
    ¬machine.Saturated := by
  intro saturated
  obtain ⟨held, holds, fits⟩ := room
  have distinct : ((List.range machine.heap.capacity).map Handle.ofIndex).Nodup := by
    refine List.nodup_range.map_on ?_
    intro first firstInside second secondInside same
    rw [List.mem_range] at firstInside secondInside
    rw [← Handle.index_ofIndex (Nat.lt_of_lt_of_le firstInside capacityBound), same,
      Handle.index_ofIndex (Nat.lt_of_lt_of_le secondInside capacityBound)]
  have allHeld : (List.range machine.heap.capacity).map Handle.ofIndex ⊆ held := by
    intro handle member
    obtain ⟨index, inside, rfl⟩ := List.mem_map.mp member
    exact holds _ (saturated index (List.mem_range.mp inside))
  have atMost := (distinct.subperm allHeld).length_le
  rw [List.length_map, List.length_range] at atMost
  omega

/-- An object that is placed and pushed takes one slot more, whatever became unreachable. -/
theorem pushed
    (room : machine.HasRoomFor (count + 1))
    (wellFormed : machine.WellFormed)
    {object : Object}
    {handle : Handle}
    (placed : Placed machine object handle after)
    (heldReachable : ∀ child ∈ object.handles, machine.Reachable child)
    (entries : ∀ entry ∈ after.stack.entries, entry ∈ machine.stack.entries) :
    (after.withEntries (handle :: after.stack.entries)).HasRoomFor count := by
  obtain ⟨held, holds, fits⟩ := room
  have reachedBefore :
      ∀ other,
        (after.withEntries (handle :: after.stack.entries)).Reachable other →
        other = handle ∨ machine.Reachable other := by
    intro other reached
    induction reached with
    | @root other member _ =>
        rcases mem_roots_iff.mp member with bound | entry
        · have boundBefore : other ∈ machine.environment.values :=
            placed.environment ▸ bound
          exact .inr (wellFormed.reachable_root (mem_roots_iff.mpr (.inl boundBefore)))
        · rcases List.mem_cons.mp entry with rfl | below
          · exact .inl rfl
          · exact .inr (wellFormed.reachable_root
              (mem_roots_iff.mpr (.inr (entries other below))))
    | @step parent child holder _ found holdsChild _ inductionHypothesis =>
        by_cases isNew : parent = handle
        · subst isNew
          have sameObject : object = holder :=
            Option.some.inj (placed.found.symm.trans found)
          exact .inr (heldReachable child (sameObject ▸ holdsChild))
        · rcases placed.only wellFormed.consistent.toCounted found with ⟨same, _⟩ | foundBefore
          · exact absurd same isNew
          · have parentReached := inductionHypothesis.resolve_left isNew
            exact .inr (wellFormed.closed.reaches_child parentReached foundBefore holdsChild)
  refine ⟨handle :: held, ?_, ?_⟩
  · intro other reached
    rcases reachedBefore other reached with rfl | before
    · exact List.mem_cons_self
    · exact List.mem_cons_of_mem handle (holds other before)
  · have sameCapacity :
        (after.withEntries (handle :: after.stack.entries)).heap.capacity =
          machine.heap.capacity :=
      placed.capacity
    rw [sameCapacity, List.length_cons]
    omega

/-- An allocation with room succeeds, and its leaf takes one slot once it is pushed. -/
theorem allocate
    (room : machine.HasRoomFor (count + 1))
    (wellFormed : machine.WellFormed)
    {object : Object}
    (noHandles : object.handles = []) :
    ∃ handle after,
      Machine.allocate object machine = (.ok handle, after) ∧
        (after.withEntries (handle :: after.stack.entries)).HasRoomFor count := by
  rcases allocate_cases wellFormed.consistent object with
    ⟨_, saturated⟩ | ⟨handle, after, succeeded, placed, sameEntries, _⟩
  · exact absurd saturated (room.not_saturated wellFormed.consistent.capacityBound)
  · refine ⟨handle, after, succeeded, room.pushed wellFormed placed ?_ ?_⟩
    · simp [noHandles]
    · exact fun entry member => sameEntries ▸ member

theorem consFromStack
    (room : machine.HasRoomFor (count + 1))
    (wellFormed : machine.WellFormed)
    {car cdr : Handle}
    {below : List Handle}
    (entries : machine.stack.entries = cdr :: car :: below) :
    ∃ handle after,
      Machine.consFromStack machine = (.ok handle, after) ∧
        (after.withEntries (handle :: after.stack.entries)).HasRoomFor count := by
  rcases consFromStack_cases wellFormed.consistent entries with
    ⟨_, saturated⟩ | ⟨handle, after, succeeded, placed, sameEntries, _⟩
  · exact absurd saturated (room.not_saturated wellFormed.consistent.capacityBound)
  · have onStack
        {child : Handle}
        (held : child ∈ (Object.pair car cdr).handles) :
        child ∈ machine.stack.entries := by
      rw [entries]
      simp only [Object.handles, List.mem_cons, List.not_mem_nil, or_false] at held
      rcases held with rfl | rfl <;> simp
    refine ⟨handle, after, succeeded, room.pushed wellFormed placed ?_ ?_⟩
    · exact fun child held => reachable_of_entries (wellFormed.reaches_entry (onStack held))
    · intro entry member
      rw [sameEntries] at member
      simp [entries, member]

end HasRoomFor

end Machine

namespace Reader

open Machine

variable
  {operations : Operation → Prop}
  {machine : Machine}
  {elements below : List Handle}

/-- One slot for each pair: what a pair is made of is reached from it. -/
theorem consPushed_succeeds
    (orderly : machine.Orderly operations)
    (entries : machine.stack.entries = elements ++ below)
    {tail : Handle}
    (occupied : machine.heap.isOccupied tail = true)
    {count : Nat}
    (room :
      (machine.withEntries (tail :: machine.stack.entries)).HasRoomFor
        (elements.length + count)) :
    ∃ handle after,
      consPushed elements.length tail machine = (.ok handle, after) ∧
        (after.withEntries (handle :: after.stack.entries)).HasRoomFor count := by
  induction elements generalizing machine tail with
  | nil =>
      rw [List.length_nil, Nat.zero_add] at room
      exact ⟨tail, machine, rfl, room⟩
  | cons element elements inductionHypothesis =>
      have pushedEntries :
          (machine.withEntries (tail :: machine.stack.entries)).stack.entries =
            tail :: element :: (elements ++ below) := by
        rw [entries_withEntries, entries]
        rfl
      have orderlyPushed := orderly.push occupied
      have roomForPair :
          (machine.withEntries (tail :: machine.stack.entries)).HasRoomFor
            (elements.length + count + 1) :=
        room.of_le (by simp only [List.length_cons]; omega)
      obtain ⟨pair, between, succeeded, roomBetween⟩ :=
        roomForPair.consFromStack orderlyPushed.toWellFormed pushedEntries
      have answers := consFromStack_answers orderlyPushed pushedEntries
      rw [succeeded] at answers
      obtain ⟨sameEntries, pairOccupied⟩ := answers.value pair rfl
      rw [List.length_cons, consPushed_succ, Transition.bind_apply, succeeded]
      exact inductionHypothesis answers.orderly sameEntries pairOccupied roomBetween

theorem closeList_succeeds
    (orderly : machine.Orderly operations)
    (entries : machine.stack.entries = elements ++ below)
    {count : Nat}
    (room : machine.HasRoomFor (elements.length + count + 1)) :
    ∃ handle after,
      closeList elements.length machine = (.ok handle, after) ∧
        (after.withEntries (handle :: after.stack.entries)).HasRoomFor count := by
  obtain ⟨empty, between, succeeded, roomBetween⟩ :=
    @HasRoomFor.allocate machine _ room orderly.toWellFormed .nil rfl
  have answers := @allocate_answers operations machine orderly .nil rfl rfl
  rw [succeeded] at answers
  obtain ⟨sameEntries, occupied⟩ := answers.value empty rfl
  rw [closeList, Transition.bind_apply, succeeded]
  exact consPushed_succeeds answers.orderly (sameEntries.trans entries) occupied roomBetween

/-- The number of objects that the elements of some open lists have been read into. -/
def openSize (opened : List (List Tree)) : Nat :=
  (opened.flatten.map Tree.size).sum

/-- The number of elements of each open list. -/
def openCounts (opened : List (List Tree)) : List Nat :=
  opened.map List.length

/--
Whether a read in progress completes its tree on every machine with room for what is
missing, above the elements that have been read.
-/
def CompletesIn
    (operations : Operation → Prop)
    (opened : List (List Tree))
    (text rest : List Char)
    (missing : Nat) :
    Prop :=
  ∀ machine : Machine,
    machine.Orderly operations →
    machine.HasRoomFor missing →
    (openCounts opened).sum ≤ machine.stack.size →
    ∃ handle after, reading (openCounts opened) text machine = (.ok (handle, ⟨rest⟩), after)

/-- Whether a read completes its tree once an object has been handed to the open lists. -/
def HandsOverIn
    (operations : Operation → Prop)
    (outer : List (List Tree))
    (remaining rest : List Char)
    (missing : Nat) :
    Prop :=
  ∀ (machine : Machine) handle,
    machine.Orderly operations →
    machine.heap.isOccupied handle = true →
    (machine.withEntries (handle :: machine.stack.entries)).HasRoomFor missing →
    (openCounts outer).sum ≤ machine.stack.size →
    ∃ result after,
      handOver (openCounts outer) remaining handle machine = (.ok (result, ⟨rest⟩), after)

section Steps

variable
  {text remaining rest : List Char}
  {tree : Tree}
  {missing : Nat}

/-- An object that is handed over is no longer missing. -/
theorem handOver_succeeds
    (later :
      ∀ opened,
        Reference.readOn opened remaining = .ok (tree, rest) →
        ∃ missing,
          tree.size = openSize opened + missing ∧
            CompletesIn operations opened remaining rest missing)
    {item : Tree}
    {outer : List (List Tree)}
    (delivered :
      (match Reference.deliver item outer with
        | .finished (.ok tree) => .ok (tree, remaining)
        | .finished (.error fault) => .error fault
        | .more opened => Reference.readOn opened remaining) = Except.ok (tree, rest)) :
    ∃ missing,
      tree.size = openSize outer + item.size + missing ∧
        HandsOverIn operations outer remaining rest missing := by
  cases outer with
  | nil =>
      cases delivered
      refine ⟨0, by simp [openSize], ?_⟩
      exact fun machine handle _ _ _ _ => ⟨handle, machine, rfl⟩
  | cons items outer =>
      obtain ⟨missing, total, completes⟩ := later _ delivered
      refine ⟨missing, ?_, ?_⟩
      · rw [total]
        simp only [openSize, List.flatten_cons, List.cons_append, List.map_cons, List.sum_cons]
        omega
      · intro machine handle orderly occupied room covered
        refine completes _ (orderly.push occupied) room ?_
        simp only [openCounts, List.map_cons, List.sum_cons, List.length_cons,
          OperandStack.size, OperandStack.push] at covered ⊢
        omega

theorem word_completes
    {characters : List Char}
    (found : Token.next? text = some (.word characters, remaining))
    {item : Tree}
    (isTree : Tree.ofWord characters = .ok item)
    {opened : List (List Tree)}
    (handsOver : HandsOverIn operations opened remaining rest missing) :
    item.size = 1 ∧ CompletesIn operations opened text rest (missing + 1) := by
  rcases Literal.object_ofWord characters with
    ⟨object, leaf, isObject, isLeaf, stored⟩ | ⟨fault, _, unreadable⟩
  · rw [isTree] at isLeaf
    cases isLeaf
    refine ⟨Tree.size_of_leafObject? stored, fun machine orderly room covered => ?_⟩
    have places : placeWord characters = allocate object := by
      rw [placeWord, isObject]
    obtain ⟨handle, between, placed, roomBetween⟩ :=
      room.allocate orderly.toWellFormed (Literal.object_leaf isObject).1
    rw [← places] at placed
    have answers := placeWord_answers orderly placed
    obtain ⟨entries, occupied⟩ := answers.value handle rfl
    rw [reading_word found, Transition.bind_apply, placed]
    refine handsOver between handle answers.orderly occupied roomBetween ?_
    rwa [OperandStack.size, entries]
  · rw [isTree] at unreadable
    cases unreadable

theorem closing_completes
    (found : Token.next? text = some (.closing, remaining))
    {outer : List (List Tree)}
    (handsOver : HandsOverIn operations outer remaining rest missing)
    (items : List Tree) :
    CompletesIn operations (items :: outer) text rest (items.length + missing + 1) := by
  intro machine orderly room covered
  have split := (List.take_append_drop items.length machine.stack.entries).symm
  simp only [openCounts, List.map_cons, List.sum_cons, OperandStack.size] at covered
  have taken : (machine.stack.entries.take items.length).length = items.length :=
    List.length_take_of_le (by omega)
  have answers := closeList_answers orderly split
  rw [← taken] at room
  obtain ⟨handle, between, closed, roomBetween⟩ := closeList_succeeds orderly split room
  rw [taken] at answers closed
  rw [closed] at answers
  obtain ⟨entries, occupied⟩ := answers.value handle rfl
  have coveredBelow : (openCounts outer).sum ≤ between.stack.size := by
    rw [OperandStack.size, entries, List.length_drop, openCounts]
    omega
  have goesOn := @reading_closed text remaining items.length (openCounts outer) found machine
  rw [Transition.bind_apply, closed] at goesOn
  rw [openCounts, List.map_cons, ← openCounts, goesOn]
  exact handsOver between handle answers.orderly occupied roomBetween coveredBelow

end Steps

/--
A read in progress, by induction on the text.  A list that is closed takes a pair for
each element and nil, and then counts as one element.
-/
theorem reading_succeeds
    {opened : List (List Tree)}
    {text rest : List Char}
    {tree : Tree}
    (isRead : Reference.readOn opened text = .ok (tree, rest)) :
    ∃ missing,
      tree.size = openSize opened + missing ∧ CompletesIn operations opened text rest missing := by
  induction size : text.length using Nat.strongRecOn generalizing opened text with
  | ind size inductionHypothesis =>
      subst size
      cases found : Token.next? text with
      | none =>
          rw [Reference.readOn_none found] at isRead
          cases isRead
      | some step =>
          obtain ⟨token, remaining⟩ := step
          have shorter := Token.length_lt_of_next? found
          have later
              (opened : List (List Tree))
              (isRead : Reference.readOn opened remaining = .ok (tree, rest)) :=
            inductionHypothesis _ shorter isRead rfl
          rw [Reference.readOn_some found] at isRead
          cases token with
          | opening =>
              obtain ⟨missing, total, completes⟩ := later _ isRead
              refine ⟨missing, total, fun machine orderly room covered => ?_⟩
              rw [reading_opening found]
              exact completes machine orderly room (by simpa [openCounts] using covered)
          | closing =>
              cases opened with
              | nil =>
                  cases isRead
              | cons items outer =>
                  obtain ⟨missing, total, handsOver⟩ := handOver_succeeds later isRead
                  refine ⟨items.length + missing + 1, ?_, closing_completes found handsOver items⟩
                  rw [total, Tree.size_list]
                  simp only [openSize, List.flatten_cons, List.map_append, List.sum_append,
                    List.map_reverse, List.sum_reverse, List.length_reverse]
                  omega
          | word characters =>
              cases isTree : Tree.ofWord characters with
              | error fault =>
                  rw [Reference.advance, isTree] at isRead
                  cases isRead
              | ok item =>
                  rw [Reference.advance, isTree] at isRead
                  obtain ⟨missing, total, handsOver⟩ := handOver_succeeds later isRead
                  obtain ⟨isLeaf, completes⟩ := word_completes found isTree handsOver
                  refine ⟨missing + 1, ?_, completes⟩
                  omega

/--
A text that can be read is read, on every orderly machine that has room for as many
objects as its tree is made of.
-/
theorem read_succeeds
    (orderly : machine.Orderly operations)
    {reader : Reader}
    {tree : Tree}
    {rest : List Char}
    (isRead : Reference.readNext reader.text = .ok (some (tree, rest)))
    (room : machine.HasRoomFor tree.size) :
    ∃ handle after,
      reader.read machine = ((.ok (some handle), ⟨rest⟩), after) ∧
        after.heap.Unfolds handle tree := by
  obtain ⟨notEmpty, readOn⟩ := Reference.readOn_of_readNext_some isRead
  obtain ⟨missing, total, completes⟩ := @reading_succeeds operations _ _ _ _ readOn
  have noneOpen : openSize [] = 0 :=
    rfl
  obtain ⟨handle, after, answered⟩ :=
    completes machine orderly (room.of_le (by omega)) (Nat.zero_le _)
  have next : reader.nextExpression machine = (.ok (some (handle, ⟨rest⟩)), after) := by
    have noCounts : openCounts [] = [] :=
      rfl
    rw [nextExpression_eq notEmpty, ← noCounts, answered]
  have delivers := (reader.read_delivers orderly).2
  rw [isRead] at delivers
  rw [nextExpression] at next
  split at next
  · rename_i answer
    cases next
    rw [answer] at delivers
    cases delivers with
    | object unfolds =>
        exact ⟨_, _, answer, unfolds⟩
  · cases next
  · cases next

/-- What a read leaves behind is garbage: there is as much room after it as before. -/
theorem read_hasRoomFor
    (orderly : machine.Orderly operations)
    {count : Nat}
    (room : machine.HasRoomFor count)
    (reader : Reader) :
    (reader.read machine).2.HasRoomFor count := by
  have holds := (reader.read_delivers orderly).1
  have same := holds.allocates.sameSurroundings orderly.tame
  have sameRoots : (reader.read machine).2.roots = machine.roots := by
    rw [roots, roots, same.environment, OperandStack.bottomUp, OperandStack.bottomUp,
      holds.entries]
  have keeps : Heap.Keeps machine.roots machine.heap (reader.read machine).2.heap := by
    intro handle reached
    obtain ⟨root, member, reachedFromRoot⟩ := reached.exists_root
    have fromAll
        {others : List Handle}
        (inOthers : root ∈ others) :
        machine.heap.Reaches others handle :=
      reachedFromRoot.of_subset fun _ isRoot => List.mem_singleton.mp isRoot ▸ inOthers
    rcases mem_roots_iff.mp member with bound | entry
    · exact same.keepsBound handle (fromAll bound)
    · exact holds.keeps handle (fromAll entry)
  obtain ⟨held, holdsReachable, fits⟩ := room
  refine ⟨held, fun handle reached => holdsReachable handle ?_, same.capacity ▸ fits⟩
  exact orderly.toWellFormed.reachable_of_keeps sameRoots keeps reached

end Reader

end ArenaLisp
