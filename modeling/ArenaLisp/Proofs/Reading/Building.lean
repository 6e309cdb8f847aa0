import ArenaLisp.Proofs.ElementarySteps
import ArenaLisp.Proofs.ReadingSafety
import ArenaLisp.Proofs.Reference.Program
import ArenaLisp.Proofs.Reference.Unfolding

namespace ArenaLisp

/-!
# Reading builds trees

The elements of the lists that are open lie on the stack and unfold into the trees
that have been read so far.  They are never anywhere else, so the stack is all that
protects them from the collections that later elements cause.

Nothing is assumed of the machine but that it is orderly: neither what its callables
run, nor what its bindings unfold into.
-/

open Machine

/-- What a word stands for is a leaf, unless it cannot be read. -/
theorem Literal.object_ofWord (word : List Char) :
    (∃ object tree,
      Literal.object word = .ok object ∧
        Tree.ofWord word = .ok tree ∧
        tree.leafObject? = some object) ∨
      ∃ fault, Literal.object word = .error fault ∧ Tree.ofWord word = .error fault := by
  by_cases isInteger : Literal.isInteger word = true
  · cases isValue : Literal.integer? word with
    | some value =>
        refine .inl ⟨.integer value, .integer value, ?_, ?_, rfl⟩
        · simp [Literal.object, isInteger, isValue]
        · simp [Tree.ofWord, isInteger, isValue]
    | none =>
        refine .inr ⟨.integerOutOfRange (String.ofList word), ?_, ?_⟩
        · simp [Literal.object, isInteger, isValue]
        · simp [Tree.ofWord, isInteger, isValue]
  · refine .inl ⟨.symbol (String.ofList word), .symbol (String.ofList word), ?_, ?_, rfl⟩
    · simp [Literal.object, isInteger]
    · simp [Tree.ofWord, isInteger]

namespace Reader

/-- An answer to the entries below that unfolds into a tree, unless memory has run out. -/
structure Builds
    (operations : Operation → Prop)
    (before : Machine)
    (below : List Handle)
    (tree : Tree)
    (result : Except Error Handle)
    (after : Machine) :
    Prop where
  answers : Answers operations before.heap below result after
  allocates : AllocationSteps operations before after
  unfolds : ∀ handle, result = .ok handle → after.heap.Unfolds handle tree

variable
  {operations : Operation → Prop}
  {machine : Machine}
  {elements below : List Handle}

/-- The allocation of a leaf builds the tree that it stands for. -/
theorem allocate_builds
    (orderly : machine.Orderly operations)
    {object : Object}
    {tree : Tree}
    (noHandles : object.handles = [])
    (uncallable : object.callable? = none)
    (stored : tree.leafObject? = some object) :
    Builds operations machine machine.stack.entries tree
      (allocate object machine).1 (allocate object machine).2 where
  answers := allocate_answers orderly noHandles uncallable
  allocates := OnlyAllocates.allocate_uncallable uncallable machine orderly.tame
  unfolds := by
    intro handle answered
    rcases allocate_cases orderly.consistent object with
      ⟨failed, _⟩ | ⟨placedHandle, after, succeeded, placed, _, _⟩
    · rw [failed] at answered
      cases answered
    · rw [succeeded] at answered ⊢
      cases answered
      exact .leaf placed.found stored

/-- The replacement of two entries by their pair builds the pair of their trees. -/
theorem consFromStack_builds
    (orderly : machine.Orderly operations)
    {car cdr : Handle}
    (entries : machine.stack.entries = cdr :: car :: below)
    {carTree cdrTree : Tree}
    (carUnfolds : machine.heap.Unfolds car carTree)
    (cdrUnfolds : machine.heap.Unfolds cdr cdrTree) :
    Builds operations machine below (.pair carTree cdrTree)
      (consFromStack machine).1 (consFromStack machine).2 where
  answers := consFromStack_answers orderly entries
  allocates := OnlyAllocates.consFromStack machine orderly.tame
  unfolds := by
    intro handle answered
    rcases consFromStack_cases orderly.consistent entries with
      ⟨failed, _⟩ | ⟨placedHandle, after, succeeded, placed, _, _⟩
    · rw [failed] at answered
      cases answered
    · rw [succeeded] at answered ⊢
      cases answered
      have keeps := placed.keeps orderly.consistent.toCounted
      have reached
          {entry : Handle}
          (member : entry ∈ machine.stack.entries) :
          machine.Reachable entry :=
        reachable_of_entries (orderly.toWellFormed.reaches_entry member)
      exact .pair placed.found
        (carUnfolds.of_keeps keeps (reached (by simp [entries])))
        (cdrUnfolds.of_keeps keeps (reached (by simp [entries])))

/-- A list that is put together on the stack unfolds into the list of its trees. -/
theorem consPushed_builds
    (orderly : machine.Orderly operations)
    {trees : List Tree}
    {tail : Handle}
    {tailTree : Tree}
    (entries : machine.stack.entries = elements ++ below)
    (allUnfold : List.Forall₂ machine.heap.Unfolds elements trees)
    (tailUnfolds : machine.heap.Unfolds tail tailTree) :
    Builds operations machine below (trees.foldl (fun rest tree => .pair tree rest) tailTree)
      (consPushed elements.length tail machine).1
      (consPushed elements.length tail machine).2 := by
  obtain ⟨tailObject, tailFound⟩ := tailUnfolds.exists_object
  have tailOccupied := Heap.isOccupied_of_get? tailFound
  induction elements generalizing machine trees tail tailTree tailObject with
  | nil =>
      cases allUnfold
      refine ⟨consPushed_answers orderly entries tailOccupied, Relation.ReflTransGen.refl, ?_⟩
      rintro _ ⟨⟩
      exact tailUnfolds
  | cons element elements inductionHypothesis =>
      obtain ⟨tree, trees, elementUnfolds, restUnfold, rfl⟩ :=
        List.forall₂_cons_left_iff.mp allUnfold
      have pushes : AllocationSteps operations machine
          (machine.withEntries (tail :: machine.stack.entries)) :=
        Relation.ReflTransGen.single (.entries machine _)
      have pushedEntries :
          (machine.withEntries (tail :: machine.stack.entries)).stack.entries =
            tail :: element :: (elements ++ below) := by
        rw [entries_withEntries, entries]
        rfl
      have builds :=
        consFromStack_builds (orderly.push tailOccupied) pushedEntries elementUnfolds tailUnfolds
      rw [List.length_cons, consPushed_succ, Transition.bind_apply]
      generalize consFromStack (machine.withEntries (tail :: machine.stack.entries)) = consed
        at builds ⊢
      obtain ⟨result, between⟩ := consed
      obtain ⟨answers, allocates, unfolds⟩ := builds
      cases result with
      | error error =>
          exact ⟨answers.failure_below, pushes.trans allocates, by rintro _ ⟨⟩⟩
      | ok pair =>
          have pairUnfolds := unfolds pair rfl
          obtain ⟨pairObject, pairFound⟩ := pairUnfolds.exists_object
          have restStill := Heap.Unfolds.all_of_keeps restUnfold answers.keeps fun _ member =>
            List.mem_append_left below member
          have rest :=
            inductionHypothesis answers.orderly (answers.value pair rfl).1 restStill pairUnfolds
              pairObject pairFound (Heap.isOccupied_of_get? pairFound)
          exact ⟨rest.answers.after_keeps answers.keeps.below,
            (pushes.trans allocates).trans rest.allocates, rest.unfolds⟩

theorem closeList_builds
    (orderly : machine.Orderly operations)
    {items : List Tree}
    (entries : machine.stack.entries = elements ++ below)
    (allUnfold : List.Forall₂ machine.heap.Unfolds elements items) :
    Builds operations machine below (.list items.reverse)
      (closeList elements.length machine).1 (closeList elements.length machine).2 := by
  have builds := @allocate_builds operations machine orderly .nil .nil rfl rfl rfl
  rw [entries] at builds
  rw [closeList, Transition.bind_apply]
  generalize allocate .nil machine = allocated at builds ⊢
  obtain ⟨result, between⟩ := allocated
  obtain ⟨answers, allocates, unfolds⟩ := builds
  cases result with
  | error error =>
      exact ⟨answers.failure_below, allocates, by rintro _ ⟨⟩⟩
  | ok empty =>
      have still := Heap.Unfolds.all_of_keeps allUnfold answers.keeps fun _ member =>
        List.mem_append_left below member
      have rest :=
        consPushed_builds answers.orderly (answers.value empty rfl).1 still (unfolds empty rfl)
      rw [Tree.list, List.foldr_reverse]
      exact ⟨rest.answers.after_keeps answers.keeps.below, allocates.trans rest.allocates,
        rest.unfolds⟩

/--
A read in progress: above the entries that were there at its start lie the elements
of the open lists, and they unfold into what has been read of these.
-/
structure Holds
    (operations : Operation → Prop)
    (start : Machine)
    (opened : List (List Tree))
    (machine : Machine) :
    Prop where
  orderly : machine.Orderly operations
  allocates : AllocationSteps operations start machine
  keeps : Heap.Keeps start.stack.entries start.heap machine.heap
  elements :
    ∃ elements,
      machine.stack.entries = elements ++ start.stack.entries ∧
        List.Forall₂ machine.heap.Unfolds elements opened.flatten

theorem Holds.start
    (orderly : machine.Orderly operations) :
    Holds operations machine [] machine :=
  ⟨orderly, Relation.ReflTransGen.refl, .refl _ _, [], rfl, .nil⟩

/-- What has been read is a tree above a stack that is as it was. -/
def Completes
    (operations : Operation → Prop)
    (start : Machine)
    (tree : Tree)
    (handle : Handle)
    (after : Machine) :
    Prop :=
  Holds operations start [] after ∧ after.heap.Unfolds handle tree

/-- The entries that were there at the start are still there, with all that they reach. -/
structure StaysAbove (operations : Operation → Prop) (start after : Machine) : Prop where
  orderly : after.Orderly operations
  allocates : AllocationSteps operations start after
  keeps : Heap.Keeps start.stack.entries start.heap after.heap
  entries : start.stack.entries <:+ after.stack.entries

theorem Holds.staysAbove
    {start : Machine}
    {opened : List (List Tree)}
    (holds : Holds operations start opened machine) :
    StaysAbove operations start machine := by
  obtain ⟨elements, entries, _⟩ := holds.elements
  exact ⟨holds.orderly, holds.allocates, holds.keeps, elements, entries.symm⟩

/-- What a token has done to a read against what it has done to a reading. -/
inductive Advances (operations : Operation → Prop) (start : Machine) :
    Reference.Reading → Progress → Prop where
  | exhausted
      (reading : Reference.Reading)
      {after : Machine}
      (staysAbove : StaysAbove operations start after) :
      Advances operations start reading (.finished (.error .outOfMemory) after)
  | more
      {opened : List (List Tree)}
      {after : Machine}
      (holds : Holds operations start opened after) :
      Advances operations start (.more opened) (.more (opened.map List.length) after)
  | complete
      {tree : Tree}
      {handle : Handle}
      {after : Machine}
      (completes : Completes operations start tree handle after) :
      Advances operations start (.finished (.ok tree)) (.finished (.ok handle) after)
  | unreadable
      {fault : ReadFault}
      {opened : List (List Tree)}
      {after : Machine}
      (holds : Holds operations start opened after) :
      Advances operations start (.finished (.error fault))
        (.finished (.error (.unreadable fault)) after)
  | misplaced
      {opened : List (List Tree)}
      {after : Machine}
      (holds : Holds operations start opened after) :
      Advances operations start (.finished (.error .unexpectedClose)) (.misplaced after)

variable {start : Machine}

/-- What is built above the elements of the outer lists is delivered to these. -/
theorem deliver_advances
    (allocates : AllocationSteps operations start machine)
    (keeps : Heap.Keeps start.stack.entries start.heap machine.heap)
    {produce : Action Handle}
    {opened : List (List Tree)}
    {tree : Tree}
    (allUnfold : List.Forall₂ machine.heap.Unfolds elements opened.flatten)
    (builds :
      Builds operations machine (elements ++ start.stack.entries) tree
        (produce machine).1 (produce machine).2) :
    Advances operations start (Reference.deliver tree opened)
      (deliver produce (opened.map List.length) machine) := by
  unfold deliver
  generalize produce machine = produced at builds ⊢
  obtain ⟨result, after⟩ := produced
  obtain ⟨answers, allocatesLater, unfolds⟩ := builds
  have allocatesAll := allocates.trans allocatesLater
  have keepsAll := keeps.trans answers.keeps.below
  cases result with
  | error error =>
      obtain ⟨rfl, still⟩ := answers.failure error rfl
      exact .exhausted _ ⟨answers.orderly, allocatesAll, keepsAll,
        (List.suffix_append elements start.stack.entries).trans still⟩
  | ok handle =>
      obtain ⟨entries, occupied⟩ := answers.value handle rfl
      have handleUnfolds := unfolds handle rfl
      have still := Heap.Unfolds.all_of_keeps allUnfold answers.keeps fun _ member =>
        List.mem_append_left start.stack.entries member
      cases opened with
      | nil =>
          exact .complete
            ⟨⟨answers.orderly, allocatesAll, keepsAll, elements, entries, still⟩, handleUnfolds⟩
      | cons items outer =>
          have pushes : AllocationSteps operations after
              (after.withEntries (handle :: after.stack.entries)) :=
            Relation.ReflTransGen.single (.entries after _)
          have holds :
              Holds operations start ((tree :: items) :: outer)
                (after.withEntries (handle :: after.stack.entries)) := by
            refine ⟨answers.orderly.push occupied, allocatesAll.trans pushes, keepsAll,
              handle :: elements, ?_, .cons handleUnfolds still⟩
            rw [entries_withEntries, entries]
            rfl
          exact .more holds

theorem advance_advances
    (token : Token)
    {opened : List (List Tree)}
    (holds : Holds operations start opened machine) :
    Advances operations start (Reference.advance token opened)
      (advance token (opened.map List.length) machine) := by
  have ⟨orderly, allocates, keeps, elements, entries, allUnfold⟩ := holds
  cases token with
  | opening =>
      exact .more ⟨orderly, allocates, keeps, elements, entries, allUnfold⟩
  | closing =>
      cases opened with
      | nil =>
          exact .misplaced holds
      | cons items outer =>
          -- The elements of the list that is closed lie above those of the outer lists.
          rw [List.flatten_cons] at allUnfold
          have ownUnfold := List.forall₂_take_append _ _ _ allUnfold
          have othersUnfold := List.forall₂_drop_append _ _ _ allUnfold
          rw [← List.take_append_drop items.length elements, List.append_assoc] at entries
          have builds := closeList_builds orderly entries ownUnfold
          rw [ownUnfold.length_eq] at builds
          exact deliver_advances allocates keeps othersUnfold builds
  | word characters =>
      rcases Literal.object_ofWord characters with
        ⟨object, tree, isObject, isTree, stored⟩ | ⟨fault, noObject, noTree⟩
      · obtain ⟨noHandles, uncallable⟩ := Literal.object_leaf isObject
        have places : placeWord characters = allocate object := by
          rw [placeWord, isObject]
        have builds := allocate_builds orderly noHandles uncallable stored
        rw [entries, ← places] at builds
        simp only [Reference.advance, isTree, advance]
        exact deliver_advances allocates keeps allUnfold builds
      · have fails : placeWord characters machine = (.error (.unreadable fault), machine) := by
          rw [placeWord, noObject]
          rfl
        simp only [Reference.advance, noTree, advance, deliver, fails]
        exact .unreadable holds

/-- What a read has given against what the reference has read. -/
inductive Reads (operations : Operation → Prop) (start : Machine) :
    Except ReadFault (Tree × List Char) → (Except Error Handle × Reader) × Machine → Prop where
  | exhausted
      (reference : Except ReadFault (Tree × List Char))
      (rest : Reader)
      {after : Machine}
      (staysAbove : StaysAbove operations start after) :
      Reads operations start reference ((.error .outOfMemory, rest), after)
  | complete
      {tree : Tree}
      {rest : List Char}
      {handle : Handle}
      {after : Machine}
      (completes : Completes operations start tree handle after) :
      Reads operations start (.ok (tree, rest)) ((.ok handle, ⟨rest⟩), after)
  | unreadable
      {fault : ReadFault}
      {opened : List (List Tree)}
      {rest : Reader}
      {after : Machine}
      (holds : Holds operations start opened after) :
      Reads operations start (.error fault) ((.error (.unreadable fault), rest), after)

theorem endFault_lengths (opened : List (List Tree)) :
    endFault (opened.map List.length) =
      if opened.isEmpty then .unexpectedEnd else .unterminatedList := by
  cases opened <;> rfl

theorem readOn_reads
    {opened : List (List Tree)}
    {text : List Char}
    (holds : Holds operations start opened machine) :
    Reads operations start (Reference.readOn opened text)
      (readOn (opened.map List.length) text machine) := by
  induction size : text.length using Nat.strongRecOn generalizing opened text machine with
  | ind size inductionHypothesis =>
      subst size
      cases found : Token.next? text with
      | none =>
          rw [readOn_none found, Reference.readOn_none found, endFault_lengths]
          exact .unreadable holds
      | some step =>
          obtain ⟨token, rest⟩ := step
          have shorter := Token.length_lt_of_next? found
          have advances := advance_advances token holds
          rw [readOn_some found, Reference.readOn_some found]
          generalize Reference.advance token opened = reading at advances ⊢
          generalize advance token (opened.map List.length) machine = progress at advances ⊢
          cases advances with
          | exhausted _ staysAbove =>
              exact .exhausted _ _ staysAbove
          | more holdsAfter =>
              exact inductionHypothesis _ shorter holdsAfter rfl
          | complete completes =>
              exact .complete completes
          | unreadable holdsAfter =>
              exact .unreadable holdsAfter
          | misplaced holdsAfter =>
              exact .unreadable holdsAfter

/-- A failed read leaves the stack as it found it. -/
theorem StaysAbove.restored
    (staysAbove : StaysAbove operations start machine) :
    Holds operations start [] (restoreStack start.stack.size machine) := by
  obtain ⟨elements, entries⟩ := staysAbove.entries
  have restored :
      restoreStack start.stack.size machine = machine.withEntries start.stack.entries :=
    restoreStack_above entries.symm
  rw [restored]
  exact ⟨staysAbove.orderly.popped entries.symm,
    staysAbove.allocates.trans (Relation.ReflTransGen.single (.entries machine _)),
    staysAbove.keeps, [], rfl, .nil⟩

/-- The answer of a read against the next tree of the reference, in the heap after it. -/
inductive Delivers (heap : Heap) :
    Except ReadFault (Option (Tree × List Char)) → Except Error (Option Handle) × Reader → Prop
  where
  | exhausted
      (reference : Except ReadFault (Option (Tree × List Char)))
      (rest : Reader) :
      Delivers heap reference (.error .outOfMemory, rest)
  | atEnd :
      Delivers heap (.ok none) (.ok none, ⟨[]⟩)
  | object
      {tree : Tree}
      {rest : List Char}
      {handle : Handle}
      (unfolds : heap.Unfolds handle tree) :
      Delivers heap (.ok (some (tree, rest))) (.ok (some handle), ⟨rest⟩)
  | unreadable
      (fault : ReadFault)
      (rest : Reader) :
      Delivers heap (.error fault) (.error (.unreadable fault), rest)

/-- A read gives what the reference reads, above a stack that is as it was. -/
theorem read_delivers
    (orderly : machine.Orderly operations)
    (reader : Reader) :
    Holds operations machine [] (reader.read machine).2 ∧
      Delivers (reader.read machine).2.heap (Reference.readNext reader.text)
        (reader.read machine).1 := by
  have reads := @readOn_reads operations machine machine [] (Token.skip reader.text)
    (.start orderly)
  rw [read_eq, Reference.readNext]
  by_cases isEmpty : Token.skip reader.text = []
  · simp only [isEmpty, ↓reduceIte]
    exact ⟨.start orderly, .atEnd⟩
  · simp only [isEmpty, ↓reduceIte]
    simp only [List.map_nil] at reads
    generalize Reference.readOn [] (Token.skip reader.text) = reference at reads ⊢
    generalize readOn [] (Token.skip reader.text) machine = answer at reads ⊢
    cases reads with
    | exhausted _ rest staysAbove =>
        exact ⟨staysAbove.restored, .exhausted _ rest⟩
    | complete completes =>
        exact ⟨completes.1, .object completes.2⟩
    | unreadable holds =>
        exact ⟨holds.staysAbove.restored, .unreadable _ _⟩

/-- Nothing that has been read lies on the stack once no list is open. -/
theorem Holds.entries
    (holds : Holds operations start [] machine) :
    machine.stack.entries = start.stack.entries := by
  obtain ⟨elements, entries, allUnfold⟩ := holds.elements
  cases allUnfold
  exact entries

end Reader

end ArenaLisp
