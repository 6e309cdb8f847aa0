import ArenaLisp.Proofs.Creation
import ArenaLisp.Proofs.Reading.Room
import ArenaLisp.Proofs.Rendering.Atoms
import Mathlib.Data.List.Forall2

namespace ArenaLisp

/-!
# Reading what was rendered

The text of a list of integers and symbols is read back as the same list if and only if
trimming leaves the names of the symbols alone.  The rendering trims every blank
character, the reader separates words at five of them only: a symbol that was read with
another one at its beginning or end comes back as a different word.
-/

open Text

namespace Tree

theorem noParentheses_of_isWord
    {text : List Char}
    (isWord : IsWord text) :
    ∀ character ∈ text, character ≠ '(' ∧ character ≠ ')' := by
  intro character member
  obtain ⟨_, notOpening, notClosing, _⟩ :=
    Token.isWordCharacter_iff.mp (isWord.2 character member)
  exact ⟨notOpening, notClosing⟩

theorem renderWithin_atom
    {item : Tree}
    (isAtom : item.IsAtom)
    (levels : Nat) :
    (renderWithin (levels + 1) item).toList = item.text := by
  cases isAtom <;> simp only [renderWithin, text]

/-- An atom loses nothing but its blanks in the text of a cell. -/
theorem strip_atom
    {item : Tree}
    (isAtom : item.IsAtom)
    (isWord : IsWord item.text)
    (levels : Nat) :
    (Heap.stripParentheses (renderWithin (levels + 1) item)).toList = trim item.text := by
  rw [toList_stripParentheses, renderWithin_atom isAtom,
    filter_of_noParentheses (noParentheses_of_isWord isWord)]

theorem renderWithin_pair
    (levels : Nat)
    (car cdr : Tree) :
    (renderWithin (levels + 1) (.pair car cdr)).toList =
      '(' ::
        ((Heap.stripParentheses (renderWithin levels car)).toList ++
          ' ' :: ((Heap.stripParentheses (renderWithin levels cdr)).toList ++ [')'])) := by
  have opening : "(".toList = ['('] := rfl
  have space : " ".toList = [' '] := rfl
  have closing : ")".toList = [')'] := rfl
  simp only [renderWithin, String.toList_append, opening, space, closing, List.append_assoc,
    List.cons_append, List.nil_append]

section Rendered

variable
  {items : List Tree}
  (atoms : ∀ item ∈ items, item.IsAtom ∧ IsWord item.text)

include atoms

theorem noParentheses_trimTogether :
    ∀ character ∈ trimTogether (items.map text), character ≠ '(' ∧ character ≠ ')' := by
  intro character member
  rcases mem_trimTogether member with rfl | ⟨text, isText, inText⟩
  · decide
  · obtain ⟨item, isItem, rfl⟩ := List.mem_map.mp isText
    exact noParentheses_of_isWord (atoms item isItem).2 character inText

/-- What the text of a list comes to in the text of the cell before it. -/
theorem strip_list
    {levels : Nat}
    (deepEnough : items.length < levels) :
    (Heap.stripParentheses (renderWithin levels (list items))).toList =
      trimTogether (items.map text) := by
  induction items generalizing levels with
  | nil =>
      obtain ⟨levels, rfl⟩ := Nat.exists_eq_succ_of_ne_zero (Nat.ne_of_gt deepEnough)
      rw [toList_stripParentheses, list, List.foldr_nil, renderWithin]
      rfl
  | cons item rest inductionHypothesis =>
      rw [List.forall_mem_cons] at atoms
      obtain ⟨⟨isAtom, isWord⟩, restAtoms⟩ := atoms
      obtain ⟨levels, rfl⟩ :=
        Nat.exists_eq_succ_of_ne_zero (Nat.ne_of_gt (Nat.zero_lt_of_lt deepEnough))
      rw [List.length_cons] at deepEnough
      have restDeepEnough : rest.length < levels := by
        omega
      have unfolded : list (item :: rest) = .pair item (list rest) :=
        rfl
      rw [unfolded, toList_stripParentheses, renderWithin_pair,
        inductionHypothesis restAtoms restDeepEnough]
      obtain ⟨levels, rfl⟩ :=
        Nat.exists_eq_succ_of_ne_zero (Nat.ne_of_gt (Nat.zero_lt_of_lt restDeepEnough))
      have noneInItem :
          ∀ character ∈ trim item.text, character ≠ '(' ∧ character ≠ ')' :=
        fun character member => noParentheses_of_isWord isWord character (mem_of_mem_trim member)
      rw [strip_atom isAtom isWord, List.map_cons, trimTogether]
      congr 1
      simp [filter_of_noParentheses noneInItem,
        filter_of_noParentheses (noParentheses_trimTogether restAtoms)]

/-- The text of a list of as many atoms as are rendered in full. -/
theorem toList_render
    {item : Tree}
    (atMost : (item :: items).length ≤ Heap.renderingDepth)
    (isAtom : item.IsAtom)
    (isWord : IsWord item.text) :
    (render (list (item :: items))).toList =
      '(' :: (trim item.text ++ ' ' :: (trimTogether (items.map text) ++ [')'])) := by
  have unfolded : list (item :: items) = .pair item (list items) :=
    rfl
  have positive : Heap.renderingDepth = 999 + 1 :=
    rfl
  rw [List.length_cons] at atMost
  rw [render, unfolded, renderWithin_pair, strip_list atoms (by omega), positive,
    strip_atom isAtom isWord]

end Rendered

end Tree

namespace Reference

theorem mapM_ofWord_iff
    {words : List (List Char)}
    {trees : List Tree} :
    words.mapM Tree.ofWord = .ok trees ↔
      List.Forall₂ (fun word tree => Tree.ofWord word = .ok tree) words trees := by
  induction words generalizing trees with
  | nil =>
      rw [List.mapM_nil, List.forall₂_nil_left_iff]
      exact ⟨fun same => (Except.ok.inj same).symm, fun same => congrArg Except.ok same.symm⟩
  | cons word words inductionHypothesis =>
      rw [List.mapM_cons, List.forall₂_cons_left_iff]
      cases isTree : Tree.ofWord word with
      | error fault =>
          constructor
          · rintro ⟨⟩
          · rintro ⟨tree, rest, impossible, _⟩
            cases impossible
      | ok tree =>
          cases isRest : words.mapM Tree.ofWord with
          | error fault =>
              constructor
              · rintro ⟨⟩
              · rintro ⟨_, rest, _, restRead, _⟩
                rw [← inductionHypothesis, isRest] at restRead
                cases restRead
          | ok rest =>
              constructor
              · rintro ⟨⟩
                exact ⟨tree, rest, rfl, inductionHypothesis.mp isRest, rfl⟩
              · rintro ⟨_, others, ⟨⟩, restRead, rfl⟩
                rw [← inductionHypothesis, isRest] at restRead
                cases restRead
                rfl

/-- Only a symbol of its own name is read from a word. -/
theorem eq_of_ofWord_symbol
    {word : List Char}
    {name : String}
    (isTree : Tree.ofWord word = .ok (.symbol name)) :
    word = name.toList := by
  rw [Tree.ofWord] at isTree
  split at isTree
  · split at isTree <;> cases isTree
  · cases isTree
    exact String.toList_ofList.symm

/-- The words of some atoms are read as these if and only if trimming changes none. -/
theorem mapM_words_iff
    {items : List Tree}
    (readable : ∀ item ∈ items, item.IsReadable ∧ item.IsAtom) :
    (words (items.map Tree.text)).mapM Tree.ofWord = .ok items ↔
      ∀ item ∈ items, item.IsTrimmed := by
  have spec (item : Tree) (member : item ∈ items) :=
    Tree.text_spec (readable item member).1 (readable item member).2
  rw [mapM_ofWord_iff]
  constructor
  · intro denote
    -- As many words are left as there are items, so none was trimmed to nothing.
    rw [words_of_length_eq (denote.length_eq.trans (List.length_map _).symm),
      List.forall₂_map_left_iff, List.forall₂_map_left_iff, List.forall₂_same] at denote
    intro item member name isSymbol
    have denotes := denote item member
    rw [isSymbol, Tree.text] at denotes
    exact isTrimmed_iff.mpr (eq_of_ofWord_symbol denotes)
  · intro trimmed
    have wordsTrimmed : ∀ word ∈ items.map Tree.text, Text.IsTrimmed word ∧ word ≠ [] :=
      List.forall_mem_map.mpr fun item member =>
        ⟨(spec item member).2.2.mpr (trimmed item member), (spec item member).1.1⟩
    rw [words_of_isTrimmed wordsTrimmed, List.forall₂_map_left_iff, List.forall₂_same]
    exact fun item member => (spec item member).2.1

/-- A list of atoms is read from its text if and only if trimming changes none of them. -/
theorem readNext_render_iff
    {items : List Tree}
    (notEmpty : items ≠ [])
    (atMost : items.length ≤ Heap.renderingDepth)
    (readable : ∀ item ∈ items, item.IsReadable ∧ item.IsAtom) :
    readNext (Tree.list items).render.toList = .ok (some (.list items, [])) ↔
      ∀ item ∈ items, item.IsTrimmed := by
  have atoms : ∀ item ∈ items, item.IsAtom ∧ IsWord item.text := fun item member =>
    ⟨(readable item member).2, (Tree.text_spec (readable item member).1 (readable item member).2).1⟩
  rw [← mapM_words_iff readable]
  obtain ⟨item, rest, rfl⟩ := List.exists_cons_of_ne_nil notEmpty
  obtain ⟨⟨isAtom, isWord⟩, restAtoms⟩ := List.forall_mem_cons.mp atoms
  have areWords : ∀ word ∈ (item :: rest).map Tree.text, IsWord word :=
    List.forall_mem_map.mpr fun item member => (atoms item member).2
  rw [Tree.toList_render restAtoms atMost isAtom isWord, readNext_rendered areWords, List.map_cons]
  cases (words (item.text :: rest.map Tree.text)).mapM Tree.ofWord with
  | error fault =>
      constructor <;> rintro ⟨⟩
  | ok trees =>
      constructor
      · intro same
        have sameTree : Tree.list trees = Tree.list (item :: rest) :=
          congrArg Prod.fst (Option.some.inj (Except.ok.inj same))
        have sameItems := congrArg Tree.items sameTree
        rw [Tree.items_list, Tree.items_list] at sameItems
        rw [sameItems]
      · intro same
        rw [Except.ok.inj same]
        rfl

end Reference

open Machine

namespace Tree

/-- A list of leaves is made of them, a pair for each of them, and nil. -/
theorem size_list_of_isAtom
    {items : List Tree}
    (atoms : ∀ item ∈ items, item.IsAtom) :
    (list items).size = 2 * items.length + 1 := by
  have ones : items.map size = List.replicate items.length 1 := by
    refine List.map_eq_replicate_iff.mpr fun item member => ?_
    cases atoms item member <;> rfl
  rw [size_list, ones, List.sum_replicate_nat]
  omega

end Tree

namespace Reader

variable
  {operations : Operation → Prop}
  {machine after : Machine}

/-- What a successful read answers with is what the reference reads. -/
theorem readNext_of_read
    (orderly : machine.Orderly operations)
    {reader rest : Reader}
    {handle : Handle}
    (isRead : reader.read machine = ((.ok (some handle), rest), after))
    {tree : Tree}
    (unfolds : after.heap.Unfolds handle tree) :
    Reference.readNext reader.text = .ok (some (tree, rest.text)) := by
  have delivers := (reader.read_delivers orderly).2
  rw [isRead] at delivers
  generalize reference : Reference.readNext reader.text = next at delivers
  cases delivers with
  | object unfoldsRead =>
      rw [unfolds.unique unfoldsRead]

theorem isReadable_of_read
    (orderly : machine.Orderly operations)
    {reader rest : Reader}
    {handle : Handle}
    (isRead : reader.read machine = ((.ok (some handle), rest), after))
    {tree : Tree}
    (unfolds : after.heap.Unfolds handle tree) :
    tree.IsReadable :=
  have readOn := (Reference.readOn_of_readNext_some (readNext_of_read orderly isRead unfolds)).2
  Reference.isReadable_of_readOn (List.forall_mem_nil _) readOn

/-- A text is read on a machine without bindings, and what it is read into is garbage there. -/
theorem read_blank
    {capacity initialThreshold : Nat}
    {eagerDefinitions : Bool}
    (capacityBound : capacity ≤ Handle.bound)
    {text : String}
    {tree : Tree}
    {rest : List Char}
    (isRead : Reference.readNext text.toList = .ok (some (tree, rest)))
    (fits : tree.size ≤ capacity) :
    ∃ handle after,
      (ofString text).read (blank capacity initialThreshold eagerDefinitions) =
          ((.ok (some handle), ⟨rest⟩), after) ∧
        after.WellFormed ∧
        after.HasRoomFor capacity ∧
        after.heap.Unfolds handle tree := by
  let machine := blank capacity initialThreshold eagerDefinitions
  have orderly : machine.Orderly fun _ => True :=
    blank_orderly capacityBound initialThreshold eagerDefinitions
  have room : machine.HasRoomFor capacity := by
    refine .of_no_roots rfl ?_
    have sameCapacity : machine.heap.capacity = max capacity 1 :=
      Heap.capacity_create capacity initialThreshold
    omega
  obtain ⟨handle, after, answered, unfolds⟩ :=
    @read_succeeds _ _ orderly (ofString text) tree rest isRead (room.of_le fits)
  have holds := ((ofString text).read_delivers orderly).1
  have roomAfter := read_hasRoomFor orderly room (ofString text)
  rw [answered] at holds roomAfter
  exact ⟨handle, after, answered, holds.orderly.toWellFormed, roomAfter, unfolds⟩

/--
What is rendered is read again, except for blank characters.  Take any list of one to a
thousand integers and symbols that was read, and the text that it is rendered as.  On
every well-formed machine with room for another such list, this text is read as one
expression, to its end, and into the same list, if and only if no name of a symbol in
the list begins or ends with a blank character.
-/
theorem reads_rendered_iff
    {again : Machine}
    (wellFormed : machine.WellFormed)
    (againWellFormed : again.WellFormed)
    {reader rest : Reader}
    {handle : Handle}
    (isRead : reader.read machine = ((.ok (some handle), rest), after))
    {items : List Tree}
    (unfolds : after.heap.Unfolds handle (.list items))
    (notEmpty : items ≠ [])
    (atMost : items.length ≤ 1000)
    (atoms : ∀ item ∈ items, item.IsAtom)
    (room : again.HasRoomFor (2 * items.length + 1)) :
    (∃ copy final,
      (ofString (after.heap.render handle)).read again = ((.ok (some copy), ⟨[]⟩), final) ∧
        final.heap.Unfolds copy (.list items)) ↔
      ∀ item ∈ items, item.IsTrimmed := by
  have readable : ∀ item ∈ items, item.IsReadable ∧ item.IsAtom := fun item member =>
    ⟨Tree.isReadable_list.mp (isReadable_of_read wellFormed.orderly isRead unfolds) item member,
      atoms item member⟩
  rw [← Reference.readNext_render_iff notEmpty atMost readable, ← unfolds.render_eq]
  constructor
  · rintro ⟨copy, final, isReadAgain, unfoldsAgain⟩
    exact readNext_of_read againWellFormed.orderly isReadAgain unfoldsAgain
  · intro readNext
    rw [← Tree.size_list_of_isAtom atoms] at room
    exact read_succeeds againWellFormed.orderly readNext room

/-- A list of a symbol and a negative integer, with room for both copies of it. -/
theorem reads_rendered_iff_signed :
    ∃ handle after copy final,
      (ofString "(a -7)").read (blank 16 4 false) = ((.ok (some handle), ⟨[]⟩), after) ∧
        after.HasRoomFor 5 ∧
        (ofString (after.heap.render handle)).read after = ((.ok (some copy), ⟨[]⟩), final) ∧
        final.heap.Unfolds copy (.list [.symbol "a", .integer (-7)]) := by
  have capacityBound : 16 ≤ Handle.bound := by
    decide
  have wellFormed : (blank 16 4 false).WellFormed :=
    (@blank_orderly (fun _ => True) 16 capacityBound 4 false).toWellFormed
  have isRead :
      Reference.readNext "(a -7)".toList =
        .ok (some (.list [.symbol "a", .integer (-7)], [])) := by
    decide +kernel
  obtain ⟨handle, after, answered, afterWellFormed, room, unfolds⟩ :=
    read_blank capacityBound isRead (by decide)
  have roomForList : after.HasRoomFor 5 :=
    room.of_le (by decide)
  have atoms : ∀ item ∈ [Tree.symbol "a", Tree.integer (-7)], item.IsAtom :=
    List.forall_mem_cons.mpr ⟨.symbol "a", List.forall_mem_singleton.mpr (.integer (-7))⟩
  have trimmed : ∀ item ∈ [Tree.symbol "a", Tree.integer (-7)], item.IsTrimmed := by
    rintro item (_ | ⟨_, _ | ⟨_, ⟨⟩⟩⟩) name ⟨⟩
    exact isTrimmed_iff.mpr (by decide +kernel)
  obtain ⟨copy, final, answeredAgain, unfoldsAgain⟩ :=
    (reads_rendered_iff wellFormed afterWellFormed answered unfolds (List.cons_ne_nil _ _)
      (by decide) atoms roomForList).mpr trimmed
  exact ⟨handle, after, copy, final, answered, roomForList, answeredAgain, unfoldsAgain⟩

/--
A no-break space is part of a symbol and trimmed when it is rendered: the list of the
symbol that is a no-break space and a digit is read back as the list of an integer.
-/
theorem symbol_read_back_as_integer :
    ∃ handle after copy final,
      (ofString "(\u00a07)").read (blank 16 4 false) = ((.ok (some handle), ⟨[]⟩), after) ∧
        after.heap.Unfolds handle (.list [.symbol "\u00a07"]) ∧
        after.HasRoomFor 16 ∧
        (ofString (after.heap.render handle)).read after = ((.ok (some copy), ⟨[]⟩), final) ∧
        final.heap.Unfolds copy (.list [.integer 7]) ∧
        ¬final.heap.Unfolds copy (.list [.symbol "\u00a07"]) := by
  have isRead :
      Reference.readNext "(\u00a07)".toList = .ok (some (.list [.symbol "\u00a07"], [])) := by
    decide +kernel
  have rendered : (Tree.list [.symbol "\u00a07"]).render = "(7 )" := by
    decide +kernel
  have isReadAgain : Reference.readNext "(7 )".toList = .ok (some (.list [.integer 7], [])) := by
    decide +kernel
  have capacityBound : 16 ≤ Handle.bound := by
    decide
  have sizes : (Tree.list [.symbol "\u00a07"]).size = 3 ∧ (Tree.list [.integer 7]).size = 3 := by
    decide
  obtain ⟨handle, after, answered, afterWellFormed, room, unfolds⟩ :=
    read_blank capacityBound isRead (by omega)
  obtain ⟨copy, final, answeredAgain, unfoldsAgain⟩ :=
    @read_succeeds _ _ afterWellFormed.orderly (ofString "(7 )") _ _ isReadAgain
      (room.of_le (by omega))
  refine ⟨handle, after, copy, final, answered, unfolds, room, ?_, unfoldsAgain, ?_⟩
  · rw [unfolds.render_eq, rendered]
    exact answeredAgain
  · intro unfoldsSymbol
    cases unfoldsAgain.unique unfoldsSymbol

end Reader

end ArenaLisp
