import ArenaLisp.Proofs.Creation
import ArenaLisp.Proofs.Reading.Building
import ArenaLisp.Proofs.Reading.Parsing

namespace ArenaLisp

/-!
# Reading is exact

Whatever the machine, as long as nothing dangles on it, one read after the other
answers with the expressions that the grammar finds in the text, and ends where the
grammar ends.  The objects need not be kept: each unfolds in the heap that it is
answered in.
-/

open Grammar Machine

namespace Reader

variable
  {operations : Operation → Prop}
  {machine : Machine}

/--
The objects that successive reads answer with, each with the heap that it is in then,
and the error that ends them if there is one.
-/
def readAll (reader : Reader) (machine : Machine) : List (Handle × Heap) × Option Error :=
  match _ : reader.read machine with
  | ((.ok none, _), _) => ([], none)
  | ((.error error, _), _) => ([], some error)
  | ((.ok (some handle), rest), after) =>
      (rest.readAll after).map ((handle, after.heap) :: ·) id
termination_by reader.text.length
decreasing_by exact length_lt_of_read ‹_›

/-- Objects that unfold into the trees of a text, ended by its fault or by a lack of memory. -/
inductive Gives (trees : List Tree) (fault : Option ReadFault) :
    List (Handle × Heap) × Option Error → Prop where
  | all
      {objects : List (Handle × Heap)}
      (unfold : List.Forall₂ (fun object tree => object.2.Unfolds object.1 tree) objects trees) :
      Gives trees fault (objects, fault.map .unreadable)
  | exhausted
      {objects : List (Handle × Heap)}
      {front : List Tree}
      (isFront : front <+: trees)
      (unfold : List.Forall₂ (fun object tree => object.2.Unfolds object.1 tree) objects front) :
      Gives trees fault (objects, some .outOfMemory)

theorem Gives.cons
    {trees : List Tree}
    {fault : Option ReadFault}
    {answer : List (Handle × Heap) × Option Error}
    (gives : Gives trees fault answer)
    {handle : Handle}
    {heap : Heap}
    {tree : Tree}
    (unfolds : heap.Unfolds handle tree) :
    Gives (tree :: trees) fault (answer.map ((handle, heap) :: ·) id) := by
  cases gives with
  | all unfold =>
      exact .all (.cons unfolds unfold)
  | exhausted isFront unfold =>
      exact .exhausted (List.cons_prefix_cons.mpr ⟨rfl, isFront⟩) (.cons unfolds unfold)

/-- Successive reads give what the tokens of the text are parsed into. -/
theorem readAll_gives
    (orderly : machine.Orderly operations)
    (reader : Reader) :
    Gives (Reference.parse [] (Token.all reader.text)).1
      (Reference.parse [] (Token.all reader.text)).2 (reader.readAll machine) := by
  rw [Reference.parse_of_readNext]
  fun_induction readAll reader machine with
  | case1 reader machine rest after answered =>
      have delivers := (reader.read_delivers orderly).2
      rw [answered] at delivers
      generalize Reference.readNext reader.text = next at delivers
      cases delivers
      exact .all .nil
  | case2 reader machine error rest after answered =>
      have delivers := (reader.read_delivers orderly).2
      rw [answered] at delivers
      generalize Reference.readNext reader.text = next at delivers
      cases delivers with
      | exhausted =>
          exact .exhausted List.nil_prefix .nil
      | unreadable fault =>
          exact .all .nil
  | case3 reader machine handle rest after answered inductionHypothesis =>
      obtain ⟨holds, delivers⟩ := reader.read_delivers orderly
      rw [answered] at holds delivers
      generalize Reference.readNext reader.text = next at delivers
      cases delivers with
      | object unfolds =>
          have rests := inductionHypothesis holds.orderly
          rw [← Reference.parse_of_readNext] at rests
          exact rests.cons unfolds

/--
Reading is exact.  The grammar describes every text in one way: the expressions up to
the first fault, and that fault if there is one.  On every well-formed machine,
successive reads answer with objects that unfold into these expressions in order, and
then with the fault, unless memory runs out before.
-/
theorem read_exact
    (wellFormed : machine.WellFormed)
    (text : String) :
    ∃ trees fault,
      Program text trees fault ∧
        (∀ otherTrees otherFault,
          Program text otherTrees otherFault → otherTrees = trees ∧ otherFault = fault) ∧
        Gives trees fault ((ofString text).readAll machine) := by
  have orderly : machine.Orderly fun _ => True :=
    ⟨wellFormed, fun _ _ _ _ _ => trivial⟩
  obtain ⟨⟨trees, fault⟩, parsed⟩ :
      ∃ description, Reference.parse [] (Token.all text.toList) = description :=
    ⟨_, rfl⟩
  have gives := readAll_gives orderly (ofString text)
  refine ⟨trees, fault, Reference.program_iff.mpr parsed, ?_, ?_⟩
  · intro otherTrees otherFault program
    have otherParsed := Reference.program_iff.mp program
    rw [parsed] at otherParsed
    cases otherParsed
    exact ⟨rfl, rfl⟩
  · rw [ofString, parsed] at gives
    exact gives

/-- A list, a comment, and a parenthesis that closes nothing. -/
theorem program_misplaced :
    Program "(a) ;\n)" [.list [.symbol "a"]] (some .unexpectedClose) := by
  have bytes : utf8 "(a) ;\n)" = [0x28, 0x61, 0x29, 0x20, 0x3B, 0x0A, 0x29] := by
    decide
  have isSymbol : Denotes [0x61] (.symbol "a") :=
    @denotes_encode_iff ['a'] _ |>.mpr rfl
  have behind : Lexed [0x20, 0x3B, 0x0A, 0x29] [.closing] :=
    .space (by decide) (@Lexed.comment [] _ _ (List.forall_mem_nil _) (by rintro _ ⟨⟩; rfl)
      (.space (by decide) (.closing .done)))
  refine ⟨[.opening, .atom [0x61], .closing, .closing], ?_, ?_⟩
  · rw [bytes]
    exact .opening (@Lexed.atom [0x61] _ _ (List.cons_ne_nil _ _)
      (List.forall_mem_singleton.mpr (by decide)) (by rintro _ ⟨⟩; rfl) (.closing behind))
  · exact @Parses.unexpectedClose [.opening, .atom [0x61], .closing] [] _
      (.list (.atom isSymbol .none) .none)

theorem read_exact_misplaced :
    (blank 8 4 false).WellFormed ∧
      ∃ handle heap,
        (ofString "(a) ;\n)").readAll (blank 8 4 false) =
            ([(handle, heap)], some (.unreadable .unexpectedClose)) ∧
          heap.Unfolds handle (.list [.symbol "a"]) := by
  have wellFormed : (blank 8 4 false).WellFormed :=
    (@blank_orderly IsBuiltin 8 (by decide) 4 false).toWellFormed
  obtain ⟨trees, fault, _, unique, gives⟩ := read_exact wellFormed "(a) ;\n)"
  obtain ⟨rfl, rfl⟩ := unique _ _ program_misplaced
  have ending :
      ((ofString "(a) ;\n)").readAll (blank 8 4 false)).2 =
        some (.unreadable .unexpectedClose) := by
    decide +kernel
  refine ⟨wellFormed, ?_⟩
  generalize (ofString "(a) ;\n)").readAll (blank 8 4 false) = answer at gives ending ⊢
  cases gives with
  | all unfold =>
      cases unfold with
      | @cons object _ _ _ unfolds rest =>
          cases rest
          exact ⟨object.1, object.2, rfl, unfolds⟩
  | exhausted =>
      cases ending

end Reader

end ArenaLisp
