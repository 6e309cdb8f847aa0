import ArenaLisp.Proofs.Reading.Encoding

namespace ArenaLisp

/-!
# Parsing

Reading one tree after the other comes to the same as parsing the tokens of the whole
text.  By induction on what the grammar spells, parsing finds the trees of every text
that the grammar describes, and by induction on the tokens, the grammar describes what
parsing finds.  So the grammar describes every text in exactly one way.
-/

open Grammar

namespace Reference

/-- Reads trees from tokens until a token cannot be read or the tokens end. -/
def parse : List (List Tree) → List Token → List Tree × Option ReadFault
  | opened, [] => ([], if opened.isEmpty then none else some .unterminatedList)
  | opened, token :: rest =>
      match advance token opened with
      | .finished (.ok tree) => (parse [] rest).map (tree :: ·) id
      | .finished (.error fault) => ([], some fault)
      | .more opened => parse opened rest

/-- A reading goes on only inside a list. -/
theorem ne_nil_of_advance_more
    {token : Token}
    {opened after : List (List Tree)}
    (goesOn : advance token opened = .more after) :
    after ≠ [] := by
  have delivered
      {tree : Tree}
      {opened : List (List Tree)}
      (goesOn : deliver tree opened = .more after) :
      after ≠ [] := by
    cases opened <;> cases goesOn
    exact List.cons_ne_nil _ _
  cases token with
  | opening =>
      cases goesOn
      exact List.cons_ne_nil _ _
  | closing =>
      cases opened with
      | nil =>
          cases goesOn
      | cons items outer =>
          exact delivered goesOn
  | word characters =>
      rw [advance] at goesOn
      split at goesOn
      · exact delivered goesOn
      · cases goesOn

/-- The first tree that is read is the first that is parsed, and so is the first fault. -/
theorem parse_of_readOn
    (opened : List (List Tree))
    (text : List Char) :
    (∀ tree rest,
      readOn opened text = .ok (tree, rest) →
      parse opened (Token.all text) = (parse [] (Token.all rest)).map (tree :: ·) id) ∧
    ∀ fault,
      readOn opened text = .error fault →
      (Token.next? text ≠ none ∨ opened ≠ []) →
      parse opened (Token.all text) = ([], some fault) := by
  fun_induction readOn opened text with
  | case1 opened text noToken =>
      rw [Token.all_none noToken]
      refine ⟨by rintro _ _ ⟨⟩, ?_⟩
      rintro fault ⟨⟩ (someToken | someOpen)
      · exact absurd noToken someToken
      · simp [parse, someOpen]
  | case2 opened text token rest found tree advanced =>
      rw [Token.all_some found, parse, advanced]
      exact ⟨by rintro _ _ ⟨⟩; rfl, by rintro _ ⟨⟩⟩
  | case3 opened text token rest found fault advanced =>
      rw [Token.all_some found, parse, advanced]
      exact ⟨by rintro _ _ ⟨⟩, by rintro _ ⟨⟩ _; rfl⟩
  | case4 opened text token rest found after advanced inductionHypothesis =>
      rw [Token.all_some found, parse, advanced]
      obtain ⟨trees, faults⟩ := inductionHypothesis
      exact ⟨trees, fun fault fails _ =>
        faults fault fails (.inr (ne_nil_of_advance_more advanced))⟩

/-- What a text is parsed into, by the answer of the next read. -/
theorem parse_of_readNext (text : List Char) :
    parse [] (Token.all text) =
      match readNext text with
      | .ok none => ([], none)
      | .ok (some (tree, rest)) => (parse [] (Token.all rest)).map (tree :: ·) id
      | .error fault => ([], some fault) := by
  obtain ⟨trees, faults⟩ := parse_of_readOn [] (Token.skip text)
  rw [Token.all_congr (Token.next?_skip text)] at trees faults
  cases isNext : readNext text with
  | error fault =>
      obtain ⟨notEmpty, fails⟩ := readOn_of_readNext_error isNext
      refine faults fault fails (.inl ?_)
      rwa [Token.next?_skip, ne_eq, Token.next?_eq_none_iff]
  | ok next =>
      cases next with
      | none =>
          rw [Token.all_none (Token.next?_eq_none_iff.mpr (skip_of_readNext isNext))]
          rfl
      | some step =>
          obtain ⟨tree, rest⟩ := step
          exact trees tree rest (readOn_of_readNext_some isNext).2

/-- Hands complete trees to the innermost open list; without one they are what was parsed. -/
def passOn (trees : List Tree) (tokens : List Token) :
    List (List Tree) → List Tree × Option ReadFault
  | [] => (parse [] tokens).map (trees ++ ·) id
  | items :: outer => parse ((trees.reverse ++ items) :: outer) tokens

theorem passOn_nil (tokens : List Token) (opened : List (List Tree)) :
    passOn [] tokens opened = parse opened tokens := by
  cases opened <;> rfl

/-- A tree that is delivered goes in front of those that complete the tokens after it. -/
theorem passOn_cons
    (tree : Tree)
    {trees : List Tree}
    {front rest : List Token}
    {token : Token}
    {before opened : List (List Tree)}
    (advanced : advance token before = deliver tree opened)
    (later : ∀ opened, parse opened (front ++ rest) = passOn trees rest opened) :
    parse before (token :: (front ++ rest)) = passOn (tree :: trees) rest opened := by
  rw [parse, advanced]
  cases opened with
  | nil =>
      simp only [deliver, later, passOn]
      rfl
  | cons items outer =>
      simp only [deliver, later, passOn, List.reverse_cons, List.append_assoc,
        List.singleton_append]

/-- Tokens that spell some trees are parsed into these. -/
theorem parse_spelled
    {lexemes : List Lexeme}
    {trees : List Tree}
    (spells : Spells lexemes trees)
    {tokens : List Token}
    (same : tokens.map Token.lexeme = lexemes)
    (rest : List Token)
    (opened : List (List Tree)) :
    parse opened (tokens ++ rest) = passOn trees rest opened := by
  induction spells generalizing tokens rest opened with
  | none =>
      obtain rfl := List.map_eq_nil_iff.mp same
      exact (passOn_nil rest opened).symm
  | atom denotes _ inductionHypothesis =>
      obtain ⟨token, others, rfl, isWord, sameOthers⟩ := List.map_eq_cons_iff.mp same
      cases token with
      | opening | closing =>
          cases isWord
      | word characters =>
          cases isWord
          refine passOn_cons _ ?_ fun opened => inductionHypothesis sameOthers rest opened
          rw [advance, denotes_encode_iff.mp denotes]
  | @list _ _ items _ _ _ elements later =>
      obtain ⟨token, others, rfl, isOpening, sameOthers⟩ := List.map_eq_cons_iff.mp same
      obtain ⟨inside, behind, rfl, sameInside, sameBehind⟩ :=
        List.map_eq_append_iff.mp sameOthers
      obtain ⟨last, others, rfl, isClosing, sameLast⟩ := List.map_eq_cons_iff.mp sameBehind
      cases token <;> cases isOpening
      cases last <;> cases isClosing
      have closes : advance .closing (items.reverse :: opened) = deliver (.list items) opened := by
        rw [advance, List.reverse_reverse]
      have elementsParsed := elements sameInside (.closing :: (others ++ rest)) ([] :: opened)
      rw [passOn, List.append_nil] at elementsParsed
      rw [List.cons_append, List.append_assoc, List.cons_append, parse, advance]
      exact elementsParsed.trans
        (passOn_cons _ closes fun opened => later sameLast rest opened)

/-- Tokens of lists that are not closed leave these open. -/
theorem parse_unclosed
    {lexemes : List Lexeme}
    {opened : List (List Tree)}
    (unclosed : Unclosed lexemes opened)
    {tokens : List Token}
    (same : tokens.map Token.lexeme = lexemes)
    (rest : List Token) :
    parse [] (tokens ++ rest) = parse (opened.map List.reverse) rest := by
  induction unclosed generalizing tokens rest with
  | none =>
      obtain rfl := List.map_eq_nil_iff.mp same
      rfl
  | list _ elements inductionHypothesis =>
      obtain ⟨outside, behind, rfl, sameOutside, sameBehind⟩ := List.map_eq_append_iff.mp same
      obtain ⟨token, inside, rfl, isOpening, sameInside⟩ := List.map_eq_cons_iff.mp sameBehind
      cases token <;> cases isOpening
      rw [List.append_assoc, List.cons_append, inductionHypothesis sameOutside, parse, advance]
      have elementsParsed := parse_spelled elements sameInside rest
      simp only [elementsParsed, passOn, List.append_nil, List.map_cons]

/-- Tokens are parsed into what the grammar says of them. -/
theorem parse_of_parses
    {tokens : List Token}
    {trees : List Tree}
    {fault : Option ReadFault}
    (parses : Parses (tokens.map Token.lexeme) trees fault) :
    parse [] tokens = (trees, fault) := by
  -- Complete expressions in front are parsed first, whatever comes after them.
  have inFront
      {front lexemes : List Lexeme}
      (spells : Spells front trees)
      (split : tokens.map Token.lexeme = front ++ lexemes) :
      ∃ rest,
        rest.map Token.lexeme = lexemes ∧
          parse [] tokens = (parse [] rest).map (trees ++ ·) id := by
    obtain ⟨first, rest, rfl, sameFirst, sameRest⟩ := List.map_eq_append_iff.mp split
    exact ⟨rest, sameRest, parse_spelled spells sameFirst rest []⟩
  generalize isLexemes : tokens.map Token.lexeme = lexemes at parses
  cases parses with
  | complete spells =>
      rw [← List.append_nil lexemes] at isLexemes
      obtain ⟨rest, sameRest, parsed⟩ := inFront spells isLexemes
      obtain rfl := List.map_eq_nil_iff.mp sameRest
      simp [parsed, parse]
  | unexpectedClose spells =>
      obtain ⟨rest, sameRest, parsed⟩ := inFront spells isLexemes
      obtain ⟨token, others, rfl, isClosing, _⟩ := List.map_eq_cons_iff.mp sameRest
      cases token <;> cases isClosing
      simp [parsed, parse, advance]
  | unterminated spells unclosed someOpen =>
      obtain ⟨rest, sameRest, parsed⟩ := inFront spells isLexemes
      have stuck := parse_unclosed unclosed sameRest []
      rw [List.append_nil] at stuck
      simp [parsed, stuck, parse, someOpen]
  | outOfRange spells unclosed outOfRange =>
      obtain ⟨rest, sameRest, parsed⟩ := inFront spells isLexemes
      obtain ⟨first, behind, rfl, sameFirst, sameBehind⟩ := List.map_eq_append_iff.mp sameRest
      obtain ⟨token, others, rfl, isWord, _⟩ := List.map_eq_cons_iff.mp sameBehind
      cases token with
      | opening | closing =>
          cases isWord
      | word characters =>
          have sameBytes := Lexeme.atom.inj isWord
          rw [← sameBytes] at outOfRange
          rw [← utf8_ofList] at sameBytes
          have fails := outOfRange_encode_iff.mp ⟨outOfRange, rfl⟩
          have stuck := parse_unclosed unclosed sameFirst (.word characters :: others)
          rw [parsed, stuck, parse, advance, fails, utf8_injective sameBytes]
          simp

/-- Whether the grammar describes what tokens are parsed into, whatever lists are open. -/
def Described (tokens : List Token) : Prop :=
  ∀ {front opened},
    Unclosed front opened →
    Parses (front ++ tokens.map Token.lexeme)
      (parse (opened.map List.reverse) tokens).1 (parse (opened.map List.reverse) tokens).2

section Describing

variable
  {front : List Lexeme}
  {opened : List (List Tree)}
  {rest : List Token}
  (described : Described rest)
  (unclosed : Unclosed front opened)

include described unclosed

/-- A complete expression is an element of the innermost open list, or stands for itself. -/
theorem parses_delivered
    {lexemes : List Lexeme}
    {tree : Tree}
    (spells : Spells lexemes [tree])
    {token : Token}
    {before : List (List Tree)}
    (advanced : advance token before = deliver tree (opened.map List.reverse)) :
    Parses (front ++ lexemes ++ rest.map Token.lexeme)
      (parse before (token :: rest)).1 (parse before (token :: rest)).2 := by
  rw [parse, advanced]
  cases opened with
  | nil =>
      cases unclosed
      exact (described .none).after spells
  | cons items outer =>
      have parses := described (unclosed.element spells)
      rw [List.map_cons, List.reverse_append] at parses
      exact parses

/-- A closing parenthesis completes the innermost open list, if there is one. -/
theorem parses_closing :
    Parses (front ++ (Token.closing :: rest).map Token.lexeme)
      (parse (opened.map List.reverse) (.closing :: rest)).1
      (parse (opened.map List.reverse) (.closing :: rest)).2 := by
  cases unclosed with
  | none =>
      exact .unexpectedClose .none
  | @list outside inside outer items unclosed elements =>
      have spells : Spells (.opening :: (inside ++ [.closing])) [.list items] :=
        .list elements .none
      have closes :
          advance .closing ((items :: outer).map List.reverse) =
            deliver (.list items) (outer.map List.reverse) := by
        rw [List.map_cons, advance, List.reverse_reverse]
      have parses := parses_delivered described unclosed spells closes
      rw [List.append_assoc, List.cons_append, List.append_assoc] at parses
      rw [List.append_assoc]
      exact parses

/-- A word is complete, or an integer that is out of range. -/
theorem parses_word (characters : List Char) :
    Parses (front ++ (Token.word characters :: rest).map Token.lexeme)
      (parse (opened.map List.reverse) (.word characters :: rest)).1
      (parse (opened.map List.reverse) (.word characters :: rest)).2 := by
  cases isTree : Tree.ofWord characters with
  | ok tree =>
      have spells : Spells [.atom (encode characters)] [tree] :=
        .atom (denotes_encode_iff.mpr isTree) .none
      have advanced :
          advance (.word characters) (opened.map List.reverse) =
            deliver tree (opened.map List.reverse) := by
        rw [advance, isTree]
      have parses := parses_delivered described unclosed spells advanced
      rw [List.append_assoc] at parses
      exact parses
  | error fault =>
      obtain ⟨outOfRange, rfl⟩ := outOfRange_encode_iff.mpr isTree
      rw [← utf8_ofList] at outOfRange
      have parses :=
        @Parses.outOfRange [] front (rest.map Token.lexeme) [] opened _ .none unclosed outOfRange
      rw [utf8_ofList] at parses
      rw [parse, advance, isTree]
      exact parses

end Describing

/-- The grammar describes what tokens are parsed into. -/
theorem parses_parse (tokens : List Token) : Described tokens := by
  induction tokens with
  | nil =>
      intro front opened unclosed
      rw [List.map_nil, List.append_nil]
      cases opened with
      | nil =>
          cases unclosed
          exact .complete .none
      | cons items outer =>
          exact .unterminated .none unclosed (List.cons_ne_nil _ _)
  | cons token rest inductionHypothesis =>
      intro front opened unclosed
      cases token with
      | opening =>
          have parses := inductionHypothesis (.list unclosed .none)
          rw [List.append_assoc] at parses
          exact parses
      | closing =>
          exact parses_closing inductionHypothesis unclosed
      | word characters =>
          exact parses_word inductionHypothesis unclosed characters

/-- The expressions and the fault of a text are those that its tokens are parsed into. -/
theorem program_iff
    {text : String}
    {trees : List Tree}
    {fault : Option ReadFault} :
    Program text trees fault ↔ parse [] (Token.all text.toList) = (trees, fault) := by
  rw [Program, utf8_eq_encode]
  constructor
  · rintro ⟨lexemes, lexed, parses⟩
    rw [lexed.eq_lex, lex_encode] at parses
    exact parse_of_parses parses
  · intro parsed
    have parses := parses_parse (Token.all text.toList) .none
    rw [List.map_nil, parsed, List.nil_append, ← lex_encode] at parses
    exact ⟨_, lexed_lex _, parses⟩

end Reference

end ArenaLisp
