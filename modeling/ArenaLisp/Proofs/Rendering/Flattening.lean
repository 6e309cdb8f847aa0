import ArenaLisp.Proofs.Rendering.Words
import Mathlib.Data.List.Chain

namespace ArenaLisp

/-!
# Flattening in a rendered pair

A pair is rendered by taking the parentheses out of the texts of its two sides, at each
level again.  What is left in the end are the texts of the leaves of the pair, from left
to right: those of the first side, then those of the second, with single spaces between
them.  This holds of every pair of every heap, with the pair unfolded as far down as the
rendering goes: it may reach itself or share what it reaches, and its handles may dangle.
-/

/-- A pair that is followed to its leaves, each with its text. -/
inductive Unfolding where
  | leaf (text : String)
  | pair (car cdr : Unfolding)
  deriving Repr, DecidableEq

namespace Unfolding

/-- The texts of the leaves from left to right. -/
def leaves : Unfolding → List String
  | .leaf text => [text]
  | .pair car cdr => car.leaves ++ cdr.leaves

/-- What the leaves leave behind: nothing if a text consists of parentheses and blanks. -/
def texts (unfolding : Unfolding) : List String :=
  (unfolding.leaves.map Heap.stripParentheses).filter fun text => text != ""

theorem texts_pair (car cdr : Unfolding) : (pair car cdr).texts = car.texts ++ cdr.texts := by
  rw [texts, leaves, List.map_append, List.filter_append]
  rfl

end Unfolding

/-- What a handle names, followed as many levels down as given; below them all is cut off. -/
def Heap.unfold (heap : Heap) : Nat → Handle → Unfolding
  | 0, _ => .leaf "..."
  | levels + 1, handle =>
      match heap.get? handle with
      | none => .leaf ("#<free " ++ toString handle.index ++ ">")
      | some .nil | some .void => .leaf ""
      | some (.integer value) => .leaf (toString value.toInt)
      | some (.boolean true) => .leaf "T"
      | some (.boolean false) => .leaf "F"
      | some (.symbol name) => .leaf name
      | some (.function _ _) => .leaf "func"
      | some (.specialForm _ _) => .leaf "syntax"
      | some (.pair car cdr) => .pair (heap.unfold levels car) (heap.unfold levels cdr)

namespace Text

variable {first behind : List Char}

/-- Whether no space follows another one in a text. -/
def IsSingleSpaced (text : List Char) : Prop :=
  text.IsChain fun character next => character ≠ ' ' ∨ next ≠ ' '

instance : DecidablePred IsSingleSpaced :=
  fun text => inferInstanceAs
    (Decidable (text.IsChain fun character next => character ≠ ' ' ∨ next ≠ ' '))

theorem ne_space_of_not_blank
    {character : Char}
    (notBlank : isBlank character = false) :
    character ≠ ' ' := by
  rintro rfl
  exact absurd notBlank (by decide)

/-- A space between two texts that are trimmed, or empty, is a single one. -/
theorem isSingleSpaced_between
    (firstTrimmed : IsTrimmed first)
    (firstSingle : IsSingleSpaced first)
    (behindTrimmed : IsTrimmed behind)
    (behindSingle : IsSingleSpaced behind) :
    IsSingleSpaced (first ++ ' ' :: behind) := by
  refine List.isChain_append.mpr ⟨firstSingle, List.isChain_cons.mpr ⟨?_, behindSingle⟩, ?_⟩
  · intro next atFront
    exact .inr (ne_space_of_not_blank (behindTrimmed.1 next atFront))
  · intro last atEnd _ _
    exact .inl (ne_space_of_not_blank (firstTrimmed.2 last atEnd))

theorem isSingleSpaced_spaced
    {words : List (List Char)}
    (trimmed : ∀ word ∈ words, IsTrimmed word ∧ word ≠ [])
    (single : ∀ word ∈ words, IsSingleSpaced word) :
    IsSingleSpaced (spaced words) := by
  induction words with
  | nil =>
      exact .nil
  | cons word words inductionHypothesis =>
      rw [List.forall_mem_cons] at trimmed single
      have rest := inductionHypothesis trimmed.2 single.2
      cases words with
      | nil =>
          simpa [spaced] using single.1
      | cons next words =>
          rw [spaced_cons]
          exact isSingleSpaced_between trimmed.1.1 single.1 (isTrimmed_spaced trimmed.2).1 rest

/-- Two texts in one pair of parentheses, with a space between them. -/
def enclosed (first behind : List Char) : List Char :=
  '(' :: first ++ ' ' :: (behind ++ [')'])

theorem count_enclosed
    (inFirst : ∀ character ∈ first, character ≠ '(' ∧ character ≠ ')')
    (inBehind : ∀ character ∈ behind, character ≠ '(' ∧ character ≠ ')') :
    (enclosed first behind).count '(' = 1 ∧ (enclosed first behind).count ')' = 1 := by
  have notInFirst : '(' ∉ first ∧ ')' ∉ first :=
    ⟨fun member => (inFirst _ member).1 rfl, fun member => (inFirst _ member).2 rfl⟩
  have notInBehind : '(' ∉ behind ∧ ')' ∉ behind :=
    ⟨fun member => (inBehind _ member).1 rfl, fun member => (inBehind _ member).2 rfl⟩
  simp [enclosed, List.count_eq_zero_of_not_mem, notInFirst, notInBehind]

theorem isSingleSpaced_enclosed
    (firstTrimmed : IsTrimmed first)
    (firstSingle : IsSingleSpaced first)
    (behindTrimmed : IsTrimmed behind)
    (behindSingle : IsSingleSpaced behind) :
    IsSingleSpaced (enclosed first behind) := by
  refine isSingleSpaced_between ⟨?_, ?_⟩ ?_ ⟨?_, ?_⟩ ?_
  · rintro _ ⟨⟩
    decide
  · intro last atEnd
    cases first with
    | nil =>
        cases atEnd
        decide
    | cons character rest =>
        exact firstTrimmed.2 last atEnd
  · exact List.isChain_cons.mpr ⟨fun _ _ => .inl (by decide), firstSingle⟩
  · intro next atFront
    cases behind with
    | nil =>
        cases atFront
        decide
    | cons character rest =>
        exact behindTrimmed.1 next atFront
  · intro last atEnd
    rw [List.getLast?_concat] at atEnd
    cases atEnd
    decide
  · refine List.isChain_append.mpr ⟨behindSingle, .singleton _, fun _ _ next atFront => ?_⟩
    cases atFront
    exact .inr (by decide)

end Text

open Text

namespace Unfolding

/-- The texts that the leaves leave behind, as words. -/
def words (unfolding : Unfolding) : List (List Char) :=
  unfolding.texts.map String.toList

theorem words_pair (car cdr : Unfolding) : (pair car cdr).words = car.words ++ cdr.words := by
  rw [words, texts_pair, List.map_append]
  rfl

theorem words_trimmed (unfolding : Unfolding) :
    ∀ word ∈ unfolding.words, IsTrimmed word ∧ word ≠ [] := by
  intro word member
  obtain ⟨text, isText, rfl⟩ := List.mem_map.mp member
  obtain ⟨isLeft, notEmpty⟩ := List.mem_filter.mp isText
  obtain ⟨leaf, _, rfl⟩ := List.mem_map.mp isLeft
  constructor
  · rw [toList_stripParentheses]
    exact isTrimmed_trim _
  · simpa using notEmpty

theorem spaced_words_leaf (text : String) :
    spaced (leaf text).words = (Heap.stripParentheses text).toList := by
  by_cases isEmpty : Heap.stripParentheses text = "" <;>
    simp [words, texts, leaves, isEmpty, spaced]

end Unfolding

namespace Heap

theorem noParentheses_stripParentheses (text : String) :
    ∀ character ∈ (stripParentheses text).toList, character ≠ '(' ∧ character ≠ ')' := by
  intro character member
  rw [toList_stripParentheses] at member
  simpa using List.of_mem_filter (mem_of_mem_trim member)

theorem renderWithin_pair
    {heap : Heap}
    {handle car cdr : Handle}
    (found : heap.get? handle = some (.pair car cdr))
    (levels : Nat) :
    heap.renderWithin (levels + 1) handle =
      "(" ++ stripParentheses (heap.renderWithin levels car) ++
        " " ++ stripParentheses (heap.renderWithin levels cdr) ++ ")" := by
  rw [renderWithin, found]

theorem unfold_pair
    {heap : Heap}
    {handle car cdr : Handle}
    (found : heap.get? handle = some (.pair car cdr))
    (levels : Nat) :
    heap.unfold (levels + 1) handle = .pair (heap.unfold levels car) (heap.unfold levels cdr) := by
  rw [unfold, found]

/-- What is no pair, or is cut off, is rendered as the only leaf of its unfolding. -/
theorem unfold_leaf
    {heap : Heap}
    {handle : Handle}
    (noPair : ∀ car cdr, heap.get? handle ≠ some (.pair car cdr))
    (levels : Nat) :
    heap.unfold levels handle = .leaf (heap.renderWithin levels handle) := by
  cases levels with
  | zero =>
      rfl
  | succ levels =>
      rw [unfold, renderWithin]
      cases found : heap.get? handle with
      | none =>
          rfl
      | some object =>
          cases object with
          | pair car cdr =>
              exact absurd found (noPair car cdr)
          | boolean value =>
              cases value <;> rfl
          | _ =>
              rfl

/--
Stripped of its parentheses, the text of anything that is rendered consists of the texts
that its leaves leave behind.
-/
theorem stripParentheses_renderWithin
    (heap : Heap)
    (levels : Nat)
    (handle : Handle) :
    (stripParentheses (heap.renderWithin levels handle)).toList =
      spaced (heap.unfold levels handle).words := by
  induction levels generalizing handle with
  | zero =>
      exact (Unfolding.spaced_words_leaf ellipsis).symm
  | succ levels inductionHypothesis =>
      by_cases isPair : ∃ car cdr, heap.get? handle = some (.pair car cdr)
      · obtain ⟨car, cdr, found⟩ := isPair
        have carBare := filter_of_noParentheses
          (noParentheses_stripParentheses (heap.renderWithin levels car))
        have cdrBare := filter_of_noParentheses
          (noParentheses_stripParentheses (heap.renderWithin levels cdr))
        -- At this level only the parentheses of the pair itself are left to remove.
        have filtered :
            ((heap.renderWithin (levels + 1) handle).toList.filter fun character =>
                character != '(' && character != ')') =
              (stripParentheses (heap.renderWithin levels car)).toList ++
                ' ' :: (stripParentheses (heap.renderWithin levels cdr)).toList := by
          rw [renderWithin_pair found]
          simp [carBare, cdrBare]
        rw [toList_stripParentheses, filtered, inductionHypothesis, inductionHypothesis,
          unfold_pair found, Unfolding.words_pair]
        exact trim_spaced_append (heap.unfold levels car).words_trimmed
          (heap.unfold levels cdr).words_trimmed
      · push Not at isPair
        rw [unfold_leaf isPair, Unfolding.spaced_words_leaf]

theorem stripParentheses_eq_intercalate
    (heap : Heap)
    (levels : Nat)
    (handle : Handle) :
    stripParentheses (heap.renderWithin levels handle) =
      " ".intercalate (heap.unfold levels handle).texts := by
  rw [← String.toList_inj, stripParentheses_renderWithin, String.toList_intercalate]
  rfl

/--
A pair is rendered as the texts of its leaves, in one pair of parentheses.

It is unfolded as far as a depth of 1000, where the pair itself is at depth zero, and each
text is taken without its parentheses and the blanks around it.  Texts of which nothing is
left leave no space behind either, so no space follows another one unless it does within
the text of a leaf.
-/
theorem render_flattens
    (heap : Heap)
    {handle car cdr : Handle}
    (found : heap.get? handle = some (.pair car cdr)) :
    ∃ carTree cdrTree,
      heap.unfold 1001 handle = .pair carTree cdrTree ∧
        heap.render handle =
          "(" ++ " ".intercalate carTree.texts ++ " " ++ " ".intercalate cdrTree.texts ++ ")" ∧
        (heap.render handle).toList.count '(' = 1 ∧
        (heap.render handle).toList.count ')' = 1 ∧
        ((∀ text ∈ carTree.texts ++ cdrTree.texts, IsSingleSpaced text.toList) →
          IsSingleSpaced (heap.render handle).toList) := by
  have rendered : heap.render handle = _ := renderWithin_pair found renderingDepth
  have characters :
      (heap.render handle).toList =
        enclosed (stripParentheses (heap.renderWithin renderingDepth car)).toList
          (stripParentheses (heap.renderWithin renderingDepth cdr)).toList := by
    rw [rendered]
    simp [enclosed]
  obtain ⟨opened, closed⟩ :=
    count_enclosed
      (noParentheses_stripParentheses (heap.renderWithin renderingDepth car))
      (noParentheses_stripParentheses (heap.renderWithin renderingDepth cdr))
  refine ⟨heap.unfold 1000 car, heap.unfold 1000 cdr, unfold_pair found 1000, ?_, ?_, ?_, ?_⟩
  · rw [rendered, stripParentheses_eq_intercalate, stripParentheses_eq_intercalate]
    rfl
  · rw [characters, opened]
  · rw [characters, closed]
  · intro single
    have carWords := (heap.unfold renderingDepth car).words_trimmed
    have cdrWords := (heap.unfold renderingDepth cdr).words_trimmed
    rw [characters, stripParentheses_renderWithin, stripParentheses_renderWithin]
    refine isSingleSpaced_enclosed (isTrimmed_spaced carWords).1 ?_ (isTrimmed_spaced cdrWords).1 ?_
    · refine isSingleSpaced_spaced carWords (List.forall_mem_map.mpr fun text isText => ?_)
      exact single text (List.mem_append_left _ isText)
    · refine isSingleSpaced_spaced cdrWords (List.forall_mem_map.mpr fun text isText => ?_)
      exact single text (List.mem_append_right _ isText)

/--
A heap with a pair of two pairs.  The second one holds the first one again, behind a list
of the empty list.  The name has parentheses and blanks, and slot 5 is empty.
-/
def sharing : Heap where
  slots :=
    #[some ⟨.symbol " (a b) ", false⟩, some ⟨.nil, false⟩,
      some ⟨.pair (Handle.ofIndex 1) (Handle.ofIndex 1), false⟩,
      some ⟨.pair (Handle.ofIndex 0) (Handle.ofIndex 5), false⟩,
      some ⟨.pair (Handle.ofIndex 2) (Handle.ofIndex 3), false⟩, none,
      some ⟨.pair (Handle.ofIndex 3) (Handle.ofIndex 4), false⟩]
  last := some 6
  live := 6
  initialThreshold := 1
  threshold := 7

/-- The inner pairs, the empty list and the parentheses of the name leave no trace. -/
theorem render_flattens_sharing :
    sharing.get? (Handle.ofIndex 6) = some (.pair (Handle.ofIndex 3) (Handle.ofIndex 4)) ∧
      sharing.render (Handle.ofIndex 6) = "(a b #<free 5> a b #<free 5>)" ∧
      IsSingleSpaced (sharing.render (Handle.ofIndex 6)).toList := by
  have found :
      sharing.get? (Handle.ofIndex 6) = some (.pair (Handle.ofIndex 3) (Handle.ofIndex 4)) :=
    rfl
  obtain ⟨carTree, cdrTree, unfolded, rendered, _, _, single⟩ := render_flattens sharing found
  cases unfolded
  have carTexts : (sharing.unfold 1000 (Handle.ofIndex 3)).texts = ["a b", "#<free 5>"] := by
    decide
  have cdrTexts : (sharing.unfold 1000 (Handle.ofIndex 4)).texts = ["a b", "#<free 5>"] := by
    decide
  rw [carTexts, cdrTexts] at rendered single
  refine ⟨found, rendered, single ?_⟩
  decide

end Heap

end ArenaLisp
