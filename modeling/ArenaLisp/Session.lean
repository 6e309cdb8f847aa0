import ArenaLisp.Evaluation.Basic
import ArenaLisp.Heap.Rendering
import ArenaLisp.Reader.Basic

namespace ArenaLisp

/-!
# Sessions

A text is a sequence of expressions.  Each is evaluated before the next one is
read, so nothing that has been read and not evaluated lies outside the roots.
The first error ends the text; the machine stays as the error left it, and
further texts can be evaluated on it.
-/

namespace Machine

/-- Evaluates what is left to a reader and answers with the texts of the values. -/
def evaluateRest (evaluator : Evaluator) (reader : Reader) : Run (List String) :=
  fun machine =>
    match _ : reader.read machine with
    | ((.error error, _), after) => some (.error error, after)
    | ((.ok none, _), after) => some (.ok [], after)
    | ((.ok (some expression), rest), afterReading) =>
        match evaluateTopLevel evaluator expression afterReading with
        | none => none
        | some (.error error, after) => some (.error error, after)
        | some (.ok value, after) =>
            match evaluateRest evaluator rest after with
            | some (.ok texts, final) =>
                some (.ok (after.heap.render value :: texts), final)
            | unfinished => unfinished
termination_by reader.text.length
decreasing_by exact Reader.length_lt_of_read ‹_›

/-- Evaluates every expression of a text and answers with the texts of the values. -/
def evaluateText (evaluator : Evaluator) (text : String) : Run (List String) :=
  evaluateRest evaluator (Reader.ofString text)

/--
A nesting limit for the expressions of a machine.  It allows for expressions
that use every slot of the arena and do not contain themselves.
-/
def nestingLimit (machine : Machine) : Nat :=
  machine.heap.capacity + 1

end Machine

end ArenaLisp
