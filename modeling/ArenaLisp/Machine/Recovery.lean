import ArenaLisp.Machine.Allocation

namespace ArenaLisp

/-!
# Recovery

A recoverable error is recorded and a fresh void takes the place of the value
that could not be computed.  The diagnostics are a window on the recorded
errors: the newest ones since they were last taken, up to a fixed number.
-/

namespace Machine

/-- How many recovered errors are kept. -/
def maxDiagnostics : Nat := 64

/-- A list of errors with one more, without its oldest one if it is full. -/
def remember (diagnostics : List Error) (error : Error) : List Error :=
  if diagnostics.length = maxDiagnostics then
    diagnostics.drop 1 ++ [error]
  else
    diagnostics ++ [error]

/-- Records a recoverable error and answers with a fresh void; a fatal error passes through. -/
def recover (error : Error) : Action Handle := do
  if error.isFatal then
    throw error
  else
    modify fun machine =>
      { machine with diagnostics := remember machine.diagnostics error }
    note (.recovered error)
    allocate .void

/-- Answers with the diagnostics, the oldest first, and forgets them. -/
def takeDiagnostics (machine : Machine) : List Error × Machine :=
  (machine.diagnostics, { machine with diagnostics := [] })

/-- Answers with the journal, the oldest event first, and forgets it. -/
def takeJournal (machine : Machine) : List Event × Machine :=
  (machine.journal.reverse, { machine with journal := [] })

end Machine

end ArenaLisp
