import ArenaLisp.Console.Arguments

namespace ArenaLisp

/-!
# The program

Reads bytes, hands them to the console, and writes what it answers.  A dialogue
is answered line by line.
-/

namespace Console

/-- Writes emissions to the two outputs, in their order. -/
def write (emissions : List Emission) : IO Unit := do
  let output ← IO.getStdout
  let errors ← IO.getStderr
  for emission in emissions do
    output.putStr emission.output
    errors.putStr emission.errors
  output.flush

/-- Reads bytes up to and including a line feed, or to the end of the input. -/
partial def readLine (input : IO.FS.Stream) (line : Array UInt8) : IO (List UInt8) := do
  let bytes ← input.read 1
  match bytes.data[0]? with
  | none => return line.toList
  | some byte =>
      let extended := line.push byte
      if byte = 0x0a then
        return extended.toList
      else
        readLine input extended

/-- Holds a dialogue until its input ends or the dialogue does. -/
partial def converse
    (settings : Settings)
    (dialogue : Dialogue)
    (input : IO.FS.Stream) :
    IO Nat := do
  write [dialogue.prompt]
  let line ← readLine input #[]
  if line.isEmpty then
    return 0
  else
    let (emissions, turn) := dialogue.takeBytes settings line
    write emissions
    match turn with
    | .ended status => return status
    | .next following => converse settings following input

/-- The lines that greet a person at a terminal. -/
def greeting (settings : Settings) : List Emission :=
  [.value "Basic Lisp interpreter with Mark and Sweep GC"] ++
    (if settings.showCollections then [.value "GC logging active"] else []) ++
    [.value ""]

/-- The description of why a file cannot be read. -/
def describe : IO.Error → String
  | .noFileOrDirectory _ _ _ => "No such file or directory (os error 2)"
  | .permissionDenied _ _ _ => "Permission denied (os error 13)"
  | error => toString error

/-- Interprets a file, and answers with an exit status. -/
def interpret (settings : Settings) (path : String) (machine : Machine) : IO Nat := do
  try
    let contents ← IO.FS.readBinFile path
    let (emissions, status) := runFile settings path contents.data.toList machine
    write emissions
    return status
  catch error =>
    write [unloadable path (describe error)]
    return failureStatus

/-- Does what a command asks for, and answers with an exit status. -/
def execute (command : Command) : IO Nat := do
  let (emissions, outcome) := start command.settings
  write emissions
  match outcome, command.source with
  | .ended status, _ => return status
  | .ready machine, .file path => interpret command.settings path machine
  | .ready machine, .dialogue => do
      let input ← IO.getStdin
      if ← input.isTty then
        write (greeting command.settings)
      converse command.settings (Dialogue.begin machine) input

end Console

end ArenaLisp

/-- Runs the console as the command line asks. -/
def main (arguments : List String) : IO UInt32 := do
  match ArenaLisp.Console.Command.parse arguments with
  | .ok command => return UInt32.ofNat (← ArenaLisp.Console.execute command)
  | .error description =>
      ArenaLisp.Console.write [.failure ("error: " ++ description)]
      return 2
