import ArenaLisp.Console.Printing
import ArenaLisp.Machine.Creation

namespace ArenaLisp

/-!
# The console

The console interprets either a whole file or the lines of a dialogue.

In a dialogue lines are collected until they have closed as many parentheses as
they opened; only then are they evaluated together.  The count is of
characters, so a parenthesis in a comment counts as well.  Collected lines that
are all blank are dropped, and so are lines still waiting at the end of input.

Both kinds of input arrive as bytes.  Bytes that are not UTF-8 end the run: as a
failure to load for a file, and without a failure for a dialogue.
-/

namespace Console

/-- What can be chosen when the console is started. -/
structure Settings where
  /-- Whether every collection is logged. -/
  showCollections : Bool
  configuration : Configuration
  deriving Repr, DecidableEq

/-- What the console wrote, and its exit status. -/
structure Transcript where
  output : String
  errors : String
  status : Nat
  deriving Repr, DecidableEq

/-- The transcript of a run that wrote these pieces and ended with a status. -/
def transcript (emissions : List Emission) (status : Nat) : Transcript where
  output := String.join (emissions.map Emission.output)
  errors := String.join (emissions.map Emission.errors)
  status := status

/-- The description of input that is not UTF-8. -/
def encodingFault : String :=
  "stream did not contain valid UTF-8"

/-- The text that bytes encode, if they are UTF-8. -/
def decode? (bytes : List UInt8) : Option String :=
  String.fromUTF8? ⟨bytes.toArray⟩

/-- Starts a machine for the console; the log of the start comes with it. -/
def start (settings : Settings) : List Emission × Outcome :=
  match Machine.start settings.configuration with
  | (.ok (), machine) =>
      let logged := takeLog settings.showCollections machine
      (logged.1, .ready logged.2)
  | (.error error, machine) =>
      ((takeLog settings.showCollections machine).1 ++ [fatal error],
        .ended failureStatus)

/-- The interpreter that the console uses for a machine. -/
def interpreter (machine : Machine) : Evaluator :=
  evaluator Library.empty machine.nestingLimit

/-- The description of a file that cannot be loaded. -/
def unloadable (path description : String) : Emission :=
  .failure ("Error loading " ++ path ++ ": " ++ description)

/-- Evaluates the contents of a file on a machine. -/
def runFile
    (settings : Settings)
    (path : String)
    (contents : List UInt8)
    (machine : Machine) :
    List Emission × Nat :=
  match decode? contents with
  | none => ([unloadable path encodingFault], failureStatus)
  | some text =>
      match printText settings.showCollections (interpreter machine) text machine with
      | (emissions, .ready _) => (emissions, 0)
      | (emissions, .ended status) => (emissions, status)

/-- A dialogue between two lines. -/
structure Dialogue where
  machine : Machine
  /-- The lines that have been collected and not evaluated. -/
  collected : String
  /-- How many parentheses of the collected lines are open. -/
  depth : Int
  deriving Repr, DecidableEq

/-- The dialogue in which nothing has been said. -/
def Dialogue.begin (machine : Machine) : Dialogue where
  machine := machine
  collected := ""
  depth := 0

/-- What stands before a line: a mark for a new input, or a space for more of it. -/
def Dialogue.prompt (dialogue : Dialogue) : Emission :=
  .prompt (if dialogue.depth = 0 then "> " else "  ")

/-- How many more parentheses a text opens than it closes. -/
def parenthesisBalance (text : String) : Int :=
  (text.toList.count '(' : Int) - (text.toList.count ')' : Int)

/-- How a dialogue goes on after a line. -/
inductive Turn where
  | next (dialogue : Dialogue)
  | ended (status : Nat)
  deriving Repr, DecidableEq

/-- Takes in a line of text, and evaluates what has been collected if it is complete. -/
def Dialogue.takeLine
    (settings : Settings)
    (dialogue : Dialogue)
    (line : String) :
    List Emission × Turn :=
  let depth := dialogue.depth + parenthesisBalance line
  let collected := dialogue.collected ++ line
  if 0 < depth then
    ([], .next { dialogue with collected := collected, depth := depth })
  else if Text.isAllBlank collected.toList then
    ([], .next (Dialogue.begin dialogue.machine))
  else
    let printed :=
      printText settings.showCollections (interpreter dialogue.machine) collected
        dialogue.machine
    match printed.2 with
    | .ready machine => (printed.1, .next (Dialogue.begin machine))
    | .ended status => (printed.1, .ended status)

/-- Takes in the bytes of a line; bytes that are not UTF-8 end the dialogue. -/
def Dialogue.takeBytes
    (settings : Settings)
    (dialogue : Dialogue)
    (line : List UInt8) :
    List Emission × Turn :=
  match decode? line with
  | none => ([.failure ("Read error: " ++ encodingFault)], .ended 0)
  | some text => dialogue.takeLine settings text

/-- Takes in lines until they end or the dialogue does. -/
def Dialogue.run
    (settings : Settings)
    (dialogue : Dialogue) :
    List (List UInt8) → List Emission × Nat
  | [] => ([dialogue.prompt], 0)
  | line :: rest =>
      match dialogue.takeBytes settings line with
      | (emissions, .ended status) => (dialogue.prompt :: emissions, status)
      | (emissions, .next following) =>
          let later := following.run settings rest
          (dialogue.prompt :: emissions ++ later.1, later.2)

/-- Cuts bytes after each line feed; the last line may lack one. -/
def lines : List UInt8 → List (List UInt8)
  | [] => []
  | first :: rest =>
      if first = 0x0a then
        [first] :: lines rest
      else
        match lines rest with
        | [] => [[first]]
        | line :: later => (first :: line) :: later

/-- What the console reads. -/
inductive Input where
  | file (path : String) (contents : List UInt8)
  | dialogue (bytes : List UInt8)
  deriving Repr, DecidableEq

/-- Runs the console on a whole input. -/
def run (settings : Settings) (input : Input) : Transcript :=
  match start settings with
  | (emissions, .ended status) => transcript emissions status
  | (emissions, .ready machine) =>
      let body :=
        match input with
        | .file path contents => runFile settings path contents machine
        | .dialogue bytes => (Dialogue.begin machine).run settings (lines bytes)
      transcript (emissions ++ body.1) body.2

end Console

end ArenaLisp
