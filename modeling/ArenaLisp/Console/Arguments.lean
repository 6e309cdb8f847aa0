import ArenaLisp.Console.Dialogue

namespace ArenaLisp

/-!
# Command-line arguments

The console is told on the command line whether to hold a dialogue or to
interpret a file.  Options may stand before and after that; a later option
overrides an earlier one.
-/

namespace Console

/-- Where the console takes its input from. -/
inductive Source where
  | dialogue
  | file (path : String)
  deriving Repr, DecidableEq

/-- What the command line asks for. -/
structure Command where
  settings : Settings
  source : Source
  deriving Repr, DecidableEq

/-- What the options of a command line and its other words say so far. -/
structure Arguments where
  settings : Settings
  /-- The words that are no options, the last one first. -/
  words : List String
  deriving Repr, DecidableEq

namespace Arguments

/-- Arguments of which none has been taken. -/
def none : Arguments where
  settings := { showCollections := false, configuration := Configuration.standard }
  words := []

/-- The arguments with every collection shown in the log. -/
def withCollections (arguments : Arguments) : Arguments :=
  { arguments with settings := { arguments.settings with showCollections := true } }

/-- The arguments with a changed configuration. -/
def configured
    (arguments : Arguments)
    (change : Configuration → Configuration) :
    Arguments :=
  { arguments with
    settings :=
      { arguments.settings with
        configuration := change arguments.settings.configuration } }

/-- Sets a numeric option, if the option and the number are understood. -/
def withNumber (arguments : Arguments) (option number : String) : Except String Arguments :=
  match option, number.toNat? with
  | "--capacity", some capacity =>
      .ok (arguments.configured fun configuration =>
        { configuration with capacity := capacity })
  | "--threshold", some threshold =>
      .ok (arguments.configured fun configuration =>
        { configuration with initialThreshold := threshold })
  | _, _ => .error ("invalid value for " ++ option ++ ": " ++ number)

/-- Takes in arguments one after the other. -/
def take (arguments : Arguments) : List String → Except String Arguments
  | [] => .ok arguments
  | "-d" :: rest | "--debug" :: rest => arguments.withCollections.take rest
  | "--eager-define" :: rest =>
      (arguments.configured fun configuration =>
        { configuration with eagerDefinitions := true }).take rest
  | "--capacity" :: number :: rest => do
      (← arguments.withNumber "--capacity" number).take rest
  | "--threshold" :: number :: rest => do
      (← arguments.withNumber "--threshold" number).take rest
  | word :: rest =>
      match word.splitOn "=" with
      | [option, number] => do (← arguments.withNumber option number).take rest
      | _ =>
          if word.startsWith "-" then
            .error ("unexpected argument " ++ word)
          else
            take { arguments with words := word :: arguments.words } rest

/-- The command that arguments make up. -/
def command (arguments : Arguments) : Except String Command :=
  match arguments.words with
  | ["repl"] => .ok { settings := arguments.settings, source := .dialogue }
  | [path, "input"] => .ok { settings := arguments.settings, source := .file path }
  | _ => .error "expected a command: repl, or input and a path"

end Arguments

/-- The command that a command line asks for. -/
def Command.parse (arguments : List String) : Except String Command := do
  (← Arguments.none.take arguments).command

end Console

end ArenaLisp
