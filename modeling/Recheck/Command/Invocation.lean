import Recheck.Command.Options
import Recheck.Config.Basic

/-!
# Invocations

What the arguments of the program ask for: a command, with its own options after its name and the
options that all commands share before it.
-/

namespace Recheck

/-- The commands of the program. -/
inductive CommandName where
  | analyze
  | check
  | watch
  | clear
  | version
  | help
deriving DecidableEq

namespace CommandName

/-- All commands, in the order in which they are listed. -/
def all : List CommandName := [analyze, check, watch, clear, version, help]

/-- The name of a command. -/
def text : CommandName → String
  | analyze => "analyze"
  | check => "check"
  | watch => "watch"
  | clear => "clear"
  | version => "version"
  | help => "help"

/-- What a command does. -/
def about : CommandName → String
  | analyze => "Analyze the project, reusing cached results for unchanged files"
  | check => "Analyze and exit non-zero on dependency cycles or resolve failures"
  | watch => "Re-analyze whenever sources change"
  | clear => "Clear the cache"
  | version => "Show version"
  | help => "Print this message or the help of the given subcommand(s)"

/-- The command with a name. -/
def ofText? (name : String) : Option CommandName := all.find? fun c => c.text = name

end CommandName

/-- The options before the command. -/
def sharedRules : List OptionRule :=
  [{ long := "verbose", short := some 'v', about := "Enable verbose logging" },
    { long := "root"
      short := some 'r'
      value := some ("ROOT", fun text => !text.isEmpty)
      about := "Project root path (defaults to current directory) [default: .]" },
    helpRule]

/-- The options of a command. -/
def CommandName.rules : CommandName → List OptionRule
  | analyze =>
    [{ long := "no-cache", about := "Ignore and do not update the cache" },
      { long := "report", about := "Write a JSON run report" },
      { long := "jobs"
        short := some 'j'
        value := some ("JOBS", fun text => (Config.count? text.toList).isSome)
        about := "Worker threads (0 = all cores)" },
      helpRule]
  | help => []
  | _ => [helpRule]

/-- What a command is to do. -/
inductive Command where
  | analyze (noCache report : Bool) (jobs : Option Nat)
  | check
  | watch
  | clear
  | version
deriving DecidableEq

/-- A command with the options that all commands share. -/
structure Invocation where
  command : Command
  verbose : Bool := false
  root : Path := ⟨"."⟩
deriving DecidableEq

/-- Why arguments ask for no command. -/
inductive Refusal where
  /-- They ask for help with a command or, if there is none, with the program. -/
  | help (topic : Option CommandName)
  | invalid
deriving DecidableEq

namespace Invocation

/-- The refusal for options that stopped, of a command or of the program. -/
def refusalOf (topic : Option CommandName) : OptionStop → Refusal
  | .help => .help topic
  | .invalid => .invalid

/-- Reads the names after the command `help`. No command has commands of its own. -/
def readHelp : List String → Refusal
  | [] => .help none
  | [name] =>
    match CommandName.ofText? name with
    | some c => .help (some c)
    | none => .invalid
  | _ :: _ :: _ => .invalid

/-- What a command is to do by its options. -/
def commandOf (o : Options) : CommandName → Command
  | .analyze =>
    .analyze (o.has "no-cache") (o.has "report")
      ((o.value? "jobs").bind fun text => Config.count? text.toList)
  | .check => .check
  | .watch => .watch
  | .clear => .clear
  | .version => .version
  | .help => .version

/-- Reads the arguments after the name of a command. -/
def readCommand (name : CommandName) (arguments : List String) : Except Refusal Command :=
  match Options.readAll name.rules (fun _ => false) {} arguments with
  | .error e => .error (refusalOf (some name) e)
  | .ok (o, _) =>
    match o.settle with
    | .error e => .error (refusalOf (some name) e)
    | .ok o => .ok (commandOf o name)

/-- Reads the arguments of the program. -/
def ofArguments (arguments : List String) : Except Refusal Invocation :=
  let isCommand (text : String) : Bool := (CommandName.ofText? text).isSome
  match Options.readAll sharedRules isCommand {} arguments with
  | .error e => .error (refusalOf none e)
  | .ok (_, []) => .error .invalid
  | .ok (o, text :: rest) =>
    match CommandName.ofText? text with
    | none => .error .invalid
    | some .help => .error (readHelp rest)
    | some name =>
      match readCommand name rest with
      | .error e => .error e
      | .ok command =>
        match o.settle with
        | .error e => .error (refusalOf none e)
        | .ok o =>
          .ok
            { command
              verbose := o.has "verbose"
              root := .ofText ((o.value? "root").getD ".") }

end Invocation

end Recheck
