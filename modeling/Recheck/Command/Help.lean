import Recheck.Command.Invocation

/-!
# Help texts

The help for the program and for each command, built from the options that they accept.
-/

namespace Recheck.Help

/-- How an option is written. -/
def optionText (r : OptionRule) : String :=
  (match r.short with
    | some c => "-" ++ c.toString ++ ", "
    | none => "    ") ++
    "--" ++ r.long ++
    (match r.value with
    | some v => " <" ++ v.1 ++ ">"
    | none => "")

/-- The width of the widest of some texts. -/
def widest (texts : List String) : Nat :=
  texts.foldl (fun n text => if n < text.length then text.length else n) 0

/-- A section: a title, and rows of two columns under it. -/
def table (title : String) (rows : List (String × String)) : List String :=
  let width := widest (rows.map (·.1))
  (title ++ ":") ::
    rows.map fun (left, right) =>
      "  " ++ left ++ String.ofList (List.replicate (width - left.length) ' ') ++ "  " ++ right

/-- The section of options. -/
def options (rules : List OptionRule) : List String :=
  table "Options" (rules.map fun r => (optionText r, r.about))

/-- The section of commands. -/
def commands : List String := table "Commands" (CommandName.all.map fun c => (c.text, c.about))

/-- Sections with a blank line between each two. -/
def sections (parts : List (List String)) : List String := List.intercalate [""] parts

/-- The help for the program. -/
def program : List String :=
  sections
    [["Incremental dependency-ordered analysis for UI projects"],
      ["Usage: trellis [OPTIONS] <COMMAND>"], commands, options sharedRules]

/-- The help for a command. -/
def command (c : CommandName) : List String :=
  let usage := "Usage: trellis " ++ c.text
  match c with
  | .help =>
    sections
      [[c.about], [usage ++ " [COMMAND]..."],
        table "Arguments" [("[COMMAND]...", "Print help for the subcommand(s)")]]
  | .analyze => sections [[c.about], [usage ++ " [OPTIONS]"], options c.rules]
  | _ => sections [[c.about], [usage], options c.rules]

/-- The help for a command or, if there is none, for the program. -/
def lines : Option CommandName → List String
  | some c => command c
  | none => program

end Recheck.Help
