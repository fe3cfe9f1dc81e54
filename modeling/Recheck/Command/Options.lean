/-!
# Reading options

Options in the arguments of a command. An option is written in its long form, `--name`, or as a
letter after a dash; letters without a value can share one dash. A value follows as the next
argument, after an equals sign, or right after the letter. No option may be given twice.

An argument that follows an option is looked at only when the next option comes or the arguments
end, so `Options` keeps it waiting.
-/

namespace Recheck

/-- An option that a command accepts. -/
structure OptionRule where
  long : String
  short : Option Char := none
  /-- What its value is called and which values are accepted, if it takes one. -/
  value : Option (String × (String → Bool)) := none
  about : String

/-- Whether an option takes a value. -/
def OptionRule.takesValue (r : OptionRule) : Bool := r.value.isSome

/-- Whether a value is accepted. -/
def OptionRule.accepts (r : OptionRule) (text : String) : Bool := r.value.any fun v => v.2 text

/-- The option that asks for help. Every command accepts it. -/
def helpRule : OptionRule := { long := "help", short := some 'h', about := "Print help" }

/-- Why options are not read to their end. -/
inductive OptionStop where
  | help
  | invalid
deriving DecidableEq

/-- An option whose value is not checked yet, or has not come yet. -/
structure WaitingOption where
  rule : OptionRule
  value : Option String := none

/-- The options read so far. -/
structure Options where
  /-- The long forms of the options with their values, which are empty for options without one. -/
  given : List (String × String) := []
  waiting : Option WaitingOption := none

namespace Options

/-- Whether an option was given. -/
def has (o : Options) (name : String) : Bool := o.given.any fun e => e.1 = name

/-- The value of an option. -/
def value? (o : Options) (name : String) : Option String :=
  (o.given.find? fun e => e.1 = name).map (·.2)

/-- Takes an option. -/
def give (o : Options) (name value : String) : Except OptionStop Options :=
  if o.has name then .error .invalid
  else .ok { given := o.given ++ [(name, value)], waiting := none }

/-- Checks the option that waits. -/
def settle (o : Options) : Except OptionStop Options :=
  match o.waiting with
  | none => .ok o
  | some ⟨_, none⟩ => .error .invalid
  | some ⟨rule, some value⟩ =>
    if rule.accepts value then o.give rule.long value else .error .invalid

/-- Whether the next argument is the value of an option. -/
def wantsValue (o : Options) : Bool := o.waiting.any fun w => w.value.isNone

/-- Takes an option with a value that is part of the same argument. -/
def giveWith (o : Options) (rule : OptionRule) (value : String) : Except OptionStop Options :=
  match o.settle with
  | .error e => .error e
  | .ok o => { o with waiting := some ⟨rule, some value⟩ }.settle

/-- Takes an option that no value is part of. -/
def giveAlone (o : Options) (rule : OptionRule) : Except OptionStop Options :=
  match o.settle with
  | .error e => .error e
  | .ok o =>
    if rule.long = helpRule.long then .error .help
    else if rule.takesValue then .ok { o with waiting := some ⟨rule, none⟩ }
    else o.give rule.long ""

/-- Reads an option in its long form. -/
def readLong (rules : List OptionRule) (o : Options) (text : List Char) :
    Except OptionStop Options :=
  let name := String.ofList (text.takeWhile (· ≠ '='))
  match rules.find? fun r => r.long = name, text.dropWhile (· ≠ '=') with
  | none, _ => .error .invalid
  | some rule, [] => o.giveAlone rule
  | some rule, _ :: value =>
    if rule.takesValue then o.giveWith rule (String.ofList value) else .error .invalid

/-- Reads the letters after a dash. -/
def readShort (rules : List OptionRule) (o : Options) : List Char → Except OptionStop Options
  | [] => .ok o
  | c :: rest =>
    match rules.find? fun r => r.short = some c with
    | none => .error .invalid
    | some rule =>
      if rule.takesValue && !rest.isEmpty then
        match rest with
        | '=' :: value => o.giveWith rule (String.ofList value)
        | value => o.giveWith rule (String.ofList value)
      else
        match o.giveAlone rule with
        | .error e => .error e
        | .ok o => readShort rules o rest

/-- Reads an argument that is neither a command nor `--`. -/
def readArgument (rules : List OptionRule) (o : Options) (text : String) :
    Except OptionStop Options :=
  match text.toList with
  | '-' :: '-' :: long => o.readLong rules long
  | '-' :: c :: letters => o.readShort rules (c :: letters)
  | _ =>
    match o.waiting with
    | some ⟨rule, none⟩ => .ok { o with waiting := some ⟨rule, some text⟩ }
    | _ => .error .invalid

/-- Reads arguments up to the first one that names a command, which is left with those after it.
Nothing may follow `--`. -/
def readAll (rules : List OptionRule) (isCommand : String → Bool) (o : Options) :
    List String → Except OptionStop (Options × List String)
  | [] => .ok (o, [])
  | text :: rest =>
    if isCommand text && !o.wantsValue then .ok (o, text :: rest)
    else if text = "--" then if rest.isEmpty then .ok (o, []) else .error .invalid
    else
      match o.readArgument rules text with
      | .error e => .error e
      | .ok o => readAll rules isCommand o rest

end Options

end Recheck
