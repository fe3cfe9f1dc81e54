import Recheck.Glob.Match
import Recheck.Path
import Recheck.Text.Blank
import Recheck.Text.Split
import Recheck.Text.Utf8

/-!
# Rules of ignore files

Each line of an ignore file is a rule: a glob pattern for paths relative to the directory of the
file.

* A line that starts with `#` is a comment, and `!` in front turns a rule into an exception.
* A rule with a slash at its end is for directories only.
* A rule with a slash anywhere else is for whole paths; any other rule is for names at any depth.
* A backslash keeps a `#`, a `!` or a space at the end as they are.

Of the rules of a file that match, the last decides. Lines that are no pattern are passed over.
-/

namespace Recheck.Ignore

/-- What rules say about a path. -/
inductive Verdict where
  | ignored
  | included
deriving DecidableEq

/-- A rule of an ignore file. -/
structure Rule where
  glob : Glob
  verdict : Verdict
  dirsOnly : Bool

/-- Patterns in ignore files: only `**` passes slashes, and stray brackets are literal. -/
def options : Glob.Options := { slashSeparates := true, lenientBrackets := true }

/-- Whether a pattern already leads through directories. -/
def startsAnywhere (pattern : List Char) : Bool :=
  "**/".toList.isPrefixOf pattern || pattern == "**".toList

/-- The pattern of a rule. One without a slash is for names at any depth, and one that ends in `/**`
is for what is inside the directory but not for the directory. -/
def patternOf (anchored : Bool) (text : List Char) : List Char :=
  let pattern :=
    if !anchored && !text.contains '/' && !startsAnywhere text then "**/".toList ++ text else text
  if "**/".toList.isPrefixOf pattern.reverse then pattern ++ "/*".toList else pattern

/-- Removes the slash that restricts a rule to directories, and a backslash before it. -/
def dropDirSlash (text : List Char) : Bool × List Char :=
  match text.reverse with
  | '/' :: '\\' :: rest => (true, rest.reverse)
  | '/' :: rest => (true, rest.reverse)
  | _ => (false, text)

/-- The rule of a line. -/
def Rule.ofLine? (line : List Char) : Option Rule :=
  if line.head? == some '#' then none
  else
    let text := if [' ', '\\'].isPrefixOf line.reverse then line else Text.trimRight line
    if text.isEmpty then none
    else
      let (verdict, text) : Verdict × List Char :=
        match text with
        | '!' :: rest => (.included, rest)
        | _ => (.ignored, text)
      let (anchored, text) : Bool × List Char :=
        match text with
        | '/' :: rest => (true, rest)
        | '\\' :: '!' :: rest => (false, if verdict = .ignored then '!' :: rest else text)
        | '\\' :: '#' :: rest => (false, if verdict = .ignored then '#' :: rest else text)
        | _ => (false, text)
      let (dirsOnly, text) := dropDirSlash text
      match Glob.ofPattern options (String.ofList (patternOf anchored text)) with
      | .ok glob => some { glob, verdict, dirsOnly }
      | .error _ => none

/-- The lines of a file as texts, up to the first that is not UTF-8. A carriage return before a line
feed does not count. -/
def linesOf : List (List UInt8) → List (List Char)
  | [] => []
  | [last] =>
    match Text.ofBytes? last with
    | some s => [s.toList]
    | none => []
  | line :: rest =>
    match Text.ofBytes? line with
    | some s =>
      let cs := s.toList
      (if cs.getLast? == some '\r' then cs.dropLast else cs) :: linesOf rest
    | none => []

/-- The first line without byte order marks at its start. -/
def dropMarks : List (List Char) → List (List Char)
  | [] => []
  | line :: rest => line.dropWhile (·.toNat == 0xFEFF) :: rest

/-- The rules of a file. -/
def rulesOf (content : List UInt8) : List Rule :=
  (dropMarks (linesOf (Text.splitOn 0x0A content))).filterMap Rule.ofLine?

/-- What the rules of a file say about a path relative to it. -/
def verdict? (rules : List Rule) (path : Path) (isDir : Bool) : Option Verdict :=
  (rules.reverse.find? fun r => (!r.dirsOnly || isDir) && r.glob.isMatch path.bytes).map (·.verdict)

end Recheck.Ignore
