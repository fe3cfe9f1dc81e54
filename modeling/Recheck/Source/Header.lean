import Recheck.Declaration
import Recheck.Source.Words

/-!
# Declaration headers

What stands before the brace that opens a declaration, or before the semicolon that ends an alias.
-/

namespace Recheck

namespace Source

/-! ## Clauses -/

/-- The words that start a clause of a header. -/
inductive Clause where
  | extending
  | mixing
  | implementing
  | constraining
deriving DecidableEq

/-- The clause that a word starts. -/
def Clause.ofWord? (word : List Char) : Option Clause :=
  if word = "extends".toList then some .extending
  else if word = "with".toList then some .mixing
  else if word = "implements".toList then some .implementing
  else if word = "on".toList then some .constraining
  else none

/-- The longest stretches of word characters and of other characters, in order. -/
def runs : List Char → List (List Char)
  | [] => []
  | c :: cs =>
    match runs cs with
    | (d :: run) :: rest =>
      if Text.isWordChar c = Text.isWordChar d then (c :: d :: run) :: rest
      else [c] :: (d :: run) :: rest
    | rest => [c] :: rest

/-- The clauses among the stretches of a text, each with the text up to the next one; and first the
text before them all. -/
def clausesOfRuns : List (List Char) → List Char × List (Clause × List Char)
  | [] => ([], [])
  | run :: rest =>
    let (text, clauses) := clausesOfRuns rest
    match Clause.ofWord? run with
    | some clause => ([], (clause, text) :: clauses)
    | none => (run ++ text, clauses)

/-- The clauses of the text after the name in a header. -/
def clauses (text : List Char) : List (Clause × List Char) := (clausesOfRuns (runs text)).2

/-- The last piece of a text cut at its dots. -/
def afterLastDot (cs : List Char) : List Char := (Text.splitOn '.' cs).getLast?.getD []

/-- The type names in a comma-separated list, without qualifiers. -/
def typeNames (list : List Char) : List String :=
  (Text.splitOn ',' list).filterMap fun item =>
    (leadingIdentifier? (afterLastDot (Text.trim item))).map String.ofList

/-- The declaration with the types that a clause names. A constraint counts for mixins only, where
its first type is what the mixin extends. -/
def applyClause (d : Declaration) (clause : Clause × List Char) : Declaration :=
  let names := typeNames clause.2
  match clause.1 with
  | .extending => { d with supertype := names.head? }
  | .mixing => { d with mixins := d.mixins ++ names }
  | .implementing => { d with interfaces := d.interfaces ++ names }
  | .constraining =>
    match d.kind, names with
    | .mixin, name :: names =>
      { d with supertype := some name, interfaces := d.interfaces ++ names }
    | _, _ => d

/-! ## Headers -/

/-- The words that may precede the keyword of a declaration. -/
def modifiers : List (List Char) :=
  ["abstract".toList, "base".toList, "final".toList, "sealed".toList, "interface".toList]

/-- The keywords of declarations, the first that fits counts, and what they declare. -/
def keywords : List (List (List Char) × DeclarationKind) :=
  [(["mixin".toList, "class".toList], .classType),
    (["class".toList], .classType),
    (["mixin".toList], .mixin),
    (["enum".toList], .enumeration),
    (["extension".toList, "type".toList], .extension),
    (["extension".toList], .extension)]

/-- A character that a declared name can start with. -/
def isNameStart (c : Char) : Bool := c.isAlpha || c == '_' || c == '$'

/-- A further character of a declared name. -/
def isNameChar (c : Char) : Bool := Text.isWordChar c || c == '$'

/-- The keyword, the name and the rest of a header without its modifiers. -/
structure Heading where
  keyword : List (List Char)
  kind : DeclarationKind
  name : List Char
  rest : List Char

/-- Reads a header that starts with the given keyword. -/
def headingWith? (words : List (List Char)) (keyword : List (List Char) × DeclarationKind) :
    Option Heading :=
  match Text.stripStart? keyword.1 words with
  | some ((c :: cs) :: more) =>
    if isNameStart c then
      some
        { keyword := keyword.1
          kind := keyword.2
          name := c :: cs.takeWhile isNameChar
          rest := Text.join ' ' (cs.dropWhile isNameChar :: more) }
    else none
  | _ => none

/-- The declaration whose header is the given stretch of source, which starts in `line`. An
extension without a name declares nothing. -/
def declaration? (header : List Char) (file : Path) (line : Nat) : Option Declaration :=
  let words := wordsOf header
  match keywords.findSome? (headingWith? (words.dropWhile modifiers.contains)) with
  | none => none
  | some heading =>
    if heading.keyword = ["extension".toList] ∧ heading.name = "on".toList then none
    else
      let d : Declaration :=
        { name := String.ofList heading.name
          kind := heading.kind
          file
          line := some line
          isAbstract := (words.takeWhile modifiers.contains).contains "abstract".toList }
      some ((clauses (withoutTypeArguments heading.rest)).foldl applyClause d)

/-- The name of the alias that a statement declares. -/
def aliasName? (statement : List Char) : Option (List Char) :=
  match Text.stripStart? "typedef ".toList (clean statement) with
  | none => none
  | some rest =>
    let rest := withoutTypeArguments rest
    if rest.contains '=' then leadingIdentifier? (Text.trim (rest.takeWhile (· ≠ '=')))
    else if rest.contains '(' then trailingIdentifier? (Text.trimRight (rest.takeWhile (· ≠ '(')))
    else none

/-- The alias that a statement declares. -/
def alias? (statement : List Char) (file : Path) (line : Nat) : Option Declaration :=
  (aliasName? statement).map fun name =>
    { name := String.ofList name, kind := .alias, file, line := some line }

end Source

end Recheck
