import Recheck.Text.Blank
import Recheck.Text.Split
import Recheck.Text.Word

/-!
# The words of a source

Small readers on stretches of masked source: removing annotations and type arguments, and finding
the identifiers at the ends of a stretch.
-/

namespace Recheck

namespace Source

/-! ## Annotations -/

/-- A character of an annotation's name. -/
def isAnnotationChar (c : Char) : Bool := Text.isWordChar c || c == '$' || c == '.'

/-- The length of the parenthesized arguments at the head of a text, blanks before them included;
zero if there are none. They end at the first closing parenthesis. -/
def argumentsLength (cs : List Char) : Nat :=
  let blanks := (cs.takeWhile Text.isBlank).length
  match cs.drop blanks with
  | '(' :: rest =>
    let inner := (rest.takeWhile (· ≠ ')')).length
    if inner < rest.length then blanks + inner + 2 else 0
  | _ => 0

/-- The length of an annotation after its `@`, zero if no name follows. -/
def annotationLength (cs : List Char) : Nat :=
  let name := (cs.takeWhile isAnnotationChar).length
  if name = 0 then 0 else name + argumentsLength (cs.drop name)

/-- The text with a space in place of each annotation, after dropping `skip` characters. -/
def withoutAnnotations : (skip : Nat) → List Char → List Char
  | _, [] => []
  | skip + 1, _ :: cs => withoutAnnotations skip cs
  | 0, c :: cs =>
    let length := if c = '@' then annotationLength cs else 0
    (if length = 0 then c else ' ') :: withoutAnnotations length cs

/-- The words of a stretch of source, without annotations. -/
def wordsOf (segment : List Char) : List (List Char) := Text.words (withoutAnnotations 0 segment)

/-- A stretch of source without annotations, its words separated by single spaces. -/
def clean (segment : List Char) : List Char := Text.join ' ' (wordsOf segment)

/-! ## Type arguments -/

/-- The text outside angle brackets, from inside `depth` of them on. A closing bracket without a
partner stays. -/
def outsideAngles : (depth : Nat) → List Char → List Char
  | _, [] => []
  | depth, '<' :: cs => outsideAngles (depth + 1) cs
  | depth + 1, '>' :: cs => outsideAngles depth cs
  | 0, c :: cs => c :: outsideAngles 0 cs
  | depth + 1, _ :: cs => outsideAngles (depth + 1) cs

/-- The text without type arguments. -/
def withoutTypeArguments (cs : List Char) : List Char := outsideAngles 0 cs

/-! ## Identifiers -/

/-- An ASCII letter or digit, an underscore or a dollar sign. -/
def isIdentifierChar (c : Char) : Bool := c.isAlphanum || c == '_' || c == '$'

/-- A run of identifier characters is an identifier if it does not start with a digit. -/
def identifier? (run : List Char) : Option (List Char) :=
  match run with
  | c :: _ => if c.isDigit then none else some run
  | [] => none

/-- The identifier that a text starts with. -/
def leadingIdentifier? (cs : List Char) : Option (List Char) :=
  identifier? (cs.takeWhile isIdentifierChar)

/-- The identifier that a text ends with. -/
def trailingIdentifier? (cs : List Char) : Option (List Char) :=
  identifier? (cs.reverse.takeWhile isIdentifierChar).reverse

end Source

end Recheck
