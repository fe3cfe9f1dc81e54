import Recheck.Text.Blank
import Recheck.Text.Split

/-!
# Directives

A directive names another file of the project or of a library: `import`, `export` or `part` at the
start of a line, and a quoted reference. The reference runs to the next quote of either kind.
-/

namespace Recheck

namespace Source

/-- The words that start a directive. -/
def directiveWords : List (List Char) := ["import".toList, "export".toList, "part".toList]

/-- A single or double quote. -/
def isReferenceQuote (c : Char) : Bool := c == '\'' || c == '"'

/-- The reference of a directive after its word, and the text after it. -/
def quotedReference? (cs : List Char) : Option (List Char × List Char) :=
  match cs with
  | c :: rest =>
    if Text.isBlank c then
      match Text.trimLeft rest with
      | q :: rest =>
        if isReferenceQuote q then
          let reference := rest.takeWhile fun c => !isReferenceQuote c
          match rest.drop reference.length with
          | _ :: rest => if reference.isEmpty then none else some (reference, rest)
          | [] => none
        else none
      | [] => none
    else none
  | [] => none

/-- The reference of the directive at the head of a text, and the text after it. -/
def directive? (cs : List Char) : Option (List Char × List Char) :=
  directiveWords.findSome? fun word => (Text.stripStart? word cs).bind quotedReference?

/-- The references of the directives of a text, in order, after dropping `skip` characters. A
directive can start where only blanks follow the start of a line, which `fresh` says of the head of
the text. -/
def referencesFrom : (skip : Nat) → (fresh : Bool) → List Char → List (List Char)
  | _, _, [] => []
  | skip + 1, _, _ :: cs => referencesFrom skip false cs
  | 0, fresh, c :: cs =>
    match if fresh then directive? (c :: cs) else none with
    | some (reference, rest) => reference :: referencesFrom (cs.length - rest.length) false cs
    | none => referencesFrom 0 (c == '\n' || (fresh && Text.isBlank c)) cs

/-- The references of the directives of a source, in order. -/
def references (source : List Char) : List (List Char) := referencesFrom 0 true source

end Source

end Recheck
