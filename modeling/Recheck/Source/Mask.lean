/-!
# Masking comments and literals

Before a source is looked at, its comments and the contents of its string literals are replaced by
spaces, one for each byte, so that no brace or semicolon in them is taken for code. Newlines and the
quotes around literals stay.

* A line comment runs from `//` to the end of the line.
* A block comment runs from `/*` to its own `*/`; block comments nest.
* A literal in single or double quotes ends at the same quote or at the end of the line, one in
  triple quotes at the same three quotes. A backslash in either takes the next character with it,
  also a newline.
-/

namespace Recheck

namespace Source

/-- What a position of a source lies in. -/
inductive Region where
  | code
  | lineComment
  /-- A block comment, and how many others it is nested in. -/
  | blockComment (outer : Nat)
  | literal (quote : Char)
  | tripleLiteral (quote : Char)
deriving DecidableEq

/-- A masked character: spaces for its bytes, or the newline that it is. -/
def blank (c : Char) : List Char := if c = '\n' then ['\n'] else List.replicate c.utf8Size ' '

/-- Whether a character opens and closes literals. -/
def isQuote (c : Char) : Bool := c == '\'' || c == '"'

/-- The masked form of a source from a position in a region on. -/
def maskFrom : Region → List Char → List Char
  | _, [] => []
  | .code, '/' :: '/' :: cs => ' ' :: ' ' :: maskFrom .lineComment cs
  | .code, '/' :: '*' :: cs => ' ' :: ' ' :: maskFrom (.blockComment 0) cs
  | .code, c :: d :: e :: cs =>
    if isQuote c then
      if d = c ∧ e = c then c :: d :: e :: maskFrom (.tripleLiteral c) cs
      else c :: maskFrom (.literal c) (d :: e :: cs)
    else c :: maskFrom .code (d :: e :: cs)
  | .code, c :: cs => c :: maskFrom (if isQuote c then .literal c else .code) cs
  | .lineComment, c :: cs =>
    if c = '\n' then c :: maskFrom .code cs else blank c ++ maskFrom .lineComment cs
  | .blockComment outer, '/' :: '*' :: cs => ' ' :: ' ' :: maskFrom (.blockComment (outer + 1)) cs
  | .blockComment 0, '*' :: '/' :: cs => ' ' :: ' ' :: maskFrom .code cs
  | .blockComment (outer + 1), '*' :: '/' :: cs => ' ' :: ' ' :: maskFrom (.blockComment outer) cs
  | .blockComment outer, c :: cs => blank c ++ maskFrom (.blockComment outer) cs
  | .literal q, c :: cs =>
    if c = q ∨ c = '\n' then c :: maskFrom .code cs
    else if c = '\\' then
      match cs with
      | [] => blank c
      | d :: cs => blank c ++ (blank d ++ maskFrom (.literal q) cs)
    else blank c ++ maskFrom (.literal q) cs
  | .tripleLiteral q, c :: cs =>
    if c = '\\' then
      match cs with
      | [] => blank c
      | d :: cs => blank c ++ (blank d ++ maskFrom (.tripleLiteral q) cs)
    else
      match cs with
      | d :: e :: rest =>
        if c = q ∧ d = q ∧ e = q then c :: d :: e :: maskFrom .code rest
        else blank c ++ maskFrom (.tripleLiteral q) (d :: e :: rest)
      | cs => blank c ++ maskFrom (.tripleLiteral q) cs

/-- The masked form of a source. -/
def mask (source : List Char) : List Char := maskFrom .code source

end Source

end Recheck
