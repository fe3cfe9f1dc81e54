import Recheck.Text.Blank
import Recheck.Text.Split

/-!
# File contents

The content of a file is compared in a normal form that hides line endings and blanks at the ends of
lines and of the whole: lines end at a line feed, at a carriage return, or at both together,
trailing ASCII blanks are removed from each, the lines are joined by line feeds, and the whole is
trimmed. It is defined on bytes, so content that is no text has a normal form too.
-/

namespace Recheck

namespace Content

/-- Line feed. -/
def lineFeed : UInt8 := 0x0A

/-- Carriage return. -/
def carriageReturn : UInt8 := 0x0D

/-- The lines of a content, without their ends; never an empty list. -/
def lines : List UInt8 → List (List UInt8)
  | [] => [[]]
  | [b] => if b = lineFeed ∨ b = carriageReturn then [[], []] else [[b]]
  | b :: c :: bs =>
    if b = carriageReturn ∧ c = lineFeed then [] :: lines bs
    else if b = lineFeed ∨ b = carriageReturn then [] :: lines (c :: bs)
    else
      match lines (c :: bs) with
      | [] => [[b]]
      | line :: rest => (b :: line) :: rest

/-- The bytes without ASCII blanks at the end. -/
def trimEnd (bs : List UInt8) : List UInt8 := Text.dropRightWhile Text.isAsciiBlank bs

/-- The bytes without ASCII blanks at either end. -/
def trim (bs : List UInt8) : List UInt8 := trimEnd (bs.dropWhile Text.isAsciiBlank)

/-- The normal form of a content. -/
def normalize (bs : List UInt8) : List UInt8 :=
  trim (Text.join lineFeed ((lines bs).map trimEnd))

end Content

end Recheck
