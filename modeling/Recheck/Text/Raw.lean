import Recheck.Text.Utf8

/-!
# Raw texts

The names of files are strings of bytes. Most of them are UTF-8, but a system accepts others too. A
raw text holds such a string with one character for each byte, the one that has the number of the
byte. An ASCII text is its own raw text.

`Text.shown` is what a user gets to see of a raw text. Where the bytes are not UTF-8 it puts U+FFFD
for each byte that begins no character, and for each character that is begun and not ended. So
different raw texts can be shown alike.
-/

namespace Recheck

namespace Text

/-- The raw text with the given bytes. -/
def raw (bs : List UInt8) : String := String.ofList (bs.map Char.ofUInt8)

/-- The bytes of a raw text. -/
def rawBytes (s : String) : List UInt8 := s.toList.map Char.toUInt8

/-- The raw text that holds the encoding of a text. -/
def encoded (s : String) : String := raw (bytes s)

/-- The text whose encoding a raw text holds, if it is UTF-8. -/
def decoded? (s : String) : Option String := ofBytes? (rawBytes s)

/-! ## Bytes that are not UTF-8 -/

/-- The number of bytes of a character, by the first of them; zero if no character begins so. -/
def encodingLength (first : UInt8) : Nat :=
  if first < 0x80 then 1
  else if first < 0xC2 then 0
  else if first < 0xE0 then 2
  else if first < 0xF0 then 3
  else if first < 0xF5 then 4
  else 0

/-- Whether a byte can come next in a character that is begun. -/
def canFollow (begun : List UInt8) (b : UInt8) : Bool :=
  let (low, high) : UInt8 × UInt8 :=
    match begun with
    | [0xE0] => (0xA0, 0xBF)
    | [0xED] => (0x80, 0x9F)
    | [0xF0] => (0x90, 0xBF)
    | [0xF4] => (0x80, 0x8F)
    | _ => (0x80, 0xBF)
  low ≤ b && b ≤ high

/-- What stands for bytes that are no character. -/
def replacement : Char := '�'

/-- The mark for a character that is begun and not ended. -/
def brokenOff (begun : List UInt8) : List Char := if begun.isEmpty then [] else [replacement]

/-- The character that bytes make up, if they end it, and otherwise the character that is begun. -/
def takeUp (bs : List UInt8) : List Char × List UInt8 :=
  let length := (bs.head?.map encodingLength).getD 0
  if length = 0 then ([replacement], [])
  else if length = bs.length then (((ofBytes? bs).map String.toList).getD [], [])
  else ([], bs)

/-- The characters of bytes, after the bytes of a character that is begun, with marks for what is
not UTF-8. -/
def lossy (begun : List UInt8) : List UInt8 → List Char
  | [] => brokenOff begun
  | b :: rest =>
    if begun.isEmpty || !canFollow begun b then
      brokenOff begun ++ ((takeUp [b]).1 ++ lossy (takeUp [b]).2 rest)
    else (takeUp (begun ++ [b])).1 ++ lossy (takeUp (begun ++ [b])).2 rest

/-- What is shown of a raw text. -/
def shown (s : String) : String :=
  (decoded? s).getD (String.ofList (lossy [] (rawBytes s)))

end Text

end Recheck
