/-!
# Decimal numerals

Numerals are read digit by digit. A numeral with a fraction or an exponent stands for
`digits * 10 ^ exponent`; `Decimal.isFinite` tells whether the nearest binary floating point number
of 64 bits is finite.
-/

namespace Recheck

namespace Decimal

/-- The value of a run of decimal digits, most significant first. -/
def value (digits : List Char) : Nat :=
  digits.foldl (fun n c => 10 * n + (c.toNat - '0'.toNat)) 0

/-- The decimal digits at the head of a text, and the rest of it. -/
def span (cs : List Char) : List Char × List Char :=
  (cs.takeWhile Char.isDigit, cs.dropWhile Char.isDigit)

/-- The value of a digit in a base up to sixteen. -/
def digitIn? (base : Nat) (c : Char) : Option Nat :=
  let n :=
    if c.isDigit then c.toNat - '0'.toNat
    else if 'a'.toNat ≤ c.toNat ∧ c.toNat ≤ 'f'.toNat then c.toNat - 'a'.toNat + 10
    else if 'A'.toNat ≤ c.toNat ∧ c.toNat ≤ 'F'.toNat then c.toNat - 'A'.toNat + 10
    else 16
  if n < base then some n else none

/-- The value of a nonempty run of digits in a base up to sixteen. -/
def valueIn? (base : Nat) (digits : List Char) : Option Nat :=
  if digits.isEmpty then none
  else digits.foldlM (fun n c => (digitIn? base c).map (base * n + ·)) 0

/-- Numerals from this value on round to infinity. -/
def infinityBound : Nat := Nat.pow 2 1024 - Nat.pow 2 970

/-- Whether `digits * 10 ^ exponent` rounds to a finite number of 64 bits. -/
def isFinite (digits : Nat) (exponent : Int) : Bool :=
  if digits = 0 then true
  else
    let size := (Nat.toDigits 10 digits).length
    if size + exponent > 320 then false
    else if size + exponent < 300 then true
    else if exponent ≥ 0 then digits * Nat.pow 10 exponent.toNat < infinityBound
    else digits < infinityBound * Nat.pow 10 (-exponent).toNat

end Decimal

end Recheck
