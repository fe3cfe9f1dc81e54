import Recheck.Decimal

/-!
# YAML values

A plain scalar without a tag stands for null, a boolean, a number or a text, by its spelling. Tags
of the standard ask for one of them; other tags are kept with the value.
-/

namespace Recheck.Yaml

/-- A floating point number, by its decimal numeral. -/
inductive Real where
  | infinity (negative : Bool)
  | nan
  /-- `digits * 10 ^ exponent` with no zero at the end of the digits. -/
  | decimal (negative : Bool) (digits : Nat) (exponent : Int)
deriving DecidableEq

/-- A YAML value. -/
inductive Value where
  | null
  | bool (value : Bool)
  | int (value : Int)
  | real (value : Real)
  | string (text : String)
  | sequence (items : List Value)
  | mapping (members : List (Value × Value))
  | tagged (tag : String) (value : Value)

mutual

/-- Whether two values are the same. The order of a mapping's members does not count. -/
def Value.same : Value → Value → Bool
  | .null, .null => true
  | .bool a, .bool b => a == b
  | .int a, .int b => a == b
  | .real a, .real b => a == b
  | .string a, .string b => a == b
  | .sequence as, .sequence bs => sameItems as bs
  | .mapping as, .mapping bs => as.length == bs.length && sameMembers as bs
  | .tagged s a, .tagged t b => s == t && a.same b
  | _, _ => false

/-- Whether two lists of values are the same. -/
def sameItems : List Value → List Value → Bool
  | [], [] => true
  | a :: as, b :: bs => a.same b && sameItems as bs
  | _, _ => false

/-- Whether the members of a mapping are found among others. -/
def sameMembers : List (Value × Value) → List (Value × Value) → Bool
  | [], _ => true
  | (k, v) :: rest, bs => (bs.any fun b => k.same b.1 && v.same b.2) && sameMembers rest bs

end

/-- The value without its tags. -/
def Value.untagged : Value → Value
  | .tagged _ v => v.untagged
  | v => v

/-- The value of a member of a mapping. -/
def Value.get? (v : Value) (name : String) : Option Value :=
  match v.untagged with
  | .mapping members => (members.find? fun m => m.1.same (.string name)).map (·.2)
  | _ => none

/-- The text that a value is. -/
def Value.text? (v : Value) : Option String :=
  match v.untagged with
  | .string s => some s
  | _ => none

/-! ## Plain scalars -/

/-- Whether a spelling stands for null. -/
def isNull (s : String) : Bool := ["null", "Null", "NULL", "~"].contains s

/-- The boolean that a spelling stands for. -/
def bool? (s : String) : Option Bool :=
  if ["true", "True", "TRUE"].contains s then some true
  else if ["false", "False", "FALSE"].contains s then some false
  else none

/-- The text after a plus or minus. -/
def unsigned (cs : List Char) : List Char :=
  match cs with
  | '+' :: rest => rest
  | '-' :: rest => rest
  | _ => cs

/-- Whether a spelling is one of digits with a needless zero in front. -/
def isPadded (cs : List Char) : Bool :=
  match unsigned cs with
  | '0' :: c :: rest => (c :: rest).all Char.isDigit
  | _ => false

/-- The value of digits after a mark for their base, or of decimal digits. -/
def natural? (cs : List Char) : Option Nat :=
  let based :=
    match cs with
    | '0' :: 'x' :: digits => Decimal.valueIn? 16 digits
    | '0' :: 'o' :: digits => Decimal.valueIn? 8 digits
    | '0' :: 'b' :: digits => Decimal.valueIn? 2 digits
    | _ => none
  based <|> (if isPadded cs then none else Decimal.valueIn? 10 cs)

/-- The integer that a spelling stands for. -/
def int? (cs : List Char) : Option Int :=
  match cs with
  | '-' :: rest => (natural? rest).map fun n => -(n : Int)
  | '+' :: rest => (natural? rest).map fun n => (n : Int)
  | _ => (natural? cs).map fun n => (n : Int)

/-- Takes zeros off the end of the digits. -/
def dropZeros : (fuel : Nat) → Nat → Int → Nat × Int
  | 0, digits, exponent => (digits, exponent)
  | fuel + 1, digits, exponent =>
    if digits = 0 then (0, 0)
    else if digits % 10 = 0 then dropZeros fuel (digits / 10) (exponent + 1)
    else (digits, exponent)

/-- The number of a decimal numeral without sign, with a fraction and an exponent if it likes. -/
def decimal? (negative : Bool) (cs : List Char) : Option Real :=
  let (whole, cs) := Decimal.span cs
  let (fraction, cs) :=
    match cs with
    | '.' :: rest => Decimal.span rest
    | _ => ([], cs)
  if whole.isEmpty && fraction.isEmpty then none
  else
    let exponent? : Option Int :=
      match cs with
      | [] => some 0
      | e :: rest =>
        if e = 'e' ∨ e = 'E' then
          (Decimal.valueIn? 10 (unsigned rest)).map fun n =>
            if rest.head? = some '-' then -(n : Int) else n
        else none
    exponent?.bind fun exponent =>
      let digits := Decimal.value (whole ++ fraction)
      let exponent := exponent - fraction.length
      if Decimal.isFinite digits exponent then
        let (digits, exponent) := dropZeros (whole.length + fraction.length) digits exponent
        some (.decimal (negative && digits != 0) digits exponent)
      else none

/-- The floating point number that a spelling stands for. -/
def real? (cs : List Char) : Option Real :=
  let s := String.ofList cs
  if [".nan", ".NaN", ".NAN"].contains s then some .nan
  else if [".inf", ".Inf", ".INF", "+.inf", "+.Inf", "+.INF"].contains s then some (.infinity false)
  else if ["-.inf", "-.Inf", "-.INF"].contains s then some (.infinity true)
  else
    match cs with
    | '-' :: rest => decimal? true rest
    | '+' :: rest => decimal? false rest
    | _ => decimal? false cs

/-- The value of an integer. Those that fit in no 64 bits are refused, and beyond 128 bits they are
none: `none` stands for a refusal, and `some none` for a spelling of no integer. -/
def intValue? (cs : List Char) : Option (Option Value) :=
  match int? cs with
  | none => some none
  | some n =>
    if -9223372036854775808 ≤ n ∧ n ≤ 18446744073709551615 then some (some (.int n))
    else if -170141183460469231731687303715884105728 ≤ n ∧
        n ≤ 340282366920938463463374607431768211455 then none
    else some none

/-- The value of a plain scalar without a tag. -/
def plainValue? (s : String) : Option Value :=
  if s.isEmpty || isNull s then some .null
  else
    match bool? s with
    | some b => some (.bool b)
    | none =>
      match intValue? s.toList with
      | none => none
      | some (some v) => some v
      | some none =>
        match if isPadded s.toList then none else real? s.toList with
        | some r => some (.real r)
        | none => some (.string s)

/-- The value of a scalar with a tag. -/
def taggedValue? (tag : String) (s : String) (plain : Bool) : Option Value :=
  if tag = "tag:yaml.org,2002:bool" then (bool? s).map .bool
  else if tag = "tag:yaml.org,2002:int" then (intValue? s.toList).join
  else if tag = "tag:yaml.org,2002:float" then (real? s.toList).map .real
  else if tag = "tag:yaml.org,2002:null" then if isNull s then some .null else none
  else if tag.toList.head? = some '!' then
    (if plain then plainValue? s else some (.string s)).map (.tagged tag)
  else some (.string s)

/-- The value of a scalar. -/
def scalarValue? (tag : Option String) (s : String) (plain : Bool) : Option Value :=
  match tag with
  | some tag => taggedValue? tag s plain
  | none => if plain then plainValue? s else some (.string s)

end Recheck.Yaml
