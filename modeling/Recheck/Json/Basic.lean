import Recheck.Decimal

/-!
# JSON values

Objects keep their members in the order of the text, repeated names included. A string whose escapes
leave a surrogate without its partner encodes no text; such a string, or an object with such a name,
is `unreadable`: it can be passed over but not used.
-/

namespace Recheck

/-- A JSON numeral. -/
inductive Json.Number where
  /-- A numeral without fraction and exponent, other than `-0`. -/
  | integer (value : Int)
  /-- `digits * 10 ^ exponent` with a sign. -/
  | decimal (negative : Bool) (digits : Nat) (exponent : Int)
deriving DecidableEq

/-- A JSON value. -/
inductive Json where
  | null
  | bool (value : Bool)
  | number (value : Json.Number)
  | string (text : String)
  | array (items : List Json)
  | object (members : List (String × Json))
  | unreadable

namespace Json

instance : Inhabited Json := ⟨null⟩

/-- An integer. -/
def int (n : Int) : Json := number (.integer n)

/-- A natural number. -/
def nat (n : Nat) : Json := number (.integer n)

/-- A text or null. -/
def optional (text : Option String) : Json :=
  match text with
  | some s => string s
  | none => null

/-- An array of texts. -/
def texts (items : List String) : Json := array (items.map string)

/-- The value of the last member of a name. -/
def get? (j : Json) (name : String) : Option Json :=
  match j with
  | object members => (members.reverse.find? fun m => m.1 = name).map (·.2)
  | _ => none

/-- The text of a string. -/
def text? : Json → Option String
  | string s => some s
  | _ => none

/-- Whether a numeral rounds to a finite number. -/
def Number.isFinite : Number → Bool
  | integer n => Decimal.isFinite n.natAbs 0
  | decimal _ digits exponent => Decimal.isFinite digits exponent

mutual

/-- Whether a value can be used as a whole: nothing in it is unreadable, its numerals are finite,
and arrays and objects are nested at most `depth` deep. -/
def usable : (depth : Nat) → Json → Bool
  | _, null => true
  | _, bool _ => true
  | _, number n => n.isFinite
  | _, string _ => true
  | 0, array _ => false
  | depth + 1, array items => itemsUsable depth items
  | 0, object _ => false
  | depth + 1, object members => membersUsable depth members
  | _, unreadable => false

/-- `usable` for the items of an array. -/
def itemsUsable : (depth : Nat) → List Json → Bool
  | _, [] => true
  | depth, item :: rest => usable depth item && itemsUsable depth rest

/-- `usable` for the members of an object. -/
def membersUsable : (depth : Nat) → List (String × Json) → Bool
  | _, [] => true
  | depth, (_, value) :: rest => usable depth value && membersUsable depth rest

end

/-- The deepest nesting in a value that is used as a whole. -/
def maxDepth : Nat := 127

end Json

end Recheck
