import Recheck.Toml.Value

/-!
# TOML documents

A document is a table of tables. A table is made by its own header, by the header of a table inside
it, or by a key with several parts; an array of tables grows by one with each of its headers. What a
header or a key may add to depends on how a table was made, and no key has two values.
-/

namespace Recheck.Toml

/-- How a table came to be. -/
inductive Origin where
  /-- By its own header, or as the value of a key. -/
  | header
  /-- By the header of a table inside it. -/
  | within
  /-- By a key with several parts. -/
  | dotted
deriving DecidableEq

/-- What a key of a table leads to. -/
inductive Item where
  | value (v : Value)
  | table (origin : Origin) (members : List (String × Item))
  /-- An array of tables, the last one first. -/
  | tables (items : List (List (String × Item)))

/-- The members of a table. -/
abbrev Members := List (String × Item)

namespace Members

/-- The item under a key. -/
def get? (ms : Members) (key : String) : Option Item := ms.lookup key

/-- The members with an item under a key. -/
def put (ms : Members) (key : String) (item : Item) : Members :=
  if (ms.get? key).isSome then ms.map fun m => if m.1 = key then (key, item) else m
  else ms ++ [(key, item)]

/-- Changes the table that a path leads to, through tables that headers may pass. -/
def under? (change : Members → Option Members) : List String → Members → Option Members
  | [], ms => change ms
  | key :: path, ms =>
    match ms.get? key with
    | none => (under? change path []).map fun inner => ms.put key (.table .within inner)
    | some (.table origin inner) =>
      (under? change path inner).map fun inner => ms.put key (.table origin inner)
    | some (.tables (last :: others)) =>
      (under? change path last).map fun last => ms.put key (.tables (last :: others))
    | some _ => none

/-- Sets the value of a key with several parts, through tables that such keys made. -/
def assign? (value : Value) : List String → Members → Option Members
  | [], _ => none
  | [key], ms => if (ms.get? key).isSome then none else some (ms.put key (.value value))
  | key :: path, ms =>
    match ms.get? key with
    | none => (assign? value path []).map fun inner => ms.put key (.table .dotted inner)
    | some (.table .dotted inner) =>
      (assign? value path inner).map fun inner => ms.put key (.table .dotted inner)
    | some (.table .within inner) =>
      if path.length = 1 then none
      else (assign? value path inner).map fun inner => ms.put key (.table .within inner)
    | some _ => none

/-- Opens the table of a header. -/
def openTable? (key : String) (ms : Members) : Option Members :=
  match ms.get? key with
  | none => some (ms.put key (.table .header []))
  | some (.table .within inner) => some (ms.put key (.table .header inner))
  | some _ => none

/-- Adds a table to an array of tables. -/
def openElement? (key : String) (ms : Members) : Option Members :=
  match ms.get? key with
  | none => some (ms.put key (.tables [[]]))
  | some (.tables items) => some (ms.put key (.tables ([] :: items)))
  | some _ => none

end Members

mutual

/-- The value of an item. -/
def Item.toValue : Item → Value
  | .value v => v
  | .table _ members => .table (memberValues members)
  | .tables items => .array (tableValues items).reverse

/-- The values of a table's members. -/
def memberValues : List (String × Item) → List (String × Value)
  | [] => []
  | (key, item) :: rest => (key, item.toValue) :: memberValues rest

/-- The values of an array's tables. -/
def tableValues : List (List (String × Item)) → List Value
  | [] => []
  | members :: rest => .table (memberValues members) :: tableValues rest

end

mutual

/-- Reads a value. Arrays and tables may be nested to a depth. -/
def value? : (fuel : Nat) → (depth : Nat) → List Char → Option (Value × List Char)
  | 0, _, _ => none
  | fuel + 1, depth, cs =>
    match cs with
    | 't' :: 'r' :: 'u' :: 'e' :: rest => some (.bool true, rest)
    | 'f' :: 'a' :: 'l' :: 's' :: 'e' :: rest => some (.bool false, rest)
    | 'i' :: 'n' :: 'f' :: rest => some (.float, rest)
    | 'n' :: 'a' :: 'n' :: rest => some (.float, rest)
    | '[' :: rest =>
      match depth with
      | 0 => none
      | depth + 1 => (items? fuel depth rest).map fun (items, rest) => (.array items, rest)
    | '\x7b' :: rest =>
      match depth with
      | 0 => none
      | depth + 1 =>
        match skipBlanks rest with
        | '\x7d' :: rest => some (.table [], rest)
        | rest =>
          (inline? fuel depth [] rest).map fun (members, rest) =>
            (.table (memberValues members), rest)
    | c :: _ =>
      if c = '"' ∨ c = '\'' then (string? cs).map fun (s, rest) => (.string (String.ofList s), rest)
      else if c.isDigit ∧ looksTimed cs then (time? cs).map fun rest => (.time, rest)
      else if c.isDigit ∨ c = '+' ∨ c = '-' then number? cs
      else none
    | [] => none

/-- Reads the items of an array to its end. -/
def items? : (fuel : Nat) → (depth : Nat) → List Char → Option (List Value × List Char)
  | 0, _, _ => none
  | fuel + 1, depth, cs =>
    match skipLines cs.length cs with
    | ']' :: rest => some ([], rest)
    | cs =>
      match value? fuel depth cs with
      | none => none
      | some (item, rest) =>
        match skipLines rest.length rest with
        | ']' :: rest => some ([item], rest)
        | ',' :: rest => (items? fuel depth rest).map fun (items, rest) => (item :: items, rest)
        | _ => none

/-- Reads the members of a table in braces to its end. -/
def inline? : (fuel : Nat) → (depth : Nat) → Members → List Char → Option (Members × List Char)
  | 0, _, _, _ => none
  | fuel + 1, depth, members, cs =>
    match assignment? cs with
    | none => none
    | some (key, cs) =>
      match value? fuel depth cs with
      | none => none
      | some (v, rest) =>
        match Members.assign? v key members with
        | none => none
        | some members =>
          match skipBlanks rest with
          | '\x7d' :: rest => some (members, rest)
          | ',' :: rest => inline? fuel depth members rest
          | _ => none

end

/-! ## Lines -/

/-- A document that is being read. -/
structure Reader where
  root : Members := []
  /-- The table that the lines add to. -/
  current : List String := []

/-- A line with a header. The brackets of an array of tables touch. -/
def header? (r : Reader) (cs : List Char) : Option (Reader × List Char) := do
  let (element, cs) :=
    match cs with
    | '[' :: '[' :: rest => (true, rest)
    | _ => (false, cs.drop 1)
  let (key, rest) ← key? maxDepth cs
  let rest ← Text.stripStart? (if element then [']', ']'] else [']']) rest
  let last ← key.getLast?
  let change := if element then Members.openElement? last else Members.openTable? last
  let root ← Members.under? change key.dropLast r.root
  some ({ root, current := key }, rest)

/-- A line with a key and its value. -/
def entry? (r : Reader) (cs : List Char) : Option (Reader × List Char) := do
  let (key, cs) ← assignment? cs
  let (v, rest) ← value? (2 * cs.length + 2) maxDepth cs
  let root ← Members.under? (Members.assign? v key) r.current r.root
  some ({ r with root }, rest)

/-- Reads the lines of a document. -/
def lines? : (fuel : Nat) → Reader → List Char → Option Reader
  | 0, _, _ => none
  | fuel + 1, r, cs =>
    match skipLines cs.length cs with
    | [] => some r
    | c :: rest =>
      match if c = '[' then header? r (c :: rest) else entry? r (c :: rest) with
      | none => none
      | some (r, rest) =>
        match skipComment (skipBlanks rest) with
        | [] => some r
        | rest =>
          match lineEnd? rest with
          | some rest => lines? fuel r rest
          | none => none

/-- The members of the table that a text describes. -/
def parse? (text : String) : Option (List (String × Value)) :=
  let cs :=
    match text.toList with
    | c :: rest => if c.toNat = 0xFEFF then rest else c :: rest
    | [] => []
  (lines? (cs.length + 1) {} cs).map fun r => memberValues r.root

end Recheck.Toml
