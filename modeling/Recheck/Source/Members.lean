import Recheck.Declaration
import Recheck.Source.Words

/-!
# Members

A body is cut into segments, and each segment names at most one member, save the first segment of an
enumeration, which lists the constants.
-/

namespace Recheck

namespace Source

/-- Words that end a member's head without being its name. -/
def reserved : List (List Char) :=
  ["operator".toList, "get".toList, "set".toList, "static".toList, "final".toList, "const".toList,
    "var".toList, "late".toList, "factory".toList, "external".toList]

/-- The constants that the first segment of an enumeration lists. -/
def constants (segment : List Char) : List (List Char) :=
  (Text.splitOn ',' segment).filterMap fun item =>
    leadingIdentifier? (clean (item.takeWhile (· ≠ '(')))

/-- The part of a segment before its parameters, its value or its arrow. -/
def memberHead (segment : List Char) : List Char :=
  Text.trimRight
    ((withoutTypeArguments (clean segment)).takeWhile fun c => c != '(' && c != '=')

/-- The member that a segment declares. Constructors are none: they bear the name of their owner, or
a name qualified by it. -/
def memberName? (owner : String) (segment : List Char) : Option (List Char) :=
  let head := memberHead segment
  match trailingIdentifier? head with
  | none => none
  | some name =>
    let qualified := (head.take (head.length - name.length)).getLast? == some '.'
    if String.ofList name = owner || qualified || reserved.contains name then none else some name

/-- A declaration whose body is being read. -/
structure OpenDeclaration where
  declaration : Declaration
  /-- No segment of the body has been read. -/
  fresh : Bool := true

/-- The declaration after one more segment of its body. -/
def OpenDeclaration.add (d : OpenDeclaration) (segment : List Char) : OpenDeclaration :=
  let owner := d.declaration
  let members :=
    if d.fresh && owner.kind == .enumeration then
      owner.members ++ (constants segment).map String.ofList
    else
      match memberName? owner.name segment with
      | none => owner.members
      | some name =>
        let name := String.ofList name
        if owner.members.contains name then owner.members else owner.members ++ [name]
  { declaration := { owner with members }, fresh := false }

end Source

end Recheck
