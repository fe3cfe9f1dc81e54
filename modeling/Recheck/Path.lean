import Recheck.Sort
import Recheck.Text.Order
import Recheck.Text.Split
import Recheck.Text.Blank
import Recheck.Text.Raw

/-!
# Paths

A path is kept as it was written, with one character for each byte. It need not be UTF-8; a text
names the path with its encoding (`Path.ofText`), and a path is shown as a text (`Path.shown`), from
which it cannot always be told. Two spellings name the same file if they have the same components:
repeated and trailing slashes do not count, nor does a `.` after the start, while a leading `.` and
every `..` do. `Path.Same` is that equality, and `Path.le` orders paths component by component, so a
directory's files stay together (`a/x` comes before `a-b`).

The operations that take a path apart return slices of its spelling. For them a path is laid out as
an anchor (the leading `/` or `.`) and the body, the pieces of text between the slashes that follow.
-/

namespace Recheck

/-- One step of a path. -/
inductive Component where
  /-- The leading slash of an absolute path. -/
  | root
  /-- A leading `.`. -/
  | here
  /-- The parent directory, `..`. -/
  | up
  /-- A file or directory name, with one character for each byte. -/
  | name (text : String)
deriving DecidableEq

namespace Component

/-- The place of a component among different kinds. -/
def rank : Component → Nat
  | root => 0
  | here => 1
  | up => 2
  | name _ => 3

/-- The text of a component in a path. -/
def text : Component → String
  | root => "/"
  | here => "."
  | up => ".."
  | name s => s

/-- `a` does not come after `b`. -/
def le : Component → Component → Bool
  | name a, name b => Text.le a b
  | a, b => decide (a.rank ≤ b.rank)

/-- The order of component lists: the first difference decides. -/
def listLe : List Component → List Component → Bool
  | [], _ => true
  | _ :: _, [] => false
  | a :: as, b :: bs => if a = b then listLe as bs else le a b

end Component

/-- A path as it was written. -/
structure Path where
  /-- The path with one character for each byte. -/
  text : String
deriving DecidableEq

namespace Path

/-! ## Texts -/

/-- The path that a text names. -/
def ofText (s : String) : Path := ⟨Text.encoded s⟩

/-- The text shown for a path. What is not UTF-8 in it cannot be told from the text. -/
def shown (p : Path) : String := Text.shown p.text

/-- The bytes of a path. -/
def bytes (p : Path) : List UInt8 := Text.rawBytes p.text

/-! ## Anchor and body -/

/-- A path split into its leading component and the pieces of text after it. -/
structure Layout where
  anchor : Option Component
  body : List (List Char)

/-- Whether a piece of the body is a component; empty pieces and `.` are not. -/
def isStep (piece : List Char) : Bool := !piece.isEmpty && piece != ['.']

/-- The component that a piece of the body stands for. -/
def stepOf (piece : List Char) : Component :=
  if piece = ['.', '.'] then .up else .name (String.ofList piece)

/-- The anchor and body of a path. -/
def layout (p : Path) : Layout :=
  match p.text.toList with
  | '/' :: rest => ⟨some .root, Text.splitOn '/' rest⟩
  | cs =>
    match Text.splitOn '/' cs with
    | ['.'] :: rest => ⟨some .here, rest⟩
    | pieces => ⟨none, pieces⟩

/-- The spelling that an anchor and a body were taken from. -/
def Layout.path (l : Layout) : Path :=
  let body := String.ofList (Text.join '/' l.body)
  match l.anchor with
  | some .root => ⟨"/" ++ body⟩
  | some .here => if l.body.isEmpty then ⟨"."⟩ else ⟨"./" ++ body⟩
  | _ => ⟨body⟩

/-- A body without the pieces at its end that are no components. -/
def trimBodyEnd (body : List (List Char)) : List (List Char) :=
  Text.dropRightWhile (fun piece => !isStep piece) body

/-! ## Components, equality and order -/

/-- The components of a path. -/
def components (p : Path) : List Component :=
  p.layout.anchor.toList ++ (p.layout.body.filter isStep).map stepOf

/-- Two spellings of one path. -/
def Same (p q : Path) : Prop := p.components = q.components

instance (p q : Path) : Decidable (Same p q) :=
  inferInstanceAs (Decidable (p.components = q.components))

/-- `p` does not come after `q`. -/
def le (p q : Path) : Bool := Component.listLe p.components q.components

/-- The paths in order. -/
def sort (paths : List Path) : List Path := sortBy le paths

/-- The first element of a list that spells the path `p`. -/
def find? (p : Path) (paths : List Path) : Option Path :=
  let steps := p.components
  paths.find? fun q => q.components = steps

/-- Whether some element of a list spells the path `p`. -/
def memSame (p : Path) (paths : List Path) : Bool :=
  let steps := p.components
  paths.any fun q => q.components = steps

/-- The list with `p` at its end, unless an element spells that path already. -/
def insert (paths : List Path) (p : Path) : List Path :=
  if memSame p paths then paths else paths ++ [p]

/-- The paths with every one that repeats an earlier one left out. -/
def distinct (paths : List Path) : List Path := paths.foldl insert []

/-! ## Making paths -/

/-- Whether the path starts at the root. -/
def isAbsolute (p : Path) : Bool := p.text.toList.head? == some '/'

/-- `q` taken relative to `p`. An absolute `q` replaces `p`, and nothing is simplified. -/
def join (p q : Path) : Path :=
  if q.isAbsolute then q
  else if p.text.isEmpty || p.text.toList.getLast? == some '/' then ⟨p.text ++ q.text⟩
  else ⟨p.text ++ "/" ++ q.text⟩

/-- The absolute path through the given names. -/
def ofNames (names : List String) : Path := ⟨"/" ++ "/".intercalate names⟩

/-- The path with every `.` removed and every `..` cancelled against the component before it,
without asking what exists. At the root `..` has no effect. -/
def normalize (p : Path) : Path :=
  let names := p.components.foldl
    (fun stack component =>
      match component with
      | .name s => s :: stack
      | .up => stack.tail
      | _ => stack)
    []
  let body := "/".intercalate names.reverse
  if p.components.head? = some .root then ⟨"/" ++ body⟩ else ⟨body⟩

/-! ## Taking paths apart -/

/-- The path without its last component; none for a path that has nothing before its end. -/
def parent? (p : Path) : Option Path :=
  match (trimBodyEnd p.layout.body).reverse with
  | _ :: rest => some (Layout.path ⟨p.layout.anchor, trimBodyEnd rest.reverse⟩)
  | [] => if p.layout.anchor = some .here then some ⟨""⟩ else none

/-- The last component, if it is a name. -/
def fileName? (p : Path) : Option String :=
  match p.components.getLast? with
  | some (.name s) => some s
  | _ => none

/-- What follows the last dot of the file name. A name whose only dot comes first has no
extension. -/
def extension? (p : Path) : Option String :=
  p.fileName?.bind fun file =>
    match (Text.splitOn '.' file.toList).reverse with
    | _ :: [] => none
    | _ :: [[]] => none
    | ext :: _ => some (String.ofList ext)
    | [] => none

/-- Whether the components of `base` begin those of `p`. -/
def startsWith (p base : Path) : Bool :=
  base.components.isPrefixOf p.components

/-- The body without its first `n` components. -/
def dropSteps : Nat → List (List Char) → List (List Char)
  | 0, body => body
  | _ + 1, [] => []
  | n + 1, piece :: body => if isStep piece then dropSteps n body else dropSteps (n + 1) body

/-- What is left of the spelling of `p` after the components of `base`, if `p` begins with them. -/
def stripStart? (p base : Path) : Option Path :=
  if p.startsWith base then
    let n := base.components.length
    if n = 0 then some (Layout.path ⟨p.layout.anchor, trimBodyEnd p.layout.body⟩)
    else
      let steps := if p.layout.anchor.isSome then n - 1 else n
      let rest := (dropSteps steps p.layout.body).dropWhile fun piece => !isStep piece
      some ⟨String.ofList (Text.join '/' (trimBodyEnd rest))⟩
  else none

/-- The path as seen from `base`, or the path itself where it does not lie below `base`. -/
def relativeTo (p base : Path) : Path := (p.stripStart? base).getD p

end Path

end Recheck
