import Recheck.Declaration
import Recheck.Table

/-!
# The symbol table

Declarations by name. A later declaration of a name replaces the earlier one, whichever file it
comes from. For each file the table also keeps the names that the file has declared, in the order in
which they were first inserted; a name stays listed there when another file takes it over.
-/

namespace Recheck

/-- Declarations by name, and the names each file has declared. -/
structure SymbolTable where
  symbols : Table Declaration
  declared : List (Path × List String)

namespace SymbolTable

/-- The table without declarations. -/
def empty : SymbolTable := ⟨Table.empty, []⟩

instance : Inhabited SymbolTable := ⟨empty⟩

/-- The number of names. -/
def size (t : SymbolTable) : Nat := t.symbols.size

/-- The declaration of a name. -/
def lookup (t : SymbolTable) (name : String) : Option Declaration := t.symbols.get? name

/-- Whether a name is declared. -/
def contains (t : SymbolTable) (name : String) : Bool := t.symbols.contains name

/-- Lists `name` for the file `p`, unless it is listed already. -/
def listName (p : Path) (name : String) : List (Path × List String) → List (Path × List String)
  | [] => [(p, [name])]
  | (q, names) :: rest =>
    if Path.Same q p then (q, if name ∈ names then names else names ++ [name]) :: rest
    else (q, names) :: listName p name rest

/-- The names listed for the file `p`. -/
def namesOf (t : SymbolTable) (p : Path) : List String :=
  match t.declared.find? fun e => decide (Path.Same e.1 p) with
  | some (_, names) => names
  | none => []

/-- Declares a name. Also gives the file that declared it before, if that is another file. -/
def insert (t : SymbolTable) (d : Declaration) : SymbolTable × Option Path :=
  ({ symbols := t.symbols.put d.name d, declared := listName d.file d.name t.declared },
    match t.lookup d.name with
    | some previous => if Path.Same previous.file d.file then none else some previous.file
    | none => none)

/-- Declares all declarations of a file. Also gives, for each one that replaced a declaration of
another file, its name and that file. -/
def registerFile (t : SymbolTable) : List Declaration → SymbolTable × List (String × Path)
  | [] => (t, [])
  | d :: rest =>
    let (t, previous) := t.insert d
    let (t, shadowed) := registerFile t rest
    (t, match previous with
      | some p => (d.name, p) :: shadowed
      | none => shadowed)

/-- The declarations that the file `p` has at present. -/
def declarationsIn (t : SymbolTable) (p : Path) : List Declaration :=
  (t.namesOf p).filterMap fun name =>
    match t.lookup name with
    | some d => if Path.Same d.file p then some d else none
    | none => none

/-- Removes the declarations that the file `p` has at present. -/
def removeFile (t : SymbolTable) (p : Path) : SymbolTable where
  symbols := (t.namesOf p).foldl
    (fun symbols name =>
      match symbols.get? name with
      | some d => if Path.Same d.file p then symbols.erase name else symbols
      | none => symbols)
    t.symbols
  declared := t.declared.filter fun e => !decide (Path.Same e.1 p)

end SymbolTable

end Recheck
