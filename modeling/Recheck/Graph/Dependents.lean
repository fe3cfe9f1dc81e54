import Recheck.Graph.Basic

/-!
# Transitive dependents

The files that depend on a file directly or through others. A file on a cycle is among its own
transitive dependents.
-/

namespace Recheck.Graph

/-- Adds to `seen` the files that need `u` and are not in it yet, and the files that need those.
Each step down adds a file, so `depth` need not exceed the number of files by more than one. -/
def collectDependents (g : Graph) : (depth : Nat) → Path → List Path → List Path
  | 0, _, seen => seen
  | depth + 1, u, seen =>
    (g.neededBy u).foldl
      (fun seen v => if v ∈ seen then seen else collectDependents g depth v (v :: seen)) seen

/-- All files that depend on the file that `p` spells, each once. -/
def transitiveDependents (g : Graph) (p : Path) : List Path :=
  match g.find? p with
  | some u => collectDependents g (g.files.length + 1) u []
  | none => []

end Recheck.Graph
