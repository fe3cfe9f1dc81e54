import Recheck.Graph.Basic

/-!
# Reporting cycles

A depth-first search enters every file once, follows dependencies in path order and starts from the
files in the order of the graph. Each dependency that leads back to a file on the current trail
closes a cycle, which is listed from that file along the trail and closed by repeating it. A cycle
that closes only through a file the search has left is not listed.
-/

namespace Recheck.Graph

/-- What the search knows: the files it has entered and the cycles it has found. -/
structure CycleSearch where
  entered : List Path
  cycles : List (List Path)

/-- The cycle that a dependency on `v` closes, for a trail listed from its innermost file. -/
def closeCycle (trail : List Path) (v : Path) : List Path :=
  v :: (trail.takeWhile (· ≠ v)).reverse ++ [v]

/-- Searches on from the file `u` at the head of the trail. The trail has no repetitions, so `depth`
need not exceed the number of files. -/
def searchCycles (g : Graph) : (depth : Nat) → List Path → Path → CycleSearch → CycleSearch
  | 0, _, _, s => s
  | depth + 1, trail, u, s =>
    (g.needs u).foldl
      (fun s v =>
        if v ∈ trail then { s with cycles := s.cycles ++ [closeCycle trail v] }
        else if v ∈ s.entered then s
        else searchCycles g depth (v :: trail) v { s with entered := v :: s.entered })
      s

/-- The cycles of the graph, one for each dependency that closes one during the search. -/
def cycles (g : Graph) : List (List Path) :=
  (g.files.foldl
    (fun s u =>
      if u ∈ s.entered then s
      else searchCycles g g.files.length [u] u { s with entered := u :: s.entered })
    (⟨[], []⟩ : CycleSearch)).cycles

end Recheck.Graph
