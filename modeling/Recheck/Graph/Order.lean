import Recheck.Graph.Basic

/-!
# Resolution order

Files are ordered so that each one follows the files it needs. A file is finished after the files it
needs; while it is being finished it is open. A dependency on an open file closes a cycle: the
strict sort refuses it and names the open file, the tolerant sort passes over it.
-/

namespace Recheck.Graph

/-- Finishes the file `u`, which is needed by the `opened` files, and first all that it needs. The
open files have no repetitions, so `depth` need not exceed the number of files. -/
def finish (g : Graph) (strict : Bool) :
    (depth : Nat) → List Path → Path → List Path → Except GraphError (List Path)
  | 0, _, _, done => .ok done
  | depth + 1, opened, u, done =>
    match
      (g.needs u).foldlM
        (fun done v =>
          if v ∈ u :: opened then if strict then .error (.cycle v) else .ok done
          else if v ∈ done then .ok done
          else finish g strict depth (u :: opened) v done)
        done
    with
    | .error e => .error e
    | .ok done => .ok (done ++ [u])

/-- Every file after the files it needs, as far as cycles allow. -/
def topologicalSort (g : Graph) (strict : Bool) : Except GraphError (List Path) :=
  g.files.foldlM
    (fun done u => if u ∈ done then .ok done else finish g strict g.files.length [] u done) []

/-- The tolerant order. -/
def tolerantOrder (g : Graph) : List Path :=
  match g.topologicalSort false with
  | .ok order => order
  | .error _ => []

/-- Whether the strict sort fails. -/
def hasCycles (g : Graph) : Bool :=
  match g.topologicalSort true with
  | .ok _ => false
  | .error _ => true

end Recheck.Graph
