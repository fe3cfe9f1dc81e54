import Recheck.Analysis.Basic
import Recheck.Changes
import Recheck.Graph.Cycles
import Recheck.Graph.Layers
import Recheck.Graph.Order

/-!
# Planning a run

Before a file is resolved, a run settles what there is to do: which files refer to which, in what
order to resolve them, and which count as changed. Without caching all of them do.

The files are resolved layer by layer. One worker takes up the files of a layer as they stand,
several workers in any order (`Workers`).
-/

namespace Recheck

/-- What a run is going to do. -/
structure RunPlan where
  references : References
  graph : Graph
  /-- Every file after the files it needs. -/
  order : List Path
  changes : Changes

namespace RunPlan

/-- The changes among the files in order. -/
def changesOf (digest : Digest) (config : Config) (t : FileTree) (references : References)
    (graph : Graph) (order : List Path) (data : StoreData) : Changes :=
  if config.enableCache then Changes.detect digest t graph references.missing order data
  else Changes.allChanged order

/-- The plan for a project. It fails if the sources cannot be listed, or if a cycle is found where
none is allowed. -/
def make (digest : Digest) (config : Config) (excludes : List Glob) (t : FileTree)
    (project : Project) (data : StoreData) : Except AnalysisError RunPlan :=
  match References.collect t project config.extensions excludes with
  | .error e => .error (.scan e)
  | .ok references =>
    let graph := Graph.ofEdges references.files references.edges
    match graph.topologicalSort config.strictCycles with
    | .error e => .error (.graph e)
    | .ok order =>
      .ok
        { references
          graph
          order
          changes := changesOf digest config t references graph order data }

/-- The files in layers: each file comes after the layers of the files that it needs. -/
def layers (plan : RunPlan) : List (List Path) := plan.graph.layers plan.order

/-- The files in the order of the layers. -/
def schedule (plan : RunPlan) : List Path := plan.layers.flatten

end RunPlan

/-- The workers of a run, by the order in which they take up the files of a layer. -/
structure Workers where
  arrange : List Path → List Path
  /-- They take up each file of the layer. -/
  perm : ∀ layer, (arrange layer).Perm layer

/-- One worker, who takes up the files as they stand. -/
def Workers.one : Workers := ⟨id, fun _ => .refl _⟩

/-- The files in the order in which they are attempted. -/
def RunPlan.scheduleFor (plan : RunPlan) (workers : Workers) : List Path :=
  plan.layers.flatMap workers.arrange

end Recheck
