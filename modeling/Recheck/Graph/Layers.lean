import Recheck.Graph.Basic

/-!
# Layers

A resolution order is cut into layers that can be resolved one after the other. A file lands one
layer after the deepest of its dependencies that precede it in the order; a dependency that follows
it does not count. Entries of the order that are not in the graph are left out.
-/

namespace Recheck.Graph

/-- An entry of an order that is in the graph. -/
structure OrderEntry where
  /-- The entry as it was given. -/
  path : Path
  /-- The file of the graph that it spells. -/
  file : Path
  position : Nat

/-- The entries of an order that are in the graph. -/
def orderEntries (g : Graph) (order : List Path) : List OrderEntry :=
  order.zipIdx.filterMap fun (p, i) => (g.find? p).map fun u => ⟨p, u, i⟩

/-- The last position of the file `u`. -/
def lastPosition? (entries : List OrderEntry) (u : Path) : Option Nat :=
  entries.foldl (fun last e => if e.file = u then some e.position else last) none

/-- The layers built so far and the layer of each file placed, the latest placement first. -/
structure Layering where
  levels : List (Path × Nat)
  layers : List (List Path)

/-- Adds `p` at the end of layer `n`. -/
def placeIn : List (List Path) → (n : Nat) → Path → List (List Path)
  | [], 0, p => [[p]]
  | [], n + 1, p => [] :: placeIn [] n p
  | layer :: layers, 0, p => (layer ++ [p]) :: layers
  | layer :: layers, n + 1, p => layer :: placeIn layers n p

/-- The layer for an entry: one more than the deepest of its dependencies that precede it, zero if
there is none. -/
def levelOf (g : Graph) (entries : List OrderEntry) (s : Layering) (entry : OrderEntry) : Nat :=
  ((g.edges.filter fun e => e.1 = entry.file).map (·.2)).foldl
    (fun level v =>
      match lastPosition? entries v, s.levels.lookup v with
      | some i, some l => if i < entry.position ∧ level < l + 1 then l + 1 else level
      | _, _ => level)
    0

/-- Places one entry of the order. -/
def placeEntry (g : Graph) (entries : List OrderEntry) (s : Layering) (entry : OrderEntry) :
    Layering :=
  let level := levelOf g entries s entry
  { levels := (entry.file, level) :: s.levels
    layers := placeIn s.layers level entry.path }

/-- The layers of an order. -/
def layers (g : Graph) (order : List Path) : List (List Path) :=
  let entries := g.orderEntries order
  (entries.foldl (placeEntry g entries) ⟨[], []⟩).layers

end Recheck.Graph
