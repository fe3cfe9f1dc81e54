import Recheck.Path

/-!
# The dependency graph

An edge from `u` to `v` says that `u` needs the declarations of `v`. The files stand in the order in
which they were added, each under the spelling it was first given; every other spelling of a file is
replaced by that one before the graph is consulted (`Graph.find?`), so that the edges hold files of
the list and plain equality compares them. The structure carries these facts.
-/

namespace Recheck

/-- Why the graph refuses a request. -/
inductive GraphError where
  /-- The file is not in the graph. -/
  | unknownFile (path : Path)
  /-- The file lies on a dependency cycle. -/
  | cycle (path : Path)
deriving DecidableEq

/-- The text shown for a refusal. -/
def GraphError.message : GraphError → String
  | unknownFile path => "unknown file in dependency graph: " ++ path.shown
  | cycle path => "dependency cycle through " ++ path.shown

/-- Files and the pairs (dependent, dependency) between them. -/
structure Graph where
  files : List Path
  edges : List (Path × Path)
  /-- No two files are spellings of one path. -/
  files_distinct : files.Pairwise fun p q => ¬ Path.Same p q
  /-- Both ends of an edge are files of the graph. -/
  edges_closed : ∀ e ∈ edges, e.1 ∈ files ∧ e.2 ∈ files
  /-- Each edge is listed once. -/
  edges_nodup : edges.Nodup

namespace Graph

/-- The graph without files. -/
def empty : Graph where
  files := []
  edges := []
  files_distinct := .nil
  edges_closed := by simp
  edges_nodup := .nil

instance : Inhabited Graph := ⟨empty⟩

/-- The file of the graph that `p` spells. -/
def find? (g : Graph) (p : Path) : Option Path := Path.find? p g.files

/-- Whether `p` spells a file of the graph. -/
def contains (g : Graph) (p : Path) : Bool := (g.find? p).isSome

theorem not_same_of_find?_eq_none {g : Graph} {p : Path} (h : g.find? p = none) :
    ∀ q ∈ g.files, ¬ Path.Same q p := by
  intro q hq hs
  have := List.find?_eq_none.mp h q hq
  exact this (decide_eq_true hs)

theorem mem_of_find?_eq_some {g : Graph} {p u : Path} (h : g.find? p = some u) : u ∈ g.files :=
  List.mem_of_find?_eq_some h

/-- The graph with `p` as its last file, unless it has the file already. -/
def addFile (g : Graph) (p : Path) : Graph :=
  match h : g.find? p with
  | some _ => g
  | none =>
    { files := g.files ++ [p]
      edges := g.edges
      files_distinct := by
        refine List.pairwise_append.mpr ⟨g.files_distinct, by simp, ?_⟩
        intro q hq r hr
        rw [List.mem_singleton.mp hr]
        exact not_same_of_find?_eq_none h q hq
      edges_closed := fun e he => by
        have := g.edges_closed e he
        simp [this.1, this.2]
      edges_nodup := g.edges_nodup }

/-- The graph with the edge from `u` to `v`, both files of it. -/
def link (g : Graph) (u v : Path) (hu : u ∈ g.files) (hv : v ∈ g.files) : Graph :=
  if h : (u, v) ∈ g.edges then g
  else
    { files := g.files
      edges := g.edges ++ [(u, v)]
      files_distinct := g.files_distinct
      edges_closed := by
        intro e he
        rcases List.mem_append.mp he with he | he
        · exact g.edges_closed e he
        · rw [List.mem_singleton.mp he]
          exact ⟨hu, hv⟩
      edges_nodup := by
        refine List.nodup_append.mpr ⟨g.edges_nodup, by simp, ?_⟩
        intro e he f hf hef
        rw [List.mem_singleton.mp hf] at hef
        exact h (hef ▸ he) }

/-- Records that `p` needs `q`. The first of the two that is not in the graph is refused. -/
def addEdge (g : Graph) (p q : Path) : Except GraphError Graph :=
  match hp : g.find? p with
  | none => .error (.unknownFile p)
  | some u =>
    match hq : g.find? q with
    | none => .error (.unknownFile q)
    | some v => .ok (g.link u v (mem_of_find?_eq_some hp) (mem_of_find?_eq_some hq))

/-- Records that `p` needs `q`, adding them as files first. -/
def addEdgeWithEnds (g : Graph) (p q : Path) : Graph :=
  let g := (g.addFile p).addFile q
  match g.addEdge p q with
  | .ok g' => g'
  | .error _ => g

/-- The graph of a file list and (dependent, dependency) pairs. -/
def ofEdges (files : List Path) (edges : List (Path × Path)) : Graph :=
  edges.foldl (fun g e => g.addEdgeWithEnds e.1 e.2) (files.foldl addFile empty)

/-- The files that the file `u` needs, in path order. -/
def needs (g : Graph) (u : Path) : List Path :=
  Path.sort ((g.edges.filter fun e => e.1 = u).map (·.2))

/-- The files that need the file `u`, in path order. -/
def neededBy (g : Graph) (u : Path) : List Path :=
  Path.sort ((g.edges.filter fun e => e.2 = u).map (·.1))

/-- The direct dependencies of the file that `p` spells. -/
def dependencies (g : Graph) (p : Path) : List Path :=
  match g.find? p with
  | some u => g.needs u
  | none => []

/-- The direct dependents of the file that `p` spells. -/
def dependents (g : Graph) (p : Path) : List Path :=
  match g.find? p with
  | some u => g.neededBy u
  | none => []

/-- A one-line description of the size of the graph. -/
def describe (g : Graph) : String :=
  "DependencyGraph \x7b node_count: " ++ toString g.files.length ++ ", edge_count: " ++
    toString g.edges.length ++ " \x7d"

end Graph

end Recheck
