import Mathlib.Data.List.Perm.Basic
import Recheck.Graph.Cycles
import Recheck.Graph.Dependents
import Recheck.Graph.Layers
import Recheck.Graph.Order
import Recheck.Proofs.Graph.Edges
import Recheck.Proofs.Path.Order

/-!
# The order of edges

A graph keeps its edges in the order in which they came. No answer shows that order: the searches
follow the neighbours of a file in path order, which is one and the same for every listing of the
edges (`Rearranged.needs_eq`, `Rearranged.neededBy_eq`), and the layer of a file is a maximum over
its dependencies (`Rearranged.levelOf_eq`). So two lists of the same pairs make graphs that cannot
be told apart (`sameAnswers_of_samePairs`).
-/

namespace Recheck.Graph

/-! ## Graphs that differ in the order of their edges -/

/-- Two graphs with the same files and the same edges, these in any order. -/
structure Rearranged (g g' : Graph) : Prop where
  files_eq : g.files = g'.files
  edges_perm : g.edges.Perm g'.edges

theorem Rearranged.of_needs {g g' : Graph} (hfiles : g.files = g'.files)
    (hneeds : ∀ u v, g.Needs u v ↔ g'.Needs u v) : Rearranged g g' where
  files_eq := hfiles
  edges_perm :=
    (List.perm_ext_iff_of_nodup g.edges_nodup g'.edges_nodup).mpr fun e => hneeds e.1 e.2

/-- Sorting files of a graph forgets the order in which they were listed. -/
theorem sort_eq_of_perm {g : Graph} {ps qs : List Path} (hps : ps ⊆ g.files) (h : ps.Perm qs) :
    Path.sort ps = Path.sort qs := by
  refine List.Perm.eq_of_pairwise ?_ (Path.pairwise_sort ps) (Path.pairwise_sort qs)
    ((sortBy_perm Path.le ps).trans (h.trans (sortBy_perm Path.le qs).symm))
  intro p q hp hq hpq hqp
  have hp' : p ∈ g.files := hps (Path.mem_sort.mp hp)
  have hq' : q ∈ g.files := hps (h.mem_iff.mpr (Path.mem_sort.mp hq))
  exact Path.eq_of_same g.files_distinct hp' hq' (Path.le_antisymm hpq hqp)

namespace Rearranged

variable {g g' : Graph} (h : Rearranged g g')
include h

theorem find?_eq (p : Path) : g.find? p = g'.find? p := by
  rw [find?, find?, h.files_eq]

theorem needs_eq (u : Path) : g.needs u = g'.needs u := by
  refine sort_eq_of_perm (g := g) (fun v hv => ?_) ((h.edges_perm.filter _).map _)
  obtain ⟨e, he, rfl⟩ := List.mem_map.mp hv
  exact (g.edges_closed e (List.mem_filter.mp he).1).2

theorem neededBy_eq (u : Path) : g.neededBy u = g'.neededBy u := by
  refine sort_eq_of_perm (g := g) (fun v hv => ?_) ((h.edges_perm.filter _).map _)
  obtain ⟨e, he, rfl⟩ := List.mem_map.mp hv
  exact (g.edges_closed e (List.mem_filter.mp he).1).1

theorem dependencies_eq (p : Path) : g.dependencies p = g'.dependencies p := by
  rw [dependencies, dependencies, h.find?_eq]
  cases g'.find? p with
  | none => rfl
  | some u => exact h.needs_eq u

theorem dependents_eq (p : Path) : g.dependents p = g'.dependents p := by
  rw [dependents, dependents, h.find?_eq]
  cases g'.find? p with
  | none => rfl
  | some u => exact h.neededBy_eq u

/-! ## The searches -/

theorem searchCycles_eq (depth : Nat) : searchCycles g depth = searchCycles g' depth := by
  induction depth with
  | zero => rfl
  | succ depth ih =>
    funext trail u s
    rw [searchCycles, searchCycles, h.needs_eq, ih]

theorem cycles_eq : g.cycles = g'.cycles := by
  rw [cycles, cycles, h.files_eq, h.searchCycles_eq]

theorem finish_eq (strict : Bool) (depth : Nat) :
    finish g strict depth = finish g' strict depth := by
  induction depth with
  | zero => rfl
  | succ depth ih =>
    funext opened u done
    rw [finish, finish, h.needs_eq, ih]

theorem topologicalSort_eq (strict : Bool) :
    g.topologicalSort strict = g'.topologicalSort strict := by
  rw [topologicalSort, topologicalSort, h.files_eq, h.finish_eq]

theorem collectDependents_eq (depth : Nat) :
    collectDependents g depth = collectDependents g' depth := by
  induction depth with
  | zero => rfl
  | succ depth ih =>
    funext u seen
    rw [collectDependents, collectDependents, h.neededBy_eq, ih]

theorem transitiveDependents_eq (p : Path) :
    g.transitiveDependents p = g'.transitiveDependents p := by
  rw [transitiveDependents, transitiveDependents, h.find?_eq, h.files_eq, h.collectDependents_eq]

/-! ## Layers -/

/-- The layer of an entry is a maximum, which dependencies can be counted into in any order. -/
theorem levelOf_eq (entries : List OrderEntry) (s : Layering) (entry : OrderEntry) :
    levelOf g entries s entry = levelOf g' entries s entry := by
  refine ((h.edges_perm.filter _).map _).foldl_eq' ?_ 0
  intro v _ w _ level
  -- A dependency counts only if it has a position and a layer.
  cases lastPosition? entries v <;> cases s.levels.lookup v <;> try rfl
  cases lastPosition? entries w <;> cases s.levels.lookup w <;> try rfl
  dsimp only
  split_ifs <;> omega

theorem layers_eq (order : List Path) : g.layers order = g'.layers order := by
  have hentries : g.orderEntries order = g'.orderEntries order := by
    simp only [orderEntries, h.find?_eq]
  have hplace : placeEntry g (g'.orderEntries order) = placeEntry g' (g'.orderEntries order) := by
    funext s entry
    simp only [placeEntry, h.levelOf_eq]
  rw [layers, layers, hentries, hplace]

end Rearranged

/-! ## Graphs made from lists of the same pairs -/

/-- Each pair of the first list is in the second, up to the spelling of its paths. -/
def PairsIn (edges edges' : List (Path × Path)) : Prop :=
  ∀ e ∈ edges, ∃ e' ∈ edges', Path.Same e.1 e'.1 ∧ Path.Same e.2 e'.2

instance (edges edges' : List (Path × Path)) : Decidable (PairsIn edges edges') :=
  inferInstanceAs (Decidable (∀ e ∈ edges, _))

/-- The two lists hold the same pairs, whatever their order and repetitions. -/
def SamePairs (edges edges' : List (Path × Path)) : Prop :=
  PairsIn edges edges' ∧ PairsIn edges' edges

instance (edges edges' : List (Path × Path)) : Decidable (SamePairs edges edges') :=
  inferInstanceAs (Decidable (_ ∧ _))

theorem PairsIn.exists_same {edges edges' : List (Path × Path)} (h : PairsIn edges edges')
    {x y : Path} (hxy : ∃ e ∈ edges, Path.Same x e.1 ∧ Path.Same y e.2) :
    ∃ e ∈ edges', Path.Same x e.1 ∧ Path.Same y e.2 := by
  obtain ⟨e, he, hx, hy⟩ := hxy
  obtain ⟨e', he', h1, h2⟩ := h e he
  exact ⟨e', he', hx.trans h1, hy.trans h2⟩

theorem PairsIn.endsIn {files : List Path} {edges edges' : List (Path × Path)}
    (h : PairsIn edges' edges) (hends : EndsIn files edges) : EndsIn files edges' := by
  intro e' he'
  obtain ⟨e, he, h1, h2⟩ := h e' he'
  obtain ⟨hends1, hends2⟩ := hends e he
  exact ⟨Path.memSame_of_same h1 hends1, Path.memSame_of_same h2 hends2⟩

/-- The answers that a graph gives, apart from its edges as it lists them. -/
structure SameAnswers (g g' : Graph) : Prop where
  files : g.files = g'.files
  dependencies : ∀ p, g.dependencies p = g'.dependencies p
  dependents : ∀ p, g.dependents p = g'.dependents p
  edgeCount : g.edges.length = g'.edges.length
  cycles : g.cycles = g'.cycles
  /-- Also the file that a refusal names. -/
  topologicalSort : ∀ strict, g.topologicalSort strict = g'.topologicalSort strict
  layers : ∀ order, g.layers order = g'.layers order
  transitiveDependents : ∀ p, g.transitiveDependents p = g'.transitiveDependents p

theorem Rearranged.sameAnswers {g g' : Graph} (h : Rearranged g g') : SameAnswers g g' where
  files := h.files_eq
  dependencies := h.dependencies_eq
  dependents := h.dependents_eq
  edgeCount := h.edges_perm.length_eq
  cycles := h.cycles_eq
  topologicalSort := h.topologicalSort_eq
  layers := h.layers_eq
  transitiveDependents := h.transitiveDependents_eq

/-- Order and repetition of edges do not matter: lists of the same pairs of files make graphs that
give the same answers. -/
theorem sameAnswers_of_samePairs {files : List Path} {edges edges' : List (Path × Path)}
    (hends : EndsIn files edges) (hsame : SamePairs edges edges') :
    SameAnswers (ofEdges files edges) (ofEdges files edges') := by
  obtain ⟨hfiles, hneeds⟩ := ofEdges_spec hends
  obtain ⟨hfiles', hneeds'⟩ := ofEdges_spec (hsame.2.endsIn hends)
  refine (Rearranged.of_needs (hfiles.trans hfiles'.symm) fun x y => ?_).sameAnswers
  rw [hneeds, hneeds']
  exact and_congr_right' (and_congr_right' ⟨hsame.1.exists_same, hsame.2.exists_same⟩)

/-- A cycle of three files and a fourth that needs one of them. The second list goes backwards,
repeats an edge and spells a file in two other ways. -/
theorem sameAnswers_of_samePairs_sample :
    let files : List Path := [⟨"a"⟩, ⟨"b/c"⟩, ⟨"d"⟩, ⟨"e"⟩]
    let edges : List (Path × Path) :=
      [(⟨"a"⟩, ⟨"d"⟩), (⟨"a"⟩, ⟨"b/c"⟩), (⟨"b/c"⟩, ⟨"d"⟩), (⟨"d"⟩, ⟨"a"⟩), (⟨"e"⟩, ⟨"a"⟩)]
    let edges' : List (Path × Path) :=
      [(⟨"e"⟩, ⟨"a"⟩), (⟨"d"⟩, ⟨"a"⟩), (⟨"b//c"⟩, ⟨"d"⟩), (⟨"a"⟩, ⟨"b/./c"⟩), (⟨"a"⟩, ⟨"d"⟩),
        (⟨"e"⟩, ⟨"a"⟩)]
    EndsIn files edges ∧ SamePairs edges edges' ∧
      SameAnswers (ofEdges files edges) (ofEdges files edges') ∧
      (ofEdges files edges).topologicalSort true = .error (.cycle ⟨"a"⟩) := by
  intro files edges edges'
  have hends : EndsIn files edges := by decide
  have hsame : SamePairs edges edges' := by decide
  exact ⟨hends, hsame, sameAnswers_of_samePairs hends hsame, by decide⟩

end Recheck.Graph
