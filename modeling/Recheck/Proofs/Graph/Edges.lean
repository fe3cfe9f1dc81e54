import Mathlib.Data.List.Nodup
import Mathlib.Logic.Relation
import Recheck.Graph.Basic
import Recheck.Proofs.Path

/-!
# Edges and reachability

`Graph.Needs` is the relation that the edges of a graph list and `Graph.DependsOn` its transitive
closure. A graph made from files and from edges between them has each of these files once and these
edges, up to the spelling of their ends (`ofEdges_spec`).
-/

namespace Recheck.Graph

/-- The file `u` needs the file `v`. -/
def Needs (g : Graph) (u v : Path) : Prop := (u, v) ∈ g.edges

/-- The file `u` needs the file `v`, directly or through other files. -/
def DependsOn (g : Graph) : Path → Path → Prop := Relation.TransGen g.Needs

theorem mem_needs {g : Graph} {u v : Path} : v ∈ g.needs u ↔ g.Needs u v := by
  simp [needs, Needs]

theorem mem_neededBy {g : Graph} {u v : Path} : v ∈ g.neededBy u ↔ g.Needs v u := by
  simp [neededBy, Needs]

theorem nodup_needs (g : Graph) (u : Path) : (g.needs u).Nodup := by
  rw [needs, Path.sort, (sortBy_perm _ _).nodup_iff]
  refine List.Nodup.map_on (fun e he f hf heq => ?_) (g.edges_nodup.filter _)
  have he' : e.1 = u := by simpa using (List.mem_filter.mp he).2
  have hf' : f.1 = u := by simpa using (List.mem_filter.mp hf).2
  exact Prod.ext (he'.trans hf'.symm) heq

theorem nodup_neededBy (g : Graph) (v : Path) : (g.neededBy v).Nodup := by
  rw [neededBy, Path.sort, (sortBy_perm _ _).nodup_iff]
  refine List.Nodup.map_on (fun e he f hf heq => ?_) (g.edges_nodup.filter _)
  have he' : e.2 = v := by simpa using (List.mem_filter.mp he).2
  have hf' : f.2 = v := by simpa using (List.mem_filter.mp hf).2
  exact Prod.ext heq (he'.trans hf'.symm)

theorem Needs.left_mem {g : Graph} {u v : Path} (h : g.Needs u v) : u ∈ g.files :=
  (g.edges_closed _ h).1

theorem Needs.right_mem {g : Graph} {u v : Path} (h : g.Needs u v) : v ∈ g.files :=
  (g.edges_closed _ h).2

theorem DependsOn.left_mem {g : Graph} {u v : Path} (h : g.DependsOn u v) : u ∈ g.files := by
  obtain ⟨w, hw, -⟩ := Relation.TransGen.head'_iff.mp h
  exact hw.left_mem

theorem DependsOn.right_mem {g : Graph} {u v : Path} (h : g.DependsOn u v) : v ∈ g.files := by
  obtain ⟨w, -, hw⟩ := Relation.TransGen.tail'_iff.mp h
  exact hw.right_mem

/-! ## Finding files -/

theorem find?_of_mem {g : Graph} {u : Path} (hu : u ∈ g.files) : g.find? u = some u := by
  have hsome : (g.find? u).isSome = true := by
    rw [find?, Path.find?_isSome]
    exact Path.memSame_of_mem hu
  obtain ⟨v, hv⟩ := Option.isSome_iff_exists.mp hsome
  obtain ⟨hmem, hs⟩ := Path.find?_spec hv
  rw [hv, Path.eq_of_same g.files_distinct hmem hu hs]

theorem contains_eq_memSame (g : Graph) (p : Path) : g.contains p = Path.memSame p g.files :=
  Path.find?_isSome

theorem find?_eq_some_iff {g : Graph} {p u : Path} :
    g.find? p = some u ↔ u ∈ g.files ∧ Path.Same u p := by
  refine ⟨Path.find?_spec, fun ⟨hu, hs⟩ => ?_⟩
  rw [find?, Path.find?, ← show u.components = p.components from hs]
  exact find?_of_mem hu

/-! ## Neighbours up to spelling -/

/-- The files that two paths spell are joined by an edge. -/
def Joins (g : Graph) (p q : Path) : Prop := ∃ u v, Path.Same u p ∧ Path.Same v q ∧ g.Needs u v

theorem joins_iff_find? {g : Graph} {p q : Path} :
    g.Joins p q ↔ ∃ u v, g.find? p = some u ∧ g.find? q = some v ∧ g.Needs u v := by
  simp only [Joins, find?_eq_some_iff]
  refine exists_congr fun u => exists_congr fun v => ?_
  exact ⟨fun ⟨hu, hv, h⟩ => ⟨⟨h.left_mem, hu⟩, ⟨h.right_mem, hv⟩, h⟩,
    fun ⟨⟨_, hu⟩, ⟨_, hv⟩, h⟩ => ⟨hu, hv, h⟩⟩

theorem memSame_dependencies {g : Graph} {p q : Path} :
    Path.memSame q (g.dependencies p) = true ↔ g.Joins p q := by
  rw [joins_iff_find?, dependencies, Path.memSame_iff]
  cases g.find? p with
  | none => simp
  | some u =>
    constructor
    · rintro ⟨v, hv, hs⟩
      have hneeds := mem_needs.mp hv
      exact ⟨u, v, rfl, find?_eq_some_iff.mpr ⟨hneeds.right_mem, hs⟩, hneeds⟩
    · rintro ⟨w, v, hw, hv, hneeds⟩
      obtain rfl : u = w := Option.some.inj hw
      exact ⟨v, mem_needs.mpr hneeds, (find?_eq_some_iff.mp hv).2⟩

theorem memSame_dependents {g : Graph} {p q : Path} :
    Path.memSame p (g.dependents q) = true ↔ g.Joins p q := by
  rw [joins_iff_find?, dependents, Path.memSame_iff]
  cases g.find? q with
  | none => simp
  | some v =>
    constructor
    · rintro ⟨u, hu, hs⟩
      have hneeds := mem_neededBy.mp hu
      exact ⟨u, v, find?_eq_some_iff.mpr ⟨hneeds.left_mem, hs⟩, rfl, hneeds⟩
    · rintro ⟨u, w, hu, hw, hneeds⟩
      obtain rfl : v = w := Option.some.inj hw
      exact ⟨u, mem_neededBy.mpr hneeds, (find?_eq_some_iff.mp hu).2⟩

/-! ## Building a graph -/

theorem addFile_of_contains {g : Graph} {p : Path} (h : g.contains p = true) : g.addFile p = g := by
  rw [addFile]
  split
  · rfl
  · next hn => simp [contains, hn] at h

theorem files_addFile_of_not_contains {g : Graph} {p : Path} (h : g.contains p = false) :
    (g.addFile p).files = g.files ++ [p] ∧ (g.addFile p).edges = g.edges := by
  rw [addFile]
  split
  · next hs => simp [contains, hs] at h
  · exact ⟨rfl, rfl⟩

theorem addFile_spec (g : Graph) (p : Path) :
    (g.addFile p).files = Path.insert g.files p ∧ (g.addFile p).edges = g.edges := by
  rw [Path.insert, ← contains_eq_memSame]
  cases hc : g.contains p with
  | true => simp [addFile_of_contains hc]
  | false => simpa using files_addFile_of_not_contains hc

/-- Adding files leaves out those that repeat an earlier one. -/
theorem foldl_addFile_spec (files : List Path) (g : Graph) :
    (files.foldl addFile g).files = files.foldl Path.insert g.files ∧
      (files.foldl addFile g).edges = g.edges := by
  induction files generalizing g with
  | nil => exact ⟨rfl, rfl⟩
  | cons p files ih =>
    obtain ⟨hfiles, hedges⟩ := addFile_spec g p
    rw [List.foldl_cons, List.foldl_cons, ← hfiles, ← hedges]
    exact ih (g.addFile p)

theorem files_link (g : Graph) {u v : Path} (hu : u ∈ g.files) (hv : v ∈ g.files) :
    (g.link u v hu hv).files = g.files := by
  rw [link]
  split <;> rfl

theorem needs_link (g : Graph) {u v : Path} (hu : u ∈ g.files) (hv : v ∈ g.files) {x y : Path} :
    (g.link u v hu hv).Needs x y ↔ g.Needs x y ∨ (x = u ∧ y = v) := by
  rw [Needs, link]
  split
  · next h =>
    refine ⟨.inl, fun hxy => hxy.elim id ?_⟩
    rintro ⟨rfl, rfl⟩
    exact h
  · simp [Needs]

theorem addEdge_of_find? {g : Graph} {p q u v : Path} (hp : g.find? p = some u)
    (hq : g.find? q = some v) :
    g.addEdge p q = .ok (g.link u v (mem_of_find?_eq_some hp) (mem_of_find?_eq_some hq)) := by
  rw [addEdge]
  split
  · next hn => simp [hp] at hn
  · next u' hu' =>
    split
    · next hn => simp [hq] at hn
    · next v' hv' =>
      have hu : u' = u := Option.some.inj (hu'.symm.trans hp)
      have hv : v' = v := Option.some.inj (hv'.symm.trans hq)
      subst hu hv
      rfl

/-- Between files that are there, only the edge is new. -/
theorem addEdgeWithEnds_spec {g : Graph} {p q u v : Path} (hp : g.find? p = some u)
    (hq : g.find? q = some v) :
    (g.addEdgeWithEnds p q).files = g.files ∧
      ∀ x y, (g.addEdgeWithEnds p q).Needs x y ↔ g.Needs x y ∨ (x = u ∧ y = v) := by
  have hcp : g.contains p = true := by simp [contains, hp]
  have hcq : g.contains q = true := by simp [contains, hq]
  have heq : g.addEdgeWithEnds p q =
      g.link u v (mem_of_find?_eq_some hp) (mem_of_find?_eq_some hq) := by
    rw [addEdgeWithEnds, addFile_of_contains hcp, addFile_of_contains hcq]
    simp only [addEdge_of_find? hp hq]
  rw [heq]
  exact ⟨files_link .., fun x y => needs_link ..⟩

theorem foldl_addEdge_spec (edges : List (Path × Path)) (g : Graph)
    (hends : ∀ e ∈ edges, Path.memSame e.1 g.files = true ∧ Path.memSame e.2 g.files = true) :
    (edges.foldl (fun g e => g.addEdgeWithEnds e.1 e.2) g).files = g.files ∧
      ∀ x y, (edges.foldl (fun g e => g.addEdgeWithEnds e.1 e.2) g).Needs x y ↔
        g.Needs x y ∨
          (x ∈ g.files ∧ y ∈ g.files ∧ ∃ e ∈ edges, Path.Same x e.1 ∧ Path.Same y e.2) := by
  induction edges generalizing g with
  | nil => simp
  | cons e edges ih =>
    obtain ⟨h1, h2⟩ := hends e (List.mem_cons_self ..)
    obtain ⟨u, hu⟩ := Option.isSome_iff_exists.mp (Path.find?_isSome.trans h1)
    obtain ⟨v, hv⟩ := Option.isSome_iff_exists.mp (Path.find?_isSome.trans h2)
    obtain ⟨hf, hn⟩ := addEdgeWithEnds_spec hu hv
    obtain ⟨hf', hn'⟩ := ih (g.addEdgeWithEnds e.1 e.2)
      (fun e' he' => hf ▸ hends e' (List.mem_cons_of_mem _ he'))
    have hhead : ∀ x y, (x = u ∧ y = v) ↔
        (x ∈ g.files ∧ y ∈ g.files ∧ Path.Same x e.1 ∧ Path.Same y e.2) := by
      intro x y
      constructor
      · rintro ⟨rfl, rfl⟩
        exact ⟨(Path.find?_spec hu).1, (Path.find?_spec hv).1, (Path.find?_spec hu).2,
          (Path.find?_spec hv).2⟩
      · rintro ⟨hx, hy, hx', hy'⟩
        exact ⟨Option.some.inj ((find?_eq_some_iff.mpr ⟨hx, hx'⟩).symm.trans hu),
          Option.some.inj ((find?_eq_some_iff.mpr ⟨hy, hy'⟩).symm.trans hv)⟩
    refine ⟨hf'.trans hf, fun x y => ?_⟩
    rw [List.foldl_cons, hn', hn, hf, hhead, or_assoc]
    simp only [List.mem_cons, exists_eq_or_imp, and_or_left]

/-- Both ends of each pair are files of the list. -/
def EndsIn (files : List Path) (edges : List (Path × Path)) : Prop :=
  ∀ e ∈ edges, Path.memSame e.1 files = true ∧ Path.memSame e.2 files = true

instance (files : List Path) (edges : List (Path × Path)) : Decidable (EndsIn files edges) :=
  inferInstanceAs (Decidable (∀ e ∈ edges, _))

/-- What a graph is made from, for any list of files and pairs between them. -/
theorem ofEdges_spec {files : List Path} {edges : List (Path × Path)} (hends : EndsIn files edges) :
    (ofEdges files edges).files = Path.distinct files ∧
      ∀ x y, (ofEdges files edges).Needs x y ↔
        x ∈ Path.distinct files ∧ y ∈ Path.distinct files ∧
          ∃ e ∈ edges, Path.Same x e.1 ∧ Path.Same y e.2 := by
  obtain ⟨hfiles, hedges⟩ := foldl_addFile_spec files empty
  have hmem : ∀ p, Path.memSame p files = true →
      Path.memSame p (files.foldl addFile empty).files = true := fun p hp => by
    rw [hfiles, Path.memSame_foldl_insert]
    exact .inr hp
  obtain ⟨hfiles', hneeds⟩ := foldl_addEdge_spec edges (files.foldl addFile empty)
    fun e he => ⟨hmem e.1 (hends e he).1, hmem e.2 (hends e he).2⟩
  refine ⟨hfiles'.trans hfiles, fun x y => (hneeds x y).trans ?_⟩
  rw [Needs, hedges, hfiles]
  simp [empty, Path.distinct]

section OfEdges

variable {files : List Path} {edges : List (Path × Path)}
  (hd : files.Pairwise fun p q => ¬ Path.Same p q) (hends : EndsIn files edges)
include hd hends

theorem files_ofEdges : (ofEdges files edges).files = files := by
  rw [(ofEdges_spec hends).1, Path.distinct_eq_self hd]

/-- The edges of a graph are those it was made from, between its own spellings of the files. -/
theorem needs_ofEdges {x y : Path} :
    (ofEdges files edges).Needs x y ↔
      x ∈ files ∧ y ∈ files ∧ ∃ e ∈ edges, Path.Same x e.1 ∧ Path.Same y e.2 := by
  rw [(ofEdges_spec hends).2, Path.distinct_eq_self hd]

end OfEdges

end Recheck.Graph
