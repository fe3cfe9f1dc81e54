import Recheck.Proofs.Path.Order
import Recheck.Proofs.References

/-!
# An account of all references

Each reference of a source file is accounted for once: it gives an edge to the source file that it
leads to, however often the file is referred to, or else it is listed as external, in its place and
as often as it occurs (`external_foldl_add`). Where an external reference is internal by its form,
the path that it leads to is listed as missing (`missing_fileReferences`).

`References.Accounts` says this of what is collected for a whole project, and that the graph of
these files and edges has no further files (`collect_accounts`).
-/

namespace Recheck

/-! ## Files in order -/

namespace Path

/-- Leaving out repetitions keeps the order. -/
theorem exists_sublist_foldl_insert (paths : List Path) (acc : List Path) :
    ∃ rest : List Path, rest.Sublist paths ∧ paths.foldl insert acc = acc ++ rest := by
  induction paths generalizing acc with
  | nil => exact ⟨[], .slnil, (List.append_nil acc).symm⟩
  | cons p paths ih =>
    obtain ⟨rest, hrest, heq⟩ := ih (insert acc p)
    rw [List.foldl_cons, heq, insert]
    split
    · exact ⟨rest, hrest.cons p, rfl⟩
    · exact ⟨p :: rest, hrest.cons_cons p, by rw [List.append_assoc, List.singleton_append]⟩

theorem distinct_sublist (paths : List Path) : (distinct paths).Sublist paths := by
  obtain ⟨rest, hrest, heq⟩ := exists_sublist_foldl_insert paths []
  rw [distinct, heq, List.nil_append]
  exact hrest

/-- Sorted paths without repetitions ascend. -/
theorem pairwise_lt_distinct_sort (paths : List Path) :
    (distinct (sort paths)).Pairwise fun p q => le p q = true ∧ ¬ Same p q :=
  ((pairwise_sort paths).sublist (distinct_sublist _)).and (pairwise_distinct _)

theorem countP_same {paths : List Path} (hd : paths.Pairwise fun p q => ¬ Same p q) {v : Path}
    (hv : memSame v paths = true) : paths.countP (fun p => decide (Same p v)) = 1 := by
  induction paths with
  | nil => cases hv
  | cons p paths ih =>
    obtain ⟨hp, hd⟩ := List.pairwise_cons.mp hd
    by_cases hs : Same p v
    · have hrest : paths.countP (fun q => decide (Same q v)) = 0 := by
        refine List.countP_eq_zero.mpr fun q hq => ?_
        have hne : ¬ Same q v := fun hq' => hp q hq (hs.trans hq'.symm)
        simp [hne]
      rw [List.countP_cons_of_pos (by simp [hs]), hrest]
    · rw [List.countP_cons_of_neg (by simp [hs])]
      exact ih hd ((memSame_cons.mp hv).resolve_left hs)

end Path

theorem ascending_sourceFiles {t : FileTree} {project : Project} {extensions : List String}
    {excludes : List Glob} {files : List Path}
    (h : sourceFiles t project extensions excludes = .ok files) :
    files.Pairwise fun p q => Path.le p q = true ∧ ¬ Path.Same p q := by
  rw [sourceFiles] at h
  split at h
  · obtain rfl := Except.ok.inj h
    exact Path.pairwise_lt_distinct_sort _
  · cases h

/-! ## The references of one file -/

section OneFile

variable {project : Project} {files : List Path} {file : Path}

theorem external_foldl_add (references : List (List Char)) (r : FileReferences) :
    (references.foldl (FileReferences.add project files file) r).external =
      r.external ++ (references.filter (isUnlisted project files file)).map String.ofList := by
  induction references generalizing r with
  | nil => simp
  | cons reference references ih =>
    rw [List.foldl_cons, ih, FileReferences.add, List.filter_cons, isUnlisted]
    cases target? project file reference with
    | none => simp
    | some target =>
      by_cases hf : Path.memSame target files = true
      · by_cases hd : Path.memSame target r.dependencies = true <;> simp [hf, hd]
      · simp [hf]

theorem pairwise_dependencies (t : FileTree) :
    (fileReferences t project files file).dependencies.Pairwise fun p q => ¬ Path.Same p q := by
  rw [fileReferences]
  cases t.readText file with
  | error e => exact .nil
  | ok text =>
    rw [dependencies_foldl_add]
    exact Path.pairwise_foldl_insert .nil _

theorem external_fileReferences {t : FileTree} {text : String} (h : t.readText file = .ok text) :
    (fileReferences t project files file).external =
      ((Source.references text.toList).filter (isUnlisted project files file)).map
        String.ofList := by
  simp only [fileReferences, h, external_foldl_add, List.nil_append]

theorem missing_fileReferences {t : FileTree} {text : String} (h : t.readText file = .ok text) :
    (fileReferences t project files file).missing =
      ((Source.references text.toList).filter (isUnlisted project files file)).filterMap
        (target? project file) := by
  simp only [fileReferences, h, missing_foldl_add, List.nil_append]

/-- A file that is no text has no references. -/
theorem fileReferences_of_unread {t : FileTree} (h : ∀ text, t.readText file ≠ .ok text) :
    fileReferences t project files file = {} := by
  rw [fileReferences]
  cases hread : t.readText file with
  | error e => rfl
  | ok text => exact absurd hread (h text)

/-- What a file lists of its references, if that is something, its text gives. -/
theorem eq_of_fileReferences_iff {α : Type} {t : FileTree} {values : FileReferences → List α}
    {given : String → List α} (hempty : values {} = [])
    (hgiven : ∀ text, t.readText file = .ok text →
      values (fileReferences t project files file) = given text) {xs : List α} (hxs : xs ≠ []) :
    xs = values (fileReferences t project files file) ↔
      ∃ text, t.readText file = .ok text ∧ xs = given text := by
  constructor
  · rintro rfl
    cases hread : t.readText file with
    | ok text => exact ⟨text, rfl, hgiven text hread⟩
    | error e =>
      rw [fileReferences_of_unread (by simp [hread])] at hxs
      exact absurd hempty hxs
  · rintro ⟨text, hread, rfl⟩
    exact (hgiven text hread).symm

end OneFile

/-! ## Edges and entries by file -/

/-- Of the pairs made for each file, those that come from one file. -/
theorem filter_flatMap_pairs {files : List Path} (hd : files.Pairwise fun p q => ¬ Path.Same p q)
    (ends : Path → List Path) {f : Path} (hf : f ∈ files) :
    (files.flatMap fun u => (ends u).map fun v => (u, v)).filter
        (fun e => decide (Path.Same e.1 f)) = (ends f).map fun v => (f, v) := by
  have hother : ∀ u, ¬ Path.Same u f →
      ((ends u).map fun v => (u, v)).filter (fun e => decide (Path.Same e.1 f)) = [] := by
    intro u hu
    simp [hu]
  induction files with
  | nil => cases hf
  | cons u files ih =>
    obtain ⟨hu, hd⟩ := List.pairwise_cons.mp hd
    rw [List.flatMap_cons, List.filter_append]
    rcases List.mem_cons.mp hf with rfl | hf
    · have hrest : (files.flatMap fun u => (ends u).map fun v => (u, v)).filter
          (fun e => decide (Path.Same e.1 f)) = [] := by
        rw [List.filter_flatMap, List.flatMap_eq_nil_iff]
        exact fun u' hu' => hother u' fun hs => hu u' hu' hs.symm
      rw [hrest, List.append_nil]
      exact List.filter_eq_self.mpr (by simp [Path.Same.refl])
    · rw [hother u (hu f hf), List.nil_append, ih hd hf]

/-- The entries made for each file that has some values. -/
theorem mem_filter_entries {α : Type} {files : List Path} {values : Path → List α} {f : Path}
    {xs : List α} :
    (f, xs) ∈ (files.map fun u => (u, values u)).filter (fun e => !e.2.isEmpty) ↔
      f ∈ files ∧ xs ≠ [] ∧ xs = values f := by
  simp only [List.mem_filter, List.mem_map, Prod.mk.injEq]
  constructor
  · rintro ⟨⟨u, hu, rfl, rfl⟩, hne⟩
    exact ⟨hu, by simpa using hne, rfl⟩
  · rintro ⟨hf, hne, rfl⟩
    exact ⟨⟨f, hf, rfl, rfl⟩, by simpa using hne⟩

theorem keys_filter_entries_sublist {α : Type} (files : List Path) (values : Path → List α) :
    (((files.map fun u => (u, values u)).filter fun e => !e.2.isEmpty).map (·.1)).Sublist
      files := by
  have hkeys : (files.map fun u => (u, values u)).map (·.1) = files := by
    rw [List.map_map]
    exact List.map_id files
  have hsub := (List.filter_sublist (p := fun e : Path × List α => !e.2.isEmpty)
    (l := files.map fun u => (u, values u))).map (·.1)
  rwa [hkeys] at hsub

/-! ## The references of a project -/

/-- What is collected accounts for every reference of every source file. -/
structure References.Accounts (t : FileTree) (project : Project) (r : References) : Prop where
  ascending : r.files.Pairwise fun p q => Path.le p q = true ∧ ¬ Path.Same p q
  /-- A listed file that some reference of a file leads to is the end of one edge from it. -/
  edge_once : ∀ f ∈ r.files, ∀ v ∈ r.files, ∀ target, RefersTo t project f target →
    Path.Same target v → r.edges.countP (fun e => decide (Path.Same e.1 f ∧ Path.Same e.2 v)) = 1
  /-- There are no other edges. -/
  edge_only : ∀ e ∈ r.edges, e.1 ∈ r.files ∧ ∃ v ∈ r.files, Path.Same e.2 v ∧
    ∃ target, RefersTo t project e.1 target ∧ Path.Same target v
  /-- The references of a file that lead to no listed file, as they are written. -/
  external_iff : ∀ f uris, (f, uris) ∈ r.external ↔
    f ∈ r.files ∧ uris ≠ [] ∧ ∃ text, t.readText f = .ok text ∧
      uris = ((Source.references text.toList).filter (isUnlisted project r.files f)).map
        String.ofList
  /-- Where those among them lead that are internal. -/
  missing_iff : ∀ f targets, (f, targets) ∈ r.missing ↔
    f ∈ r.files ∧ targets ≠ [] ∧ ∃ text, t.readText f = .ok text ∧
      targets = ((Source.references text.toList).filter (isUnlisted project r.files f)).filterMap
        (target? project f)
  /-- A file has at most one entry. -/
  external_keys : (r.external.map (·.1)).Sublist r.files
  missing_keys : (r.missing.map (·.1)).Sublist r.files
  /-- Nothing comes from a file that is no text. -/
  unread : ∀ f, (∀ text, t.readText f ≠ .ok text) →
    (∀ e ∈ r.edges, e.1 ≠ f) ∧ (∀ e ∈ r.external, e.1 ≠ f) ∧ ∀ e ∈ r.missing, e.1 ≠ f
  graph_files : (Graph.ofEdges r.files r.edges).files = r.files

section Collect

variable {t : FileTree} {project : Project} {extensions : List String} {excludes : List Glob}
  {r : References} (h : References.collect t project extensions excludes = .ok r)
include h

theorem eq_of_collect :
    r.edges = r.files.flatMap (fun f =>
        (fileReferences t project r.files f).dependencies.map fun target => (f, target)) ∧
      r.external = (r.files.map fun f => (f, (fileReferences t project r.files f).external)).filter
        (fun e => !e.2.isEmpty) ∧
      r.missing = (r.files.map fun f => (f, (fileReferences t project r.files f).missing)).filter
        fun e => !e.2.isEmpty := by
  have hs := sourceFiles_of_collect h
  rw [References.collect, hs] at h
  simp only [Except.map, Except.ok.injEq] at h
  rw [← h]
  simp [List.flatMap_map, Function.comp_def]

theorem countP_edges_collect {f v : Path} (hf : f ∈ r.files) :
    r.edges.countP (fun e => decide (Path.Same e.1 f ∧ Path.Same e.2 v)) =
      (fileReferences t project r.files f).dependencies.countP fun p => decide (Path.Same p v) := by
  have hd := pairwise_sourceFiles (sourceFiles_of_collect h)
  have hfrom := filter_flatMap_pairs hd
    (fun u => (fileReferences t project r.files u).dependencies) hf
  rw [← (eq_of_collect h).1] at hfrom
  calc r.edges.countP (fun e => decide (Path.Same e.1 f ∧ Path.Same e.2 v))
      = (r.edges.filter fun e => decide (Path.Same e.1 f)).countP
          fun e => decide (Path.Same e.2 v) := by
        simp only [List.countP_filter, Bool.decide_and, Bool.and_comm]
    _ = (fileReferences t project r.files f).dependencies.countP
          fun p => decide (Path.Same p v) := by
        rw [hfrom, List.countP_map]
        rfl

theorem edge_once_collect {f v target : Path} (hf : f ∈ r.files) (hv : v ∈ r.files)
    (href : RefersTo t project f target) (hs : Path.Same target v) :
    r.edges.countP (fun e => decide (Path.Same e.1 f ∧ Path.Same e.2 v)) = 1 := by
  have hlisted : Path.memSame target r.files = true :=
    Path.memSame_of_same hs (Path.memSame_of_mem hv)
  rw [countP_edges_collect h hf]
  exact Path.countP_same (pairwise_dependencies t)
    (memSame_dependencies_iff.mpr ⟨target, href, hlisted, hs⟩)

theorem edge_only_collect {e : Path × Path} (he : e ∈ r.edges) :
    e.1 ∈ r.files ∧ ∃ v ∈ r.files, Path.Same e.2 v ∧
      ∃ target, RefersTo t project e.1 target ∧ Path.Same target v := by
  obtain ⟨h1, h2⟩ := (mem_edges_collect h).mp he
  obtain ⟨target, href, hlisted, hs⟩ := memSame_dependencies_iff.mp (Path.memSame_of_mem h2)
  obtain ⟨v, hv, hvs⟩ := Path.memSame_iff.mp hlisted
  exact ⟨h1, v, hv, hs.symm.trans hvs.symm, target, href, hvs.symm⟩

/-- Nothing is collected from a file that is no text. -/
theorem unread_collect {f : Path} (hf : ∀ text, t.readText f ≠ .ok text) :
    (∀ e ∈ r.edges, e.1 ≠ f) ∧ (∀ e ∈ r.external, e.1 ≠ f) ∧ ∀ e ∈ r.missing, e.1 ≠ f := by
  have hnone : fileReferences t project r.files f = {} := fileReferences_of_unread hf
  obtain ⟨-, hexternal, hmissing⟩ := eq_of_collect h
  refine ⟨?_, ?_, ?_⟩
  · rintro ⟨u, v⟩ he rfl
    have hv := ((mem_edges_collect h).mp he).2
    rw [hnone] at hv
    cases hv
  · rintro ⟨u, xs⟩ he rfl
    rw [hexternal, mem_filter_entries, hnone] at he
    exact he.2.1 he.2.2
  · rintro ⟨u, xs⟩ he rfl
    rw [hmissing, mem_filter_entries, hnone] at he
    exact he.2.1 he.2.2

theorem accounts_of_collect : r.Accounts t project := by
  have hs := sourceFiles_of_collect h
  obtain ⟨-, hexternal, hmissing⟩ := eq_of_collect h
  exact
    { ascending := ascending_sourceFiles hs
      edge_once := fun f hf v hv target => edge_once_collect h hf hv
      edge_only := fun e => edge_only_collect h
      external_iff := fun f uris => by
        rw [hexternal, mem_filter_entries]
        exact and_congr_right fun _ => and_congr_right
          (eq_of_fileReferences_iff rfl fun text => external_fileReferences)
      missing_iff := fun f targets => by
        rw [hmissing, mem_filter_entries]
        exact and_congr_right fun _ => and_congr_right
          (eq_of_fileReferences_iff rfl fun text => missing_fileReferences)
      external_keys := hexternal ▸ keys_filter_entries_sublist _ _
      missing_keys := hmissing ▸ keys_filter_entries_sublist _ _
      unread := fun f => unread_collect h
      graph_files := files_ofEdges_collect h }

end Collect

/-- The references of a project can be collected if its source directory is one, and each of them is
accounted for. -/
theorem collect_accounts (t : FileTree) (project : Project) (extensions : List String)
    (excludes : List Glob) :
    ((∃ r, References.collect t project extensions excludes = .ok r) ↔
        t.isDir project.sourceDir = true) ∧
      ∀ r, References.collect t project extensions excludes = .ok r → r.Accounts t project := by
  refine ⟨?_, fun r h => accounts_of_collect h⟩
  rw [← @exists_sourceFiles_iff t project extensions excludes, References.collect]
  cases sourceFiles t project extensions excludes <;> simp [Except.map]

end Recheck
