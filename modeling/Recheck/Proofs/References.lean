import Recheck.Proofs.Graph.Edges
import Recheck.References

/-!
# References and the file graph

A file refers to the paths that its directives lead to (`RefersTo`); this depends on the file tree
through the content of the file alone (`RefersTo.congr`). The graph of a project has an edge for
each reference to a source file (`needs_iff_refersTo`), and its missing files are the other internal
references (`exists_missing_iff_refersTo`).
-/

namespace Recheck

/-- A directive of the file `u` leads to the path `target`. -/
def RefersTo (t : FileTree) (project : Project) (u target : Path) : Prop :=
  ∃ text, t.readText u = .ok text ∧
    ∃ reference ∈ Source.references text.toList, target? project u reference = some target

/-- The content of a file that can be read. -/
def FileTree.content? (t : FileTree) (p : Path) : Option (List UInt8) := (t.read p).toOption

theorem readText_eq_ok_iff {t : FileTree} {u : Path} {text : String} :
    t.readText u = .ok text ↔
      ∃ content, t.content? u = some content ∧ Text.ofBytes? content = some text := by
  rw [FileTree.readText, FileTree.content?]
  cases t.read u with
  | error e => simp [Except.toOption]
  | ok content =>
    simp only [Except.toOption, Option.some.injEq, exists_eq_left']
    cases Text.ofBytes? content <;> simp

theorem RefersTo.congr {t t' : FileTree} {project : Project} {u target : Path}
    (h : t.content? u = t'.content? u) :
    RefersTo t project u target ↔ RefersTo t' project u target := by
  simp only [RefersTo, readText_eq_ok_iff, h]

/-- The source files can be listed if the source directory is one. -/
theorem exists_sourceFiles_iff {t : FileTree} {project : Project} {extensions : List String}
    {excludes : List Glob} :
    (∃ files, sourceFiles t project extensions excludes = .ok files) ↔
      t.isDir project.sourceDir = true := by
  rw [sourceFiles, FileTree.isDir, FileTree.stat]
  cases t.resolve project.sourceDir with
  | error e => simp
  | ok place =>
    cases place with
    | vacant dir name => simp
    | entry location entry => cases entry <;> simp [Entry.isDir]

/-! ## The references of one file -/

/-- The reference leads to no listed file. -/
def isUnlisted (project : Project) (files : List Path) (file : Path) (reference : List Char) :
    Bool :=
  !(target? project file reference).any fun target => Path.memSame target files

section OneFile

variable {project : Project} {files : List Path} {file : Path}

theorem missing_foldl_add (references : List (List Char)) (r : FileReferences) :
    (references.foldl (FileReferences.add project files file) r).missing =
      r.missing ++
        (references.filter (isUnlisted project files file)).filterMap (target? project file) := by
  induction references generalizing r with
  | nil => simp
  | cons reference references ih =>
    rw [List.foldl_cons, ih, FileReferences.add, List.filter_cons, isUnlisted]
    cases ht : target? project file reference with
    | none => simp [ht]
    | some target =>
      by_cases hf : Path.memSame target files = true
      · by_cases hd : Path.memSame target r.dependencies = true <;> simp [hf, hd]
      · simp [hf, ht]

/-- The dependencies are the listed files that the references lead to, each once. -/
theorem dependencies_foldl_add (references : List (List Char)) (r : FileReferences) :
    (references.foldl (FileReferences.add project files file) r).dependencies =
      ((references.filterMap (target? project file)).filter fun target =>
        Path.memSame target files).foldl Path.insert r.dependencies := by
  induction references generalizing r with
  | nil => rfl
  | cons reference references ih =>
    rw [List.foldl_cons, ih, FileReferences.add]
    cases ht : target? project file reference with
    | none => rw [List.filterMap_cons_none ht]
    | some target =>
      rw [List.filterMap_cons_some ht, List.filter_cons]
      by_cases hf : Path.memSame target files = true
      · rw [if_pos hf, List.foldl_cons, Path.insert]
        by_cases hd : Path.memSame target r.dependencies = true <;> simp [hf, hd]
      · simp [hf]

end OneFile

theorem memSame_dependencies_iff {t : FileTree} {project : Project} {files : List Path}
    {u v : Path} :
    Path.memSame v (fileReferences t project files u).dependencies = true ↔
      ∃ target, RefersTo t project u target ∧ Path.memSame target files = true ∧
        Path.Same target v := by
  simp only [fileReferences, RefersTo]
  cases t.readText u with
  | error e => simp
  | ok text =>
    simp only [dependencies_foldl_add, Path.memSame_foldl_insert, Path.not_memSame_nil,
      Bool.false_eq_true, false_or, Except.ok.injEq, exists_eq_left']
    rw [Path.memSame_iff]
    simp only [List.mem_filter, List.mem_filterMap, and_assoc]

theorem mem_missing_iff {t : FileTree} {project : Project} {files : List Path} {u target : Path} :
    target ∈ (fileReferences t project files u).missing ↔
      RefersTo t project u target ∧ Path.memSame target files = false := by
  simp only [fileReferences, RefersTo]
  cases t.readText u with
  | error e => simp
  | ok text =>
    simp only [missing_foldl_add, List.nil_append, List.mem_filterMap, List.mem_filter, isUnlisted,
      Bool.not_eq_true', Except.ok.injEq, exists_eq_left']
    constructor
    · rintro ⟨reference, ⟨hmem, hout⟩, htarget⟩
      exact ⟨⟨reference, hmem, htarget⟩, by simpa [htarget] using hout⟩
    · rintro ⟨⟨reference, hmem, htarget⟩, hout⟩
      exact ⟨reference, ⟨hmem, by simpa [htarget] using hout⟩, htarget⟩

/-! ## The references of a project -/

section Collect

variable {t : FileTree} {project : Project} {extensions : List String} {excludes : List Glob}

theorem pairwise_sourceFiles {files : List Path}
    (h : sourceFiles t project extensions excludes = .ok files) :
    files.Pairwise fun p q => ¬ Path.Same p q := by
  rw [sourceFiles] at h
  split at h
  · obtain rfl := Except.ok.inj h
    exact Path.pairwise_distinct _
  · cases h

/-- What is collected depends on the source files and their texts alone. -/
theorem collect_congr {t' : FileTree} {files : List Path}
    (hs : sourceFiles t project extensions excludes = .ok files)
    (hs' : sourceFiles t' project extensions excludes = .ok files)
    (htext : ∀ f ∈ files, t'.readText f = t.readText f) :
    References.collect t' project extensions excludes =
      References.collect t project extensions excludes := by
  have hrefs : files.map (fun f => (f, fileReferences t' project files f)) =
      files.map (fun f => (f, fileReferences t project files f)) :=
    List.map_congr_left fun f hf => by rw [fileReferences, fileReferences, htext f hf]
  simp only [References.collect, hs, hs', Except.map, hrefs]

variable {r : References} (h : References.collect t project extensions excludes = .ok r)
include h

theorem sourceFiles_of_collect : sourceFiles t project extensions excludes = .ok r.files := by
  rw [References.collect] at h
  cases hs : sourceFiles t project extensions excludes with
  | error e => simp [hs, Except.map] at h
  | ok files =>
    simp only [hs, Except.map, Except.ok.injEq] at h
    rw [← h]

theorem mem_edges_collect {e : Path × Path} :
    e ∈ r.edges ↔ e.1 ∈ r.files ∧ e.2 ∈ (fileReferences t project r.files e.1).dependencies := by
  have hs := sourceFiles_of_collect h
  rw [References.collect, hs] at h
  simp only [Except.map, Except.ok.injEq] at h
  rw [← h]
  obtain ⟨u, v⟩ := e
  simp [List.mem_flatMap]

theorem mem_missing_collect {e : Path × List Path} :
    e ∈ r.missing ↔
      e.1 ∈ r.files ∧ e.2 = (fileReferences t project r.files e.1).missing ∧ e.2 ≠ [] := by
  have hs := sourceFiles_of_collect h
  rw [References.collect, hs] at h
  simp only [Except.map, Except.ok.injEq] at h
  rw [← h]
  obtain ⟨u, ts⟩ := e
  simp only [List.map_map, List.mem_filter, List.mem_map, Function.comp_apply, Prod.mk.injEq]
  constructor
  · rintro ⟨⟨u', hu', rfl, rfl⟩, hne⟩
    exact ⟨hu', rfl, by simpa using hne⟩
  · rintro ⟨hu, rfl, hne⟩
    exact ⟨⟨u, hu, rfl, rfl⟩, by simpa using hne⟩

theorem ends_collect : Graph.EndsIn r.files r.edges := by
  intro e he
  obtain ⟨h1, h2⟩ := (mem_edges_collect h).mp he
  refine ⟨Path.memSame_of_mem h1, ?_⟩
  obtain ⟨target, -, hf, hs⟩ := memSame_dependencies_iff.mp (Path.memSame_of_mem h2)
  exact Path.memSame_of_same hs.symm hf

theorem files_ofEdges_collect : (Graph.ofEdges r.files r.edges).files = r.files :=
  Graph.files_ofEdges (pairwise_sourceFiles (sourceFiles_of_collect h)) (ends_collect h)

/-- A file of the graph needs the files that its directives lead to. -/
theorem needs_iff_refersTo {u v : Path} :
    (Graph.ofEdges r.files r.edges).Needs u v ↔
      u ∈ r.files ∧ v ∈ r.files ∧ ∃ target, RefersTo t project u target ∧ Path.Same target v := by
  have hd := pairwise_sourceFiles (sourceFiles_of_collect h)
  rw [Graph.needs_ofEdges hd (ends_collect h)]
  refine and_congr_right fun hu => and_congr_right fun hv => ?_
  constructor
  · rintro ⟨e, he, hs1, hs2⟩
    obtain ⟨h1, h2⟩ := (mem_edges_collect h).mp he
    obtain rfl := Path.eq_of_same hd hu h1 hs1
    obtain ⟨target, hr, -, hs⟩ := memSame_dependencies_iff.mp (Path.memSame_of_mem h2)
    exact ⟨target, hr, hs.trans hs2.symm⟩
  · rintro ⟨target, hr, hs⟩
    have hf : Path.memSame target r.files = true :=
      Path.memSame_of_same hs (Path.memSame_of_mem hv)
    obtain ⟨w, hw, hsw⟩ := Path.memSame_iff.mp (memSame_dependencies_iff.mpr ⟨target, hr, hf, hs⟩)
    exact ⟨(u, w), (mem_edges_collect h).mpr ⟨hu, hw⟩, Path.Same.refl u, hsw.symm⟩

/-- The missing files listed for a file are where its other directives lead. -/
theorem exists_missing_iff_refersTo {u target : Path} :
    (∃ e ∈ r.missing, e.1 = u ∧ target ∈ e.2) ↔
      u ∈ r.files ∧ RefersTo t project u target ∧ Path.memSame target r.files = false := by
  constructor
  · rintro ⟨e, he, rfl, ht⟩
    obtain ⟨hu, heq, -⟩ := (mem_missing_collect h).mp he
    exact ⟨hu, mem_missing_iff.mp (heq ▸ ht)⟩
  · rintro ⟨hu, hr⟩
    have ht := mem_missing_iff.mpr hr
    exact ⟨(u, (fileReferences t project r.files u).missing),
      (mem_missing_collect h).mpr ⟨hu, rfl, List.ne_nil_of_mem ht⟩, rfl, ht⟩

end Collect

end Recheck
