import Recheck.Proofs.FileTree
import Recheck.Proofs.Path.Pieces
import Recheck.Proofs.Run.History
import Recheck.Watch.Filter

/-!
# Watching the source files

The source files of a project are listed by walking its source directory; which paths are watched is
decided by looking at the path alone. Both ask for a source extension, and both apply the exclude
patterns to the path as seen from the project root: one to the path that was walked, the other to
the canonical path. If the source directory is spelled plainly (`PlainDir`) these two look the same
(`relativeTo_walked`). So a source file is watched unless it lies in the cache or in a directory of
tools (`isRelevant_iff_of_mem_files`).
-/

namespace Recheck

/-! ## Plain spellings -/

/-- The pieces between the slashes of a directory's spelling. A slash at the end does not count, nor
do pieces at the front of a relative path that are no components. -/
def dirPieces (dir : Path) : List (List Char) :=
  match dir.text.toList with
  | '/' :: cs => Path.dropSlash (Text.splitOn '/' cs)
  | cs => (Path.dropSlash (Text.splitOn '/' cs)).dropWhile fun piece => !Path.isStep piece

/-- The spelling of a directory leaves nothing to simplify: its pieces are names. -/
def PlainDir (dir : String) : Prop :=
  ∀ piece ∈ dirPieces (.ofText dir), ProperName (String.ofList piece)

instance (dir : String) : Decidable (PlainDir dir) :=
  inferInstanceAs (Decidable (∀ piece ∈ dirPieces (.ofText dir), ProperName (String.ofList piece)))

namespace Path

theorem filter_isStep_dropWhile (pieces : List (List Char)) :
    (pieces.dropWhile fun piece => !isStep piece).filter isStep = pieces.filter isStep := by
  induction pieces with
  | nil => rfl
  | cons piece pieces ih =>
    by_cases h : isStep piece = true
    · rw [List.dropWhile_cons_of_neg (by simp [h])]
    · rw [List.dropWhile_cons_of_pos (by simp [h]), ih, List.filter_cons_of_neg h]

/-- Pieces that are names, as names. -/
theorem exists_names {pieces : List (List Char)}
    (h : ∀ piece ∈ pieces, ProperName (String.ofList piece)) :
    ∃ names : List String, (∀ name ∈ names, ProperName name) ∧
      names.map String.toList = pieces := by
  refine ⟨pieces.map String.ofList, by simpa using h, ?_⟩
  rw [List.map_map]
  exact (List.map_congr_left fun piece _ => String.toList_ofList).trans (List.map_id _)

section Names

variable {names : List String} (h : ∀ name ∈ names, ProperName name)
include h

theorem no_slash_of_mem_map : ∀ piece ∈ names.map String.toList, '/' ∉ piece := by
  intro piece hpiece
  obtain ⟨name, hname, rfl⟩ := List.mem_map.mp hpiece
  exact (h name hname).no_slash

theorem isStep_of_mem_map : ∀ piece ∈ names.map String.toList, isStep piece = true := by
  intro piece hpiece
  obtain ⟨name, hname, rfl⟩ := List.mem_map.mp hpiece
  exact isStep_toList (h name hname)

theorem map_stepOf_names : (names.map String.toList).map stepOf = names.map .name := by
  rw [List.map_map]
  exact List.map_congr_left fun name hname => stepOf_toList (h name hname)

theorem dropSlash_names : dropSlash (names.map String.toList) = names.map String.toList := by
  rw [dropSlash, if_neg]
  intro hlast
  have hstep := isStep_of_mem_map h [] (List.mem_of_getLast? hlast)
  simp [isStep] at hstep

theorem splitOn_intercalate_names (hne : names ≠ []) :
    Text.splitOn '/' ("/".intercalate names).toList = names.map String.toList := by
  rw [String.toList_intercalate]
  exact Text.splitOn_join (by simpa using hne) (no_slash_of_mem_map h)

/-- Names after an absolute path are its last pieces. -/
theorem join_names {pieces : List (List Char)} (hslash : ∀ piece ∈ pieces, '/' ∉ piece)
    (hne : names ≠ []) :
    (ofPieces pieces).join ⟨"/".intercalate names⟩ =
      ofPieces (dropSlash pieces ++ names.map String.toList) := by
  have hrelative : (⟨"/".intercalate names⟩ : Path).isAbsolute = false := by
    rw [isAbsolute, beq_eq_false_iff_ne]
    exact head?_intercalate_ne h
  rw [join_ofPieces hslash hrelative, splitOn_intercalate_names h hne]

end Names

/-- The pieces of a directory that is given relative to the one with the names `base`. -/
def piecesFrom (base : List String) (dir : Path) : List (List Char) :=
  match dir.text.toList with
  | '/' :: cs => Text.splitOn '/' cs
  | cs => base.map String.toList ++ Text.splitOn '/' cs

variable {base : List String}

theorem piecesFrom_absolute {dir : Path} {cs : List Char} (h : dir.text.toList = '/' :: cs) :
    piecesFrom base dir = Text.splitOn '/' cs := by
  simp only [piecesFrom, h]

theorem piecesFrom_relative {dir : Path} (h : ∀ cs, dir.text.toList ≠ '/' :: cs) :
    piecesFrom base dir = base.map String.toList ++ Text.splitOn '/' dir.text.toList := by
  rw [piecesFrom]
  split
  · next cs hcs => exact absurd hcs (h cs)
  · rfl

variable (hbase : ∀ name ∈ base, ProperName name)
include hbase

theorem join_eq_ofPieces (dir : Path) :
    (ofNames base).join dir = ofPieces (piecesFrom base dir) := by
  by_cases habs : dir.isAbsolute = true
  · obtain ⟨cs, hcs, heq⟩ := eq_ofPieces_of_isAbsolute habs
    rw [join, if_pos habs, piecesFrom_absolute hcs, heq]
  · have hrel : ∀ cs, dir.text.toList ≠ '/' :: cs := fun cs hcs => habs (by simp [isAbsolute, hcs])
    rw [ofNames_eq_ofPieces, join_ofPieces (no_slash_of_mem_map hbase) (by simpa using habs),
      dropSlash_names hbase, piecesFrom_relative hrel]

theorem no_slash_piecesFrom (dir : Path) : ∀ piece ∈ piecesFrom base dir, '/' ∉ piece := by
  intro piece hpiece
  rw [piecesFrom] at hpiece
  split at hpiece
  · exact Text.not_mem_of_mem_splitOn hpiece
  · exact (List.mem_append.mp hpiece).elim (no_slash_of_mem_map hbase piece)
      Text.not_mem_of_mem_splitOn

end Path

/-! ## Walked paths -/

section Walked

variable {base start rest : Location} (dir : Path) (hbase : ∀ name ∈ base, ProperName name)
  (hrest : ∀ name ∈ rest, ProperName name) (hne : rest ≠ [])
include hbase hrest hne

/-- The path to a file below a directory, walked from the directory as it is spelled. -/
theorem walked_eq :
    ((Path.ofNames base).join dir).join ⟨"/".intercalate rest⟩ =
      Path.ofPieces (Path.dropSlash (Path.piecesFrom base dir) ++ rest.map String.toList) := by
  rw [Path.join_eq_ofPieces hbase, Path.join_names hrest (Path.no_slash_piecesFrom hbase dir) hne]

/-- The walked path has the extension of the canonical one. -/
theorem extension?_walked (hstart : ∀ name ∈ start, ProperName name) :
    (((Path.ofNames base).join dir).join ⟨"/".intercalate rest⟩).extension? =
      (Path.ofNames (start ++ rest)).extension? := by
  have hslash : ∀ piece ∈ Path.dropSlash (Path.piecesFrom base dir) ++ rest.map String.toList,
      '/' ∉ piece := by
    intro piece hpiece
    rcases List.mem_append.mp hpiece with hpiece | hpiece
    · exact Path.no_slash_piecesFrom hbase dir piece (Path.mem_of_mem_dropSlash hpiece)
    · exact Path.no_slash_of_mem_map hrest piece hpiece
  have hall : ∀ name ∈ start ++ rest, ProperName name := fun name hname =>
    (List.mem_append.mp hname).elim (hstart name) (hrest name)
  -- Both paths end with the names of `rest`.
  have hlast : ∀ front : List Component, (front ++ rest.map Component.name).getLast? =
      (rest.map Component.name).getLast? :=
    fun front => List.getLast?_append_of_ne_nil _ (by simpa using hne)
  have hwalked := Path.components_ofPieces hslash
  rw [List.filter_append, List.map_append,
    List.filter_eq_self.mpr (Path.isStep_of_mem_map hrest), Path.map_stepOf_names hrest,
    ← List.cons_append] at hwalked
  have hfile := Path.components_ofNames hall
  rw [List.map_append, ← List.cons_append] at hfile
  rw [walked_eq dir hbase hrest hne, Path.extension?, Path.extension?, Path.fileName?,
    Path.fileName?, hwalked, hfile, hlast, hlast]

/-- Below a plainly spelled directory, the walked path and the canonical one look the same from the
root. -/
theorem relativeTo_walked {t : FileTree} {entry : Entry}
    (hplain : ∀ piece ∈ dirPieces dir, ProperName (String.ofList piece))
    (hstart : t.resolve ((Path.ofNames base).join dir) = .ok (.entry start entry)) :
    (((Path.ofNames base).join dir).join ⟨"/".intercalate rest⟩).relativeTo (Path.ofNames base) =
      (Path.ofNames (start ++ rest)).relativeTo (Path.ofNames base) := by
  have habs : (Path.ofPieces (Path.piecesFrom base dir)).isAbsolute = true := by
    rw [Path.isAbsolute, Path.toList_ofPieces]
    rfl
  have hcomponents := Path.components_ofPieces (Path.no_slash_piecesFrom hbase dir)
  rw [walked_eq dir hbase hrest hne]
  rw [Path.join_eq_ofPieces hbase] at hstart
  rw [dirPieces] at hplain
  split at hplain
  · -- An absolute directory: the two paths are equal.
    next cs hcs =>
    obtain ⟨names, hnames, hmap⟩ := Path.exists_names hplain
    rw [Path.piecesFrom_absolute hcs] at hstart habs hcomponents ⊢
    rw [← Path.filter_isStep_dropSlash, ← hmap,
      List.filter_eq_self.mpr (Path.isStep_of_mem_map hnames), Path.map_stepOf_names hnames]
      at hcomponents
    obtain rfl : start = names := FileTree.eq_of_resolve_names habs hcomponents hstart
    rw [← hmap, Path.ofNames_eq_ofPieces (start ++ rest), List.map_append]
  · next hrel =>
    obtain ⟨names, hnames, hmap⟩ := Path.exists_names hplain
    rw [Path.piecesFrom_relative hrel] at hstart habs hcomponents ⊢
    have hfilter :
        (Text.splitOn '/' dir.text.toList).filter Path.isStep = names.map String.toList := by
      rw [← Path.filter_isStep_dropSlash, ← Path.filter_isStep_dropWhile, ← hmap,
        List.filter_eq_self.mpr (Path.isStep_of_mem_map hnames)]
    rw [List.filter_append, hfilter, List.filter_eq_self.mpr (Path.isStep_of_mem_map hbase),
      List.map_append, Path.map_stepOf_names hnames, Path.map_stepOf_names hbase,
      ← List.map_append] at hcomponents
    obtain rfl : start = base ++ names := FileTree.eq_of_resolve_names habs hcomponents hstart
    have hsteps : ∀ piece ∈ rest.map String.toList, '/' ∉ piece ∧ Path.isStep piece = true :=
      fun piece hpiece =>
        ⟨Path.no_slash_of_mem_map hrest piece hpiece, Path.isStep_of_mem_map hrest piece hpiece⟩
    have hwalked : ∀ piece ∈ Path.dropSlash (Text.splitOn '/' dir.text.toList), '/' ∉ piece :=
      fun piece hpiece => Text.not_mem_of_mem_splitOn (Path.mem_of_mem_dropSlash hpiece)
    rw [Path.dropSlash_append _ (Text.splitOn_ne_nil _ _), List.append_assoc,
      Path.relativeTo_ofPieces hbase hwalked hsteps (by simpa using hne), ← hmap,
      Path.ofNames_eq_ofPieces (base ++ names ++ rest), List.append_assoc, List.map_append,
      List.map_append,
      Path.relativeTo_ofPieces hbase (Path.no_slash_of_mem_map hnames) hsteps (by simpa using hne),
      Path.dropWhile_steps (Path.isStep_of_mem_map hnames)]

end Walked

/-! ## Source files -/

/-- What is known of a project that was found. -/
theorem detect_eq_ok {t : FileTree} {given : Path} {manifest dir : String} {project : Project}
    (ht : t.ProperNames) (h : Project.detect t given manifest dir = .ok project) :
    ∃ base start time, (∀ name ∈ base, ProperName name) ∧ project.root = Path.ofNames base ∧
      project.sourceDir = (Path.ofNames base).join (.ofText dir) ∧
      t.resolve project.sourceDir = .ok (.entry start (.dir time)) := by
  rw [Project.detect, FileTree.canonicalize, FileTree.locate] at h
  cases hresolve : t.resolve given with
  | error e => simp [hresolve, Except.map] at h
  | ok place =>
    cases place with
    | vacant parent name => simp [hresolve, Except.map] at h
    | entry base entry =>
      have hbase := ht.of_get? (FileTree.resolve_entry hresolve).2
      simp only [hresolve, Except.map] at h
      split at h
      · cases h
      split at h
      · cases h
      split at h
      · cases h
      next hdir =>
      obtain rfl := Except.ok.inj h
      obtain ⟨start, time, hstart⟩ := FileTree.resolve_of_isDir (by simpa using hdir)
      exact ⟨base, start, time, hbase, rfl, rfl, hstart⟩

/-- A source file lies below the source directory, and the path walked to it passes the tests. -/
theorem mem_sourceFiles {t : FileTree} {project : Project} {extensions : List String}
    {excludes : List Glob} {start : Location} {time : Int} {files : List Path} {f : Path}
    (ht : t.ProperNames) (hstart : t.resolve project.sourceDir = .ok (.entry start (.dir time)))
    (h : sourceFiles t project extensions excludes = .ok files) (hf : f ∈ files) :
    ∃ rest, rest ≠ [] ∧ (∀ name ∈ rest, ProperName name) ∧ f = Path.ofNames (start ++ rest) ∧
      hasExtension extensions (project.sourceDir.join ⟨"/".intercalate rest⟩) = true ∧
      Glob.anyMatch excludes
        ((project.sourceDir.join ⟨"/".intercalate rest⟩).relativeTo project.root) = false := by
  simp only [sourceFiles, hstart, Except.ok.injEq] at h
  subst h
  have hmem := Path.mem_of_mem_distinct hf
  rw [Path.mem_sort] at hmem
  obtain ⟨location, hlocation, rfl⟩ := List.mem_map.mp hmem
  obtain ⟨hbelow, hsource⟩ := List.mem_filter.mp hlocation
  obtain ⟨e, he, heq⟩ := List.mem_filterMap.mp hbelow
  dsimp only at heq
  split at heq
  · next hcond =>
    obtain rfl := Option.some.inj heq
    simp only [Bool.and_eq_true, decide_eq_true_eq, List.isPrefixOf_iff_prefix] at hcond
    obtain ⟨⟨-, hlength, rest, hrest⟩, -⟩ := hcond
    rw [← hrest] at hlength hsource ⊢
    rw [isSource, List.drop_left] at hsource
    simp only [Bool.and_eq_true, Bool.not_eq_true'] at hsource
    have hne : rest ≠ [] := by
      rintro rfl
      simp at hlength
    refine ⟨rest, hne, fun name hname => ht e he name ?_, rfl, hsource.1, hsource.2⟩
    rw [← hrest]
    exact List.mem_append_right start hname
  · cases heq

/-- Every source file of a project is watched, unless it lies in the cache, in a directory of tools,
or where the exclude patterns leave out its canonical path. If the source directory is spelled
plainly, they leave out no source file. -/
theorem isRelevant_iff_of_mem_files {t : FileTree} {given : Path} {config : Config}
    {project : Project} {excludes : List Glob} (ht : t.ProperNames)
    (hproject : Project.detect t given config.manifest config.sourceDir = .ok project)
    (hexcludes : config.excludes = .ok excludes) :
    ∃ r filter, References.collect t project config.extensions excludes = .ok r ∧
      PathFilter.ofConfig project.root config = .ok filter ∧
      (∀ f ∈ r.files,
        (filter.isRelevant f = true ↔
          f.startsWith (config.cachePath project.root) = false ∧
            PathFilter.underTools (f.relativeTo project.root) = false ∧
            Glob.anyMatch excludes (f.relativeTo project.root) = false)) ∧
      (PlainDir config.sourceDir →
        ∀ f ∈ r.files, Glob.anyMatch excludes (f.relativeTo project.root) = false) := by
  obtain ⟨base, start, time, hbase, hroot, hsource, hstart⟩ := detect_eq_ok ht hproject
  have hproper := ht.of_get? (FileTree.resolve_entry hstart).2
  obtain ⟨files, hfiles⟩ : ∃ files,
      sourceFiles t project config.extensions excludes = .ok files := by
    simp only [sourceFiles, hstart]
    exact ⟨_, rfl⟩
  have hmem := fun f (hf : f ∈ files) => mem_sourceFiles ht hstart hfiles hf
  rw [References.collect, PathFilter.ofConfig, hfiles, hexcludes]
  refine ⟨_, _, rfl, rfl, fun f hf => ?_, fun hplain f hf => ?_⟩
  · obtain ⟨rest, hne, hrest, rfl, hextension, -⟩ := hmem f hf
    rw [hasExtension, hsource, extension?_walked _ hbase hrest hne hproper, ← hasExtension]
      at hextension
    simp [PathFilter.isRelevant, hextension, and_assoc]
  · obtain ⟨rest, hne, hrest, rfl, -, hexcluded⟩ := hmem f hf
    rw [hsource] at hstart
    rw [hsource, hroot, relativeTo_walked _ hbase hrest hne hplain hstart]
      at hexcluded
    rw [hroot]
    exact hexcluded

namespace Sample

/-- A project with a source file in the source directory, one in a directory of tools, and one in a
directory of generated files. -/
def scattered : FileTree :=
  tree
    [(["p", "pubspec.yaml"], .file (Text.bytes "name: p\n") 1 true),
      file "a.dart" "import 'tools.dart';\n" 1,
      (["p", "lib", "node_modules"], .dir 1),
      (["p", "lib", "node_modules", "x.dart"], .file (Text.bytes "class X \x7b\x7d\n") 1 true),
      (["p", "lib", "gen"], .dir 1),
      (["p", "lib", "gen", "y.dart"], .file (Text.bytes "class Y \x7b\x7d\n") 1 true)]

/-- The generated files are kept in the cache. -/
def cachedInLib : Config := { excludePatterns := ["**/*.g.dart"], cacheDir := ⟨"lib/gen"⟩ }

/-- The generated files are excluded, and the source directory is spelled with a `.` inside. -/
def dottedLib : Config := { excludePatterns := ["lib/gen/*"], sourceDir := "./lib/./" }

end Sample

open Sample in
theorem isRelevant_iff_scattered :
    scattered.ProperNames ∧ PlainDir cachedInLib.sourceDir ∧
      Project.detect scattered ⟨"/p"⟩ cachedInLib.manifest cachedInLib.sourceDir =
        .ok setting.project ∧
      ∃ excludes r filter, cachedInLib.excludes = .ok excludes ∧
        References.collect scattered setting.project cachedInLib.extensions excludes = .ok r ∧
        PathFilter.ofConfig setting.project.root cachedInLib = .ok filter ∧
        r.files = [path "a.dart", path "gen/y.dart", path "node_modules/x.dart"] ∧
        ∀ f ∈ r.files,
          (filter.isRelevant f = true ↔
            f.startsWith (cachedInLib.cachePath setting.project.root) = false ∧
              PathFilter.underTools (f.relativeTo setting.project.root) = false) := by
  have ht : scattered.ProperNames := by decide +kernel
  have hplain : PlainDir cachedInLib.sourceDir := by decide +kernel
  obtain ⟨project, hproject, rfl⟩ :
      ∃ project, Project.detect scattered ⟨"/p"⟩ cachedInLib.manifest cachedInLib.sourceDir =
          .ok project ∧ project = setting.project := exists_ok_of_any (by decide +kernel)
  obtain ⟨excludes, hexcludes, hsources⟩ :
      ∃ excludes, cachedInLib.excludes = .ok excludes ∧
        (sourceFiles scattered setting.project cachedInLib.extensions excludes).toOption =
          some [path "a.dart", path "gen/y.dart", path "node_modules/x.dart"] :=
    exists_ok_of_any (by decide +kernel)
  obtain ⟨r, filter, hr, hfilter, hrelevant, hexcluded⟩ :=
    isRelevant_iff_of_mem_files ht hproject hexcludes
  rw [sourceFiles_of_collect hr] at hsources
  refine ⟨ht, hplain, hproject, excludes, r, filter, hexcludes, hr, hfilter,
    Option.some.inj hsources, fun f hf => ?_⟩
  rw [hrelevant f hf]
  simp [hexcluded hplain f hf]

/-- The source files of the project in a directory that are not watched. -/
def unwatched (t : FileTree) (given : Path) (config : Config) :
    Except ProjectError (List Path) := do
  let project ← Project.detect t given config.manifest config.sourceDir
  match config.excludes, PathFilter.ofConfig project.root config with
  | .ok excludes, .ok filter =>
    match References.collect t project config.extensions excludes with
    | .ok r => return r.files.filter fun f => !filter.isRelevant f
    | .error _ => return []
  | _, _ => return []

open Sample in
/-- A source file in a directory of tools is not watched, nor is one in the cache, nor one of which
the exclude patterns leave out the canonical path but not the walked one. -/
theorem unwatched_scattered :
    (unwatched scattered ⟨"/p"⟩ cachedInLib).toOption =
        some [path "gen/y.dart", path "node_modules/x.dart"] ∧
      (unwatched scattered ⟨"/p"⟩ dottedLib).toOption =
        some [path "gen/y.dart", path "node_modules/x.dart"] := by
  decide +kernel

end Recheck
