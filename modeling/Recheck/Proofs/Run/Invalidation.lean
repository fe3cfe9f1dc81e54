import Recheck.Proofs.Run.History

/-!
# No change is lost

A file is outside of the change set of a run only if an earlier run delivered it as changed, and
since the last run that did, nothing has changed for it: it depends on the same files, and it and
all these files have the content that they had then (`unchanged_since_delivery`). Files that fail
and runs that are stopped in between make no difference, nor does the number of workers. This is
about files that the store can tell from all others: their names and those of the files that they
depend on are UTF-8, and no other source file is shown alike.

The argument compares each run with the one before it (`content_eq_of_not_mem_changeSet`).
-/

namespace Recheck

/-- Two relations that agree on all that can be reached with the first reach the same. -/
theorem transGen_congr {α : Type} {r r' : α → α → Prop} {a : α}
    (h : ∀ u, u = a ∨ Relation.TransGen r a u → ∀ v, r u v ↔ r' u v) (b : α) :
    Relation.TransGen r a b ↔ Relation.TransGen r' a b := by
  constructor
  · intro hab
    induction hab with
    | single hab => exact .single ((h a (.inl rfl) _).mp hab)
    | tail hab hbc ih => exact ih.tail ((h _ (.inr hab) _).mp hbc)
  · intro hab
    induction hab with
    | single hab => exact .single ((h a (.inl rfl) _).mpr hab)
    | tail _ hbc ih => exact ih.tail ((h _ (.inr ih) _).mpr hbc)

/-- Over the given runs, different contents of a source file have different normal forms. -/
def NormalFormsTell (h : List Completed) : Prop :=
  ∀ c ∈ h, ∀ c' ∈ h, ∀ f ∈ c.graph.files, f ∈ c'.graph.files →
    ∀ x ∈ c.tree.content? f, ∀ x' ∈ c'.tree.content? f,
      Content.normalize x = Content.normalize x' → x = x'

/-- The files and their contents over which nothing is lost: runs that find the same files, all of
which can be read, and whose contents can be told apart. -/
structure Watched (s : Setting) (files : List Path) (h : List Completed) : Prop where
  files_iff : ∀ c ∈ h, ∀ f, f ∈ c.graph.files ↔ f ∈ files
  readable : ∀ c ∈ h, ∀ f ∈ files, c.tree.Readable f
  times : TimesTell h
  normalForms : NormalFormsTell h
  digests : DigestTells s.digest h

/-- The file depends on the same files in both runs, and it and these have the same contents. -/
structure SameFor (f : Path) (m n : Completed) : Prop where
  dependsOn_iff : ∀ g, n.graph.DependsOn f g ↔ m.graph.DependsOn f g
  content_eq : ∀ g, g = f ∨ n.graph.DependsOn f g → m.tree.content? g = n.tree.content? g

theorem SameFor.trans {f : Path} {m c n : Completed} (h : SameFor f m c) (h' : SameFor f c n) :
    SameFor f m n where
  dependsOn_iff g := (h'.dependsOn_iff g).trans (h.dependsOn_iff g)
  content_eq g hg :=
    (h.content_eq g (hg.imp_right (h'.dependsOn_iff g).mp)).trans (h'.content_eq g hg)

namespace Watched

variable {s : Setting} {start : Store} {files : List Path} {n c : Completed} {h : List Completed}

theorem tail (hw : Watched s files (c :: h)) : Watched s files h where
  files_iff c hc := hw.files_iff c (List.mem_cons_of_mem _ hc)
  readable c hc := hw.readable c (List.mem_cons_of_mem _ hc)
  times := hw.times.mono (List.subset_cons_self _ _)
  normalForms c hc c' hc' :=
    hw.normalForms c (List.mem_cons_of_mem _ hc) c' (List.mem_cons_of_mem _ hc')
  digests c hc c' hc' := hw.digests c (List.mem_cons_of_mem _ hc) c' (List.mem_cons_of_mem _ hc')

/-- The digest tells different contents apart. -/
theorem content_eq_of_hash_eq (hw : Watched s files h) {c c' : Completed} (hc : c ∈ h)
    (hc' : c' ∈ h) {f : Path} (hf : f ∈ files)
    (hhash : (recordOf s.digest c.tree f).hash = (recordOf s.digest c'.tree f).hash) :
    c.tree.content? f = c'.tree.content? f := by
  obtain ⟨x, hx⟩ := FileTree.readable_iff.mp (hw.readable c hc f hf)
  obtain ⟨x', hx'⟩ := FileTree.readable_iff.mp (hw.readable c' hc' f hf)
  have hfc := (hw.files_iff c hc f).mpr hf
  have hfc' := (hw.files_iff c' hc' f).mpr hf
  rw [hash_recordOf, hash_recordOf, hx, hx'] at hhash
  have hnormal := hw.digests c hc c' hc' f hfc hfc' x hx x' hx' hhash
  rw [hx, hx', hw.normalForms c hc c' hc' f hfc hfc' x hx x' hx' hnormal]

theorem ownKeyIn (hw : Watched s files h) {f : Path} (hkey : f.OwnKey files) : OwnKeyIn h f :=
  fun c hc => ⟨hkey.isText, fun g hg => hkey.unique g ((hw.files_iff c hc g).mp hg)⟩

variable (hcache : s.config.enableCache = true) (hstart : ∀ p, start.data.get? p = none)
include hcache hstart

/-- A file outside of the change set has the content that it had in the run before, and that run did
not leave it unresolved. -/
theorem content_eq_of_not_mem_changeSet (hist : s.History start (n :: c :: h))
    (hw : Watched s files (n :: c :: h)) {f : Path} (hkey : f.OwnKey files) (hf : f ∈ files)
    (hout : Path.memSame f n.analysis.changeSet = false) :
    Path.memSame f c.data.pendingPaths = false ∧ c.tree.content? f = n.tree.content? f := by
  obtain ⟨plan, taken, rest, ran⟩ := hist.exists_ran hcache
  have hc : c ∈ n :: c :: h := by simp
  have hn : n ∈ n :: c :: h := by simp
  have hfc := (hw.files_iff c hc f).mpr hf
  have hfn := (hw.files_iff n hn f).mpr hf
  have hstarts := ran.not_startsChange hfn hout
  have hsettled : Path.memSame f c.data.pendingPaths = false :=
    Bool.eq_false_iff.mpr fun hp => hstarts (.pending hp)
  have hread : ∀ f ∈ c.graph.files, c.tree.Readable f := fun f hf =>
    hw.readable c hc f ((hw.files_iff c hc f).mp hf)
  have hcheck := hist.tail.isChanged_iff hcache hstart hw.times hread (hw.tail.ownKeyIn hkey) hfc
    hsettled hfn (hw.readable n hn f hf)
  have hhash : (recordOf s.digest n.tree f).hash = (recordOf s.digest c.tree f).hash := by
    by_contra hne
    exact hstarts (.changed (hcheck.mpr hne))
  exact ⟨hsettled, hw.content_eq_of_hash_eq hc hn hf hhash.symm⟩

/-- A file outside of the change set depends on the same files as in the run before. -/
theorem dependsOn_iff_of_not_mem_changeSet (hist : s.History start (n :: c :: h))
    (hw : Watched s files (n :: c :: h)) {f : Path}
    (hkeys : ∀ g, g = f ∨ n.graph.DependsOn f g → g.OwnKey files) (hf : f ∈ files)
    (hout : Path.memSame f n.analysis.changeSet = false) (g : Path) :
    n.graph.DependsOn f g ↔ c.graph.DependsOn f g := by
  obtain ⟨plan, taken, rest, ran⟩ := hist.exists_ran hcache
  obtain ⟨plan', taken', rest', ran'⟩ := hist.tail.exists_ran hcache
  have hc : c ∈ n :: c :: h := by simp
  have hn : n ∈ n :: c :: h := by simp
  -- The edges of a file depend on its content alone, and no file on the way has changed.
  refine transGen_congr (fun u hu v => ?_) g
  have hu' : u ∈ files ∧ Path.memSame u n.analysis.changeSet = false := by
    rcases hu with rfl | hfu
    · exact ⟨hf, hout⟩
    · have hmem : u ∈ n.graph.files := Graph.DependsOn.right_mem hfu
      exact ⟨(hw.files_iff n hn u).mp hmem, ran.not_mem_of_dependsOn hout hfu⟩
  have hcontent :=
    (hw.content_eq_of_not_mem_changeSet hcache hstart hist (hkeys u hu) hu'.1 hu'.2).2
  show n.outcome.analysis.graph.Needs u v ↔ c.outcome.analysis.graph.Needs u v
  rw [ran.needs_iff, ran'.needs_iff]
  simp only [RefersTo.congr hcontent]
  exact and_congr ((hw.files_iff n hn u).trans (hw.files_iff c hc u).symm)
    (and_congr_left' ((hw.files_iff n hn v).trans (hw.files_iff c hc v).symm))

/-- Nothing has changed for a file outside of the change set since the run before. -/
theorem sameFor_of_not_mem_changeSet (hist : s.History start (n :: c :: h))
    (hw : Watched s files (n :: c :: h)) {f : Path}
    (hkeys : ∀ g, g = f ∨ n.graph.DependsOn f g → g.OwnKey files) (hf : f ∈ files)
    (hout : Path.memSame f n.analysis.changeSet = false) : SameFor f c n := by
  refine ⟨hw.dependsOn_iff_of_not_mem_changeSet hcache hstart hist hkeys hf hout, ?_⟩
  rintro g (rfl | hfg)
  · exact (hw.content_eq_of_not_mem_changeSet hcache hstart hist (hkeys g (.inl rfl)) hf hout).2
  · obtain ⟨plan, taken, rest, ran⟩ := hist.exists_ran hcache
    have hg := (hw.files_iff n List.mem_cons_self g).mp hfg.right_mem
    exact (hw.content_eq_of_not_mem_changeSet hcache hstart hist (hkeys g (.inr hfg)) hg
      (ran.not_mem_of_dependsOn hout hfg)).2

end Watched

namespace Sample

def importer : Path := ⟨"/p/lib/a.dart"⟩

def imported : Path := ⟨"/p/lib/b.dart"⟩

/-- Its name is a byte that is no character. -/
def stray : Path := ⟨"/p/lib/\xff.dart"⟩

/-- The sample project with a file that imports another, and a third one. -/
def pair (content : String) (modified : Int) : FileTree :=
  tree [file "a.dart" "import 'b.dart';\nclass A extends B \x7b\x7d\n" 1,
    file "b.dart" content modified, file "\xff.dart" "class C \x7b\x7d\n" 1]

/-- The importing file is not resolved by the run in which the other file is edited, which is
stopped before it, nor by the next one, in which it fails. -/
def visits : List Visit :=
  [{ tree := pair "class B \x7b\x7d\n" 1, now },
   { tree := pair "class B \x7b int n; \x7d\n" 2
     workers := fromEnd
     stops := fun attempted => !attempted.isEmpty
     now },
   { tree := pair "class B \x7b int n; \x7d\n" 2
     resolve := fun t p symbols =>
      if p = importer then .error (.notText p) else resolveFile t p symbols
     now },
   { tree := pair "class B \x7b int n; \x7d\n" 2, now },
   { tree := pair "class B \x7b int n; \x7d\n" 3, now }]

def runs : List Completed := setting.after Store.memory visits

theorem runs_spec :
    (∀ c ∈ runs, c.graph.files = [importer, imported, stray] ∧
      c.graph.edges = [(importer, imported)]) ∧
      (∀ c ∈ runs, ∀ f ∈ c.graph.files, (c.tree.content? f).isSome = true) ∧
      (∀ c ∈ runs, ∀ c' ∈ runs, ∀ f ∈ c.graph.files,
        ∀ x ∈ c.tree.content? f, ∀ x' ∈ c'.tree.content? f,
          (c.tree.rememberedTime f = c'.tree.rememberedTime f → x = x') ∧
          (setting.digest.ofContent x = setting.digest.ofContent x' →
            Content.normalize x = Content.normalize x') ∧
          (Content.normalize x = Content.normalize x' → x = x')) ∧
      runs.head?.any (fun n => !Path.memSame importer n.analysis.changeSet) = true := by
  decide +kernel

theorem readable_runs {c : Completed} (hc : c ∈ runs) {f : Path} (hf : f ∈ c.graph.files) :
    c.tree.Readable f :=
  FileTree.readable_iff.mpr (Option.isSome_iff_exists.mp (runs_spec.2.1 c hc f hf))

theorem watched_runs : Watched setting [importer, imported, stray] runs where
  files_iff c hc f := by rw [(runs_spec.1 c hc).1]
  readable c hc f hf := readable_runs hc ((runs_spec.1 c hc).1 ▸ hf)
  times := TimesTell.of_readable (fun c hc f hf => readable_runs hc hf)
    fun c hc c' hc' f hf _ x hx x' hx' => (runs_spec.2.2.1 c hc c' hc' f hf x hx x' hx').1
  normalForms c hc c' hc' f hf _ x hx x' hx' :=
    (runs_spec.2.2.1 c hc c' hc' f hf x hx x' hx').2.2
  digests c hc c' hc' f hf _ x hx x' hx' := (runs_spec.2.2.1 c hc c' hc' f hf x hx x' hx').2.1

/-- The importing file does not depend on the one whose name is no text. -/
theorem ownKey_runs {n : Completed} (hn : n ∈ runs) {g : Path}
    (hg : g = importer ∨ n.graph.DependsOn importer g) :
    g.OwnKey [importer, imported, stray] := by
  have hmem : g ∈ [importer, imported] := by
    rcases hg with rfl | hg
    · exact List.mem_cons_self
    · obtain ⟨u, -, hu⟩ := Relation.TransGen.tail'_iff.mp hg
      rw [Graph.Needs, (runs_spec.1 n hn).2] at hu
      simp_all
  have hown : ∀ f ∈ [importer, imported], f.OwnKey [importer, imported, stray] := by
    decide +kernel
  exact hown g hmem

end Sample

/-- Of two files whose names are no texts but are shown alike, one passes for the other. The second
one is never delivered, since the first run is stopped before it, and the second run finds it
unchanged. -/
example :
    let both := Sample.tree [Sample.file "\xfe.dart" "" 1, Sample.file "\xff.dart" ";" 1]
    let visits : List Visit :=
      [{ tree := both, stops := fun attempted => !attempted.isEmpty, now := Sample.now },
       { tree := both, now := Sample.now }]
    (Sample.setting.after Store.memory visits).map (fun c =>
        (Path.memSame Sample.stray c.analysis.changeSet, c.analysis.delivers Sample.stray)) =
      [(false, false), (true, false)] := by
  decide +kernel

end Recheck
