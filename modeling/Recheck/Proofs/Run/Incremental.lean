import Recheck.Proofs.Path.Canonical
import Recheck.Proofs.Run.History

/-!
# What edits invalidate

After a run that came to its end without failures, files are edited, touched, created and deleted
(`Batch`). The change set of the next run is exactly what this reaches
(`mem_changeSet_iff_altered`): the files that were edited or created, the files that refer to a
deleted one, and all files that depend on these. Touching a file has no effect.

The argument goes through the store: after such a run it holds the record that the tree gives each
source file, no other record, and nothing left unresolved (`upToDate_of_clean`). This needs names
that are texts, since two others can have one key, and times as they are remembered that tell the
contents of a file apart (`touched_passes_for_edited`).
-/

namespace Recheck

/-! ## The store after a clean run -/

/-- The run came to its end, and no file failed. -/
structure Completed.Clean (c : Completed) : Prop where
  finished : c.analysis.cancelled = false
  succeeded : c.analysis.failures = []

/-- The store knows the source files as the run found them, and nothing else. -/
structure UpToDate (s : Setting) (c : Completed) : Prop where
  pending : c.data.pendingPaths = []
  get?_eq : ∀ f ∈ c.graph.files, c.data.get? f = some (recordOf s.digest c.tree f)
  memSame_of_isSome : ∀ p, p.IsText → (c.data.get? p).isSome = true →
    Path.memSame p c.graph.files = true

theorem upToDate_of_clean {s : Setting} {start : Store} {c : Completed} {h : List Completed}
    (hcache : s.config.enableCache = true) (hstart : ∀ p, start.data.get? p = none)
    (hist : s.History start (c :: h)) (hnames : TextNames s (c :: h)) (htimes : TimesTell (c :: h))
    (hread : ∀ f ∈ c.graph.files, c.tree.Readable f) (hclean : c.Clean) : UpToDate s c := by
  obtain ⟨plan, taken, rest, ran⟩ := hist.exists_ran hcache
  obtain ⟨hfinished, hsucceeded⟩ := hclean
  refine ⟨ran.pendingPaths_eq_nil hfinished hsucceeded, fun f hf => ?_, fun p htext hp => ?_⟩
  · have hkey := hnames.ownKeyIn (hnames.files c List.mem_cons_self f hf)
    have hres := ran.resolves_of_no_failures hfinished hsucceeded hf
    exact hist.get?_of_resolves hcache hstart htimes hread hkey hf hres
  · have hkey := hnames.ownKeyIn htext c List.mem_cons_self
    have hfinished : c.outcome.analysis.cancelled = false := hfinished
    rw [Completed.data, ran.get?_eq hkey hread, hfinished, Bool.false_or] at hp
    split at hp
    · next hmem => exact hmem
    · cases hp

/-! ## Batches -/

theorem Setting.History.canonical {s : Setting} {start : Store} {c : Completed}
    {h : List Completed} (hist : s.History start (c :: h)) (hcache : s.config.enableCache = true)
    (hnames : c.tree.ProperNames) : ∀ f ∈ c.graph.files, f.Canonical := by
  obtain ⟨plan, taken, rest, ran⟩ := hist.exists_ran hcache
  exact canonical_sourceFiles hnames ran.sourceFiles_eq

/-- The normal form of the content of a file that can be read. -/
def FileTree.normalForm? (t : FileTree) (p : Path) : Option (List UInt8) :=
  (t.content? p).map Content.normalize

/-- What may be done to the files between the run `a` and the run `b`: a file that has another
content has another time, and all source files can be read. -/
structure Batch (s : Setting) (a b : Completed) : Prop where
  names : ∀ c ∈ [a, b], c.tree.ProperNames
  readable : ∀ c ∈ [a, b], ∀ f ∈ c.graph.files, c.tree.Readable f
  times : ∀ f ∈ a.graph.files, f ∈ b.graph.files →
    a.tree.rememberedTime f = b.tree.rememberedTime f → a.tree.normalForm? f = b.tree.normalForm? f
  digests : DigestTells s.digest [a, b]

/-- What a batch between the runs `a` and `b` does to a file that the run `b` finds, apart from
touching it. -/
inductive Altered (project : Project) (a b : Completed) (p : Path) : Prop where
  | edited (hp : p ∈ a.graph.files) (hne : a.tree.normalForm? p ≠ b.tree.normalForm? p)
  | created (hp : p ∉ a.graph.files)
  | refers {target : Path} (hr : RefersTo b.tree project p target) (ha : target ∈ a.graph.files)
      (hb : target ∉ b.graph.files)

namespace Batch

variable {s : Setting} {a b : Completed} {p : Path}

theorem hash_eq_iff (hbatch : Batch s a b) (ha : p ∈ a.graph.files) (hb : p ∈ b.graph.files) :
    (recordOf s.digest a.tree p).hash = (recordOf s.digest b.tree p).hash ↔
      a.tree.normalForm? p = b.tree.normalForm? p := by
  obtain ⟨x, hx⟩ := FileTree.readable_iff.mp (hbatch.readable a (by simp) p ha)
  obtain ⟨y, hy⟩ := FileTree.readable_iff.mp (hbatch.readable b (by simp) p hb)
  rw [hash_recordOf, hash_recordOf, FileTree.normalForm?, FileTree.normalForm?, hx, hy,
    Option.map_some, Option.map_some, Option.some.injEq]
  constructor
  · exact hbatch.digests a (by simp) b (by simp) p ha hb x hx y hy
  · intro hnormal
    simp only [Digest.ofContent, hnormal]

section

variable (hbatch : Batch s a b) (hup : UpToDate s a) (hca : ∀ f ∈ a.graph.files, f.Canonical)
  (hcb : ∀ f ∈ b.graph.files, f.Canonical)
include hup hca hcb

/-- A reference leads to a file that is gone but has a record if it leads to a deleted file. -/
theorem missing_iff {target : Path} (hr : RefersTo b.tree s.project p target)
    (htext : target.IsText) :
    Path.memSame target b.graph.files = false ∧ (a.data.get? target).isSome = true ↔
      target ∈ a.graph.files ∧ target ∉ b.graph.files := by
  constructor
  · rintro ⟨hb, hs⟩
    obtain ⟨q, hq, hqt⟩ := Path.memSame_iff.mp (hup.memSame_of_isSome target htext hs)
    obtain rfl := hr.eq_of_same (hca q hq) hqt.symm
    exact ⟨hq, fun hmem => Bool.eq_false_iff.mp hb (Path.memSame_of_mem hmem)⟩
  · rintro ⟨ha, hb⟩
    refine ⟨Bool.eq_false_iff.mpr fun hm => ?_, ?_⟩
    · obtain ⟨q, hq, hqt⟩ := Path.memSame_iff.mp hm
      exact hb (hr.eq_of_same (hcb q hq) hqt.symm ▸ hq)
    · rw [hup.get?_eq target ha, Option.isSome_some]

include hbatch

/-- The check of a file finds a change if the file was edited or created. -/
theorem isChanged_iff (hb : p ∈ b.graph.files) (htext : p.IsText) :
    (FileCheck.run s.digest b.tree (a.data.get? p) p).isChanged = true ↔
      p ∉ a.graph.files ∨ a.tree.normalForm? p ≠ b.tree.normalForm? p := by
  rw [FileCheck.isChanged_run (hbatch.readable b (by simp) p hb)]
  by_cases ha : p ∈ a.graph.files
  · rw [hup.get?_eq p ha]
    simp only [Option.some.injEq, forall_eq', ne_eq, hbatch.hash_eq_iff ha hb, ha,
      not_true_eq_false, false_or, modified_recordOf]
    exact ⟨And.right, fun hne => ⟨fun hm => hne (hbatch.times p ha hb hm), hne⟩⟩
  · have hnone : a.data.get? p = none := by
      by_contra hsome
      obtain ⟨q, hq, hqp⟩ := Path.memSame_iff.mp
        (hup.memSame_of_isSome p htext (Option.isSome_iff_ne_none.mpr hsome))
      exact ha ((hca q hq).eq_of_same (hcb p hb) hqp ▸ hq)
    simp [hnone, ha]

/-- A change starts with the files that the batch alters. -/
theorem startsChange_iff {h : List Completed} (hnames : TextNames s (b :: h))
    (hb : p ∈ b.graph.files) :
    RunPlan.StartsChange s.digest b.tree s.project b.graph.files a.data p ↔
      Altered s.project a b p := by
  have htext : p.IsText := hnames.files b List.mem_cons_self p hb
  constructor
  · rintro (hc | ⟨hr, hm, hs⟩ | hp)
    · by_cases ha : p ∈ a.graph.files
      · have hor := (hbatch.isChanged_iff hup hca hcb hb htext).mp hc
        exact .edited ha (hor.resolve_left (not_not_intro ha))
      · exact .created ha
    · obtain ⟨ha, hb⟩ := (missing_iff hup hca hcb hr (hr.isText htext hnames.sourceDir)).mp ⟨hm, hs⟩
      exact .refers hr ha hb
    · rw [hup.pending] at hp
      cases hp
  · rintro (⟨-, hne⟩ | ha | ⟨hr, ha, hb⟩)
    · exact .changed ((hbatch.isChanged_iff hup hca hcb hb htext).mpr (.inr hne))
    · exact .changed ((hbatch.isChanged_iff hup hca hcb hb htext).mpr (.inl ha))
    · obtain ⟨hm, hs⟩ :=
        (missing_iff hup hca hcb hr (hr.isText htext hnames.sourceDir)).mpr ⟨ha, hb⟩
      exact .refers hr hm hs

end

end Batch

/-- After a clean run, the change set of the next run is what the batch of edits between them
reaches: the files of the new graph that were edited or created or refer to a deleted file, and the
files that depend on them. -/
theorem mem_changeSet_iff_altered {s : Setting} {start : Store} {a b : Completed}
    {h : List Completed} (hcache : s.config.enableCache = true) (hempty : start.data = {})
    (hist : s.History start (b :: a :: h)) (hnames : TextNames s (b :: a :: h))
    (htimes : TimesTell (a :: h)) (hclean : a.Clean) (hbatch : Batch s a b) (f : Path) :
    f ∈ b.analysis.changeSet ↔
      f ∈ b.graph.files ∧
        ∃ p ∈ b.graph.files, Altered s.project a b p ∧ (f = p ∨ b.graph.DependsOn f p) := by
  have hstart : ∀ p, start.data.get? p = none := by simp [hempty]
  have hup := upToDate_of_clean hcache hstart hist.tail (hnames.mono (List.subset_cons_self _ _))
    htimes (hbatch.readable a (by simp)) hclean
  have hca := hist.tail.canonical hcache (hbatch.names a (by simp))
  have hcb := hist.canonical hcache (hbatch.names b (by simp))
  obtain ⟨plan, taken, rest, ran⟩ := hist.exists_ran hcache
  have hspelled : f ∈ b.analysis.changeSet ↔
      f ∈ b.graph.files ∧ Path.memSame f b.analysis.changeSet = true :=
    ran.mem_changeSet_iff_memSame hup.pending
  rw [hspelled]
  refine and_congr_right fun hf => (ran.mem_changeSet_iff hf).trans ?_
  refine exists_congr fun p => and_congr_right fun hp => and_congr_left' ?_
  exact hbatch.startsChange_iff hup hca hcb hnames hp

/-! ## An instance -/

namespace Sample

/-- Of five files, `a` is edited, `e` is touched and `d` deleted, and `f` is created. The file `b`
refers to `a`, and `c` to `d`. -/
def batchVisits : List Visit :=
  [{ tree := tree [file "a.dart" "" 1, file "b.dart" "import 'a.dart';" 1,
        file "c.dart" "import 'd.dart';" 1, file "d.dart" "" 1, file "e.dart" "" 1]
     workers := fromEnd
     now },
   { tree := tree [file "a.dart" "class A \x7b\x7d" 2, file "b.dart" "import 'a.dart';" 1,
        file "c.dart" "import 'd.dart';" 1, file "e.dart" "" 2, file "f.dart" "" 2]
     now }]

def batchRuns : List Completed := setting.after Store.memory batchVisits

theorem batchRuns_spec :
    batchRuns.map (·.analysis.changeSet.map (·.text)) =
      [["/p/lib/a.dart", "/p/lib/b.dart", "/p/lib/f.dart", "/p/lib/c.dart"],
       ["/p/lib/a.dart", "/p/lib/b.dart", "/p/lib/d.dart", "/p/lib/c.dart", "/p/lib/e.dart"]] ∧
    ∀ c ∈ batchRuns,
      (c.analysis.cancelled = false ∧ c.analysis.failures = [] ∧ c.tree.ProperNames) ∧
      ∀ f ∈ c.graph.files, f.IsText ∧ (c.tree.content? f).isSome = true ∧
        ∀ c' ∈ batchRuns, ∀ x ∈ c.tree.content? f, ∀ x' ∈ c'.tree.content? f,
          (c.tree.rememberedTime f = c'.tree.rememberedTime f → x = x') ∧
          (setting.digest.ofContent x = setting.digest.ofContent x' →
            Content.normalize x = Content.normalize x') := by
  decide +kernel

theorem exists_batchRuns :
    ∃ b a, batchRuns = [b, a] ∧ TextNames setting [b, a] ∧ TimesTell [a] ∧ a.Clean ∧
      Batch setting a b := by
  obtain ⟨hsets, hspec⟩ := batchRuns_spec
  obtain ⟨b, a, hruns⟩ : ∃ b a, batchRuns = [b, a] :=
    List.length_eq_two.mp (by simpa using congrArg List.length hsets)
  have hmem : ∀ c ∈ [a, b], c ∈ batchRuns := by simp [hruns]
  have hnames : TextNames setting [b, a] := by
    refine ⟨by decide +kernel, fun c hc f hf => ((hspec c (hmem c ?_)).2 f hf).1⟩
    simpa [or_comm] using hc
  have hread : ∀ c ∈ [a, b], ∀ f ∈ c.graph.files, c.tree.Readable f := fun c hc f hf =>
    FileTree.readable_iff.mpr (Option.isSome_iff_exists.mp ((hspec c (hmem c hc)).2 f hf).2.1)
  have htimes : TimesTell [a, b] := .of_readable hread fun c hc c' hc' f hf _ x hx x' hx' =>
    (((hspec c (hmem c hc)).2 f hf).2.2 c' (hmem c' hc') x hx x' hx').1
  have hclean : a.Clean := ⟨(hspec a (hmem a (by simp))).1.1, (hspec a (hmem a (by simp))).1.2.1⟩
  refine ⟨b, a, hruns, hnames, htimes.mono (by simp), hclean,
    fun c hc => (hspec c (hmem c hc)).1.2.2, hread, fun f ha hb ht => ?_,
    fun c hc c' hc' f hf _ x hx x' hx' => ?_⟩
  · rw [FileTree.normalForm?, FileTree.normalForm?,
      htimes.content?_eq (by simp) (by simp) ha hb ht]
  · exact (((hspec c (hmem c hc)).2 f hf).2.2 c' (hmem c' hc') x hx x' hx').2

end Sample

theorem mem_changeSet_iff_altered_sample :
    ∃ b a, Sample.batchRuns = [b, a] ∧ Sample.setting.History Store.memory [b, a] ∧
      TextNames Sample.setting [b, a] ∧ TimesTell [a] ∧ a.Clean ∧ Batch Sample.setting a b ∧
      b.analysis.changeSet.map (·.text) =
        ["/p/lib/a.dart", "/p/lib/b.dart", "/p/lib/f.dart", "/p/lib/c.dart"] ∧
      ∀ f, f ∈ b.analysis.changeSet ↔
        f ∈ b.graph.files ∧ ∃ p ∈ b.graph.files,
          Altered Sample.setting.project a b p ∧ (f = p ∨ b.graph.DependsOn f p) := by
  have hist := Sample.setting.history_after Store.memory Sample.batchVisits
  obtain ⟨b, a, hruns, hnames, htimes, hclean, hbatch⟩ := Sample.exists_batchRuns
  have hsets := Sample.batchRuns_spec.1
  rw [← Sample.batchRuns, hruns] at hist
  rw [hruns] at hsets
  refine ⟨b, a, hruns, hist, hnames, htimes, hclean, hbatch, (List.cons.inj hsets).1, ?_⟩
  exact mem_changeSet_iff_altered rfl rfl hist hnames htimes hclean hbatch

/-! ## Times that do not tell -/

namespace Sample

/-- The file `a` cannot be read by the first run, has the time zero in the second and is touched
before the third. The file `b`, whose times are before 1970, is edited before the third run. -/
def earlyVisits : List Visit :=
  [{ tree := tree [(["p", "lib", "a.dart"], .file [] 1 false), file "b.dart" "" (-7)], now },
   { tree := tree [file "a.dart" "" 0, file "b.dart" "" (-7)], now },
   { tree := tree [file "a.dart" "" 1, file "b.dart" "class B \x7b\x7d" (-5)], now }]

def earlyRuns : List Completed := setting.after Store.memory earlyVisits

theorem earlyRuns_spec :
    earlyRuns.map (·.analysis.changeSet) =
      [[path "a.dart"], [path "a.dart"], [path "a.dart", path "b.dart"]] ∧
    (∀ c ∈ earlyRuns, c.graph.files = [path "a.dart", path "b.dart"]) ∧
    (∀ c ∈ earlyRuns.take 2, ∀ f ∈ c.graph.files, (c.tree.content? f).isSome = true) ∧
    earlyRuns.map (fun c => c.tree.normalForm? (path "a.dart")) = [some [], some [], none] ∧
    earlyRuns.map (fun c => c.tree.normalForm? (path "b.dart")) =
      [some (Text.bytes "class B \x7b\x7d"), some [], some []] ∧
    earlyRuns.map (fun c => (c.analysis.cancelled, c.analysis.failures.map (·.1))) =
      [(false, []), (false, []), (false, [path "a.dart"])] ∧
    ∀ c ∈ earlyRuns, ∀ c' ∈ earlyRuns, ∀ f ∈ c.graph.files,
      ∀ x ∈ c.tree.content? f, ∀ x' ∈ c'.tree.content? f,
        (c.tree.stat f).map Entry.modified = (c'.tree.stat f).map Entry.modified → x = x' := by
  decide +kernel

end Sample

/-- A touched file can pass for edited and an edited one for untouched, though different contents of
a file have different times. A file that could not be read is remembered with the time zero, and so
is a file from before 1970. -/
theorem touched_passes_for_edited :
    ∃ b a c, Sample.earlyRuns = [b, a, c] ∧ Sample.setting.History Store.memory [b, a, c] ∧
      a.Clean ∧ (∀ r ∈ [b, a], ∀ f ∈ r.graph.files, r.tree.Readable f) ∧
      (∀ r ∈ [b, a, c], ∀ r' ∈ [b, a, c], ∀ f ∈ r.graph.files,
        ∀ x ∈ r.tree.content? f, ∀ x' ∈ r'.tree.content? f,
          (r.tree.stat f).map Entry.modified = (r'.tree.stat f).map Entry.modified → x = x') ∧
      b.analysis.changeSet = [Sample.path "a.dart"] ∧
      ¬ Altered Sample.setting.project a b (Sample.path "a.dart") ∧
      Altered Sample.setting.project a b (Sample.path "b.dart") := by
  have hist := Sample.setting.history_after Store.memory Sample.earlyVisits
  obtain ⟨hsets, hfiles, hsome, hfirst, hsecond, hclean, htimes⟩ := Sample.earlyRuns_spec
  obtain ⟨b, a, c, hruns⟩ : ∃ b a c, Sample.earlyRuns = [b, a, c] :=
    List.length_eq_three.mp (by simpa using congrArg List.length hsets)
  rw [← Sample.earlyRuns, hruns] at hist
  rw [hruns] at hsets hfiles hsome hfirst hsecond hclean htimes
  simp only [List.map_cons, List.map_nil, List.cons.injEq, and_true, Prod.mk.injEq,
    List.map_eq_nil_iff] at hsets hfirst hsecond hclean
  have hread : ∀ r ∈ [b, a], ∀ f ∈ r.graph.files, r.tree.Readable f := fun r hr f hf =>
    FileTree.readable_iff.mpr (Option.isSome_iff_exists.mp (hsome r hr f hf))
  refine ⟨b, a, c, hruns, hist, ⟨hclean.2.1.1, hclean.2.1.2⟩, hread, htimes, hsets.1, ?_, ?_⟩
  · have hsame : a.graph.files = b.graph.files := by rw [hfiles a (by simp), hfiles b (by simp)]
    rintro (⟨-, hne⟩ | ha | ⟨-, ha, hb⟩)
    · exact hne (hfirst.2.1.trans hfirst.1.symm)
    · exact ha (by simp [hfiles a])
    · exact hb (hsame ▸ ha)
  · refine .edited (by simp [hfiles a]) ?_
    rw [hsecond.1, hsecond.2.1]
    decide +kernel

end Recheck
