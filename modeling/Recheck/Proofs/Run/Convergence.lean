import Recheck.Proofs.Path.Canonical
import Recheck.Proofs.Run.History

/-!
# Repeated runs

A run that comes to its end leaves a store in which only what it could not resolve still counts as
changed: a file with a result has the record that passes for it, the records of files that are gone
are forgotten, and what has no result is left unresolved (`Ran.startsChange_again_iff`). So a second
run over the same files takes up the files of the change set that have no result, and all that
depends on them, and if no file failed it finds nothing to do (`repeated_run_converges`). The names
of the files are to be texts: a record under the key of another name is forgotten at once, so that
each run finds such a file changed.
-/

namespace Recheck

/-! ## The store that a finished run leaves -/

namespace Ran

variable {workers : Workers} {ctx : RunContext} {config : Config} {excludes : List Glob}
  {t : FileTree} {project : Project} {store : Store} {o : RunOutcome} {plan : RunPlan}
  {taken rest : List Path} (h : Ran workers ctx config excludes t project store o plan taken rest)
  (hr : ∀ p ∈ o.analysis.graph.files, t.Readable p)
  (hnames : ∀ p ∈ o.analysis.graph.files, p.IsText)
include h hr hnames

/-- A file with a result is up to date afterwards. -/
theorem run_current_of_resolves {f : Path} (hf : f ∈ o.analysis.graph.files)
    (hres : o.analysis.resolves f = true) :
    FileCheck.run ctx.digest t (o.store.data.get? f) f = .current := by
  have hfile : Path.memSame f o.analysis.graph.files = true := Path.memSame_of_mem hf
  rw [h.get?_eq ((hnames f hf).ownKey hnames) hr, hfile, Bool.or_true, if_pos rfl, if_pos hres]
  exact FileCheck.run_staged?_or (hr f hf)

/-- A file without a result keeps its record. -/
theorem get?_of_not_resolves {f : Path} (hf : f ∈ o.analysis.graph.files)
    (hres : o.analysis.resolves f = false) : o.store.data.get? f = store.data.get? f := by
  have hfile : Path.memSame f o.analysis.graph.files = true := Path.memSame_of_mem hf
  rw [h.get?_eq ((hnames f hf).ownKey hnames) hr, hfile, Bool.or_true, if_pos rfl, hres,
    if_neg Bool.false_ne_true]

variable (hdone : o.analysis.cancelled = false)
include hdone

/-- Nothing is remembered of what is no source file. -/
theorem get?_of_not_memSame {p : Path} (htext : p.IsText)
    (hp : Path.memSame p o.analysis.graph.files = false) : o.store.data.get? p = none := by
  rw [h.get?_eq (htext.ownKey hnames) hr, hdone, hp]
  rfl

/-- In the same tree a change starts with the files of the change set that have no result, and with
no others. -/
theorem startsChange_again_iff (hsource : project.sourceDir.IsText) {f : Path}
    (hf : f ∈ o.analysis.graph.files) :
    RunPlan.StartsChange ctx.digest t project o.analysis.graph.files o.store.data f ↔
      Path.memSame f o.analysis.changeSet = true ∧ o.analysis.resolves f = false := by
  constructor
  · rintro (hc | ⟨href, hm, hs⟩ | hp)
    · cases hres : o.analysis.resolves f with
      | true =>
        rw [h.run_current_of_resolves hr hnames hf hres] at hc
        cases hc
      | false =>
        rw [h.get?_of_not_resolves hr hnames hf hres] at hc
        exact ⟨(h.mem_changeSet_iff hf).mpr ⟨f, hf, .changed hc, .inl rfl⟩, rfl⟩
    · rw [h.get?_of_not_memSame hr hnames hdone (href.isText (hnames f hf) hsource) hm] at hs
      cases hs
    · exact (h.pending_iff hnames hf).mp hp
  · intro hleft
    exact .pending ((h.pending_iff hnames hf).mpr hleft)

omit hr hnames hdone

/-- The counters of the run count the checks of its files. -/
theorem counters_eq :
    o.analysis.statistics.quickSkips =
        plan.order.countP (fun p => FileCheck.run ctx.digest t (store.data.get? p) p = .current) ∧
      o.analysis.statistics.hashComputations =
        plan.order.countP
          (fun p => (FileCheck.run ctx.digest t (store.data.get? p) p).isHashed) := by
  have hstatistics : o.analysis.statistics.quickSkips = plan.changes.quickSkips ∧
      o.analysis.statistics.hashComputations = plan.changes.hashComputations := by
    rw [h.analysis]
    exact ⟨rfl, rfl⟩
  rw [hstatistics.1, hstatistics.2, h.made.changes_eq h.cache]
  exact ⟨Changes.quickSkips_detect, Changes.hashComputations_detect⟩

end Ran

/-! ## The second run -/

/-- The file is in the change set of the run and has no result, or it depends on such a file. -/
def Completed.LeavesUndone (c : Completed) (f : Path) : Prop :=
  ∃ p ∈ c.graph.files, Path.memSame p c.analysis.changeSet = true ∧
    c.analysis.resolves p = false ∧ (f = p ∨ c.graph.DependsOn f p)

section

variable {s : Setting} {start : Store} {c n : Completed}
  (hcache : s.config.enableCache = true) (hc : s.run c.visit start = .ok c.outcome)
include hcache hc

variable (hn : s.run n.visit c.outcome.store = .ok n.outcome) (hv : s.FindsAgain c n.visit)
include hn hv

variable (hdone : c.analysis.cancelled = false) (hread : ∀ f ∈ c.graph.files, c.tree.Readable f)
  (hnames : TextNames s [c])
include hdone hread hnames

/-- The second run takes up what the first one has left undone. -/
theorem mem_changeSet_again_iff (f : Path) :
    Path.memSame f n.analysis.changeSet = true ↔ ∃ g, Path.Same g f ∧ c.LeavesUndone g := by
  obtain ⟨plan, taken, rest, ran⟩ := exists_ran hcache hc
  obtain ⟨plan', taken', rest', ran'⟩ := exists_ran hcache hn
  have hgraph := hv.graph_eq hc hn
  have hstart : ∀ p ∈ c.graph.files,
      RunPlan.StartsChange s.digest n.tree s.project c.graph.files c.data p ↔
        Path.memSame p c.analysis.changeSet = true ∧ c.analysis.resolves p = false := by
    intro p hp
    have hstat : n.tree.stat p = c.tree.stat p := hv.stat p hp
    rw [RunPlan.StartsChange.congr hstat]
    exact ran.startsChange_again_iff hread (hnames.files c List.mem_cons_self) hdone
      hnames.sourceDir hp
  have hfile : ∀ g ∈ c.graph.files,
      Path.memSame g n.analysis.changeSet = true ↔ c.LeavesUndone g := by
    intro g hg
    refine (ran'.mem_changeSet_iff (hgraph ▸ hg : g ∈ n.graph.files)).trans ?_
    show (∃ p ∈ n.graph.files, RunPlan.StartsChange s.digest n.tree s.project n.graph.files
      c.data p ∧ (g = p ∨ n.graph.DependsOn g p)) ↔ c.LeavesUndone g
    rw [hgraph, Completed.LeavesUndone]
    refine exists_congr fun p => and_congr_right fun hp => ?_
    rw [hstart p hp, and_assoc]
  constructor
  · intro hf
    obtain ⟨g, hg, hgf⟩ := Path.memSame_iff.mp (ran'.memSame_files_of_changeSet hf)
    have hg : g ∈ c.graph.files := hgraph ▸ hg
    exact ⟨g, hgf, (hfile g hg).mp (Path.memSame_of_same hgf hf)⟩
  · rintro ⟨g, hgf, hg⟩
    have hmem : g ∈ c.graph.files := by
      obtain ⟨p, hp, -, -, rfl | hgp⟩ := hg
      · exact hp
      · exact hgp.left_mem
    exact Path.memSame_of_same hgf.symm ((hfile g hmem).mpr hg)

variable (hfails : c.analysis.failures = [])
include hfails

omit hn in
/-- If no file failed, the second run finds every file up to date. -/
theorem run_current_again {f : Path} (hf : f ∈ c.graph.files) :
    FileCheck.run s.digest n.tree (c.data.get? f) f = .current := by
  obtain ⟨plan, taken, rest, ran⟩ := exists_ran hcache hc
  have hstat : n.tree.stat f = c.tree.stat f := hv.stat f hf
  rw [FileCheck.run_congr hstat]
  exact ran.run_current_of_resolves hread (hnames.files c List.mem_cons_self) hf
    (ran.resolves_of_no_failures hdone hfails hf)

theorem changeSet_again_eq_nil : n.analysis.changeSet = [] := by
  obtain ⟨plan, taken, rest, ran⟩ := exists_ran hcache hc
  refine List.eq_nil_iff_forall_not_mem.mpr fun f hf => ?_
  obtain ⟨g, -, p, hp, -, hres, -⟩ :=
    (mem_changeSet_again_iff hcache hc hn hv hdone hread hnames f).mp (Path.memSame_of_mem hf)
  have hresolves : c.analysis.resolves p = true := ran.resolves_of_no_failures hdone hfails hp
  rw [hres] at hresolves
  cases hresolves

theorem counters_again :
    n.analysis.statistics.quickSkips = c.graph.files.length ∧
      n.analysis.statistics.hashComputations = 0 := by
  obtain ⟨plan, taken, rest, ran⟩ := exists_ran hcache hn
  have hgraph := hv.graph_eq hc hn
  have hplan : plan.graph = c.graph := ran.graph_eq.symm.trans hgraph
  have hcurrent : ∀ p ∈ plan.order, FileCheck.run (s.context n.visit).digest n.visit.tree
      (c.outcome.store.data.get? p) p = .current := fun p hp =>
    run_current_again hcache hc hv hdone hread hnames hfails (hplan ▸ ran.made.mem_order.mp hp)
  obtain ⟨hskips, hhashes⟩ := ran.counters_eq
  constructor
  · rw [← hplan, ← ran.made.length_order]
    exact hskips.trans (List.countP_eq_length.mpr fun p hp => decide_eq_true (hcurrent p hp))
  · refine hhashes.trans (List.countP_eq_zero.mpr fun p hp => ?_)
    rw [hcurrent p hp]
    exact Bool.false_ne_true

/-- If no file failed, the second run leaves all records as they are. -/
theorem files_again : n.data.files = c.data.files := by
  obtain ⟨plan, taken, rest, ran⟩ := exists_ran hcache hc
  obtain ⟨plan', taken', rest', ran'⟩ := exists_ran hcache hn
  have hgraph : n.outcome.analysis.graph = c.graph := hv.graph_eq hc hn
  have htexts := hnames.files c List.mem_cons_self
  have hread' := hv.readable hc hn hread
  refine StoreData.files_ext fun q htext => ?_
  have hkey : q.OwnKey n.outcome.analysis.graph.files := htext.ownKey (hgraph ▸ htexts)
  have hget : n.data.get? q = _ := ran'.get?_eq hkey hread'
  rw [hget, hgraph]
  split
  · split
    · next hres =>
      have hq : q ∈ c.graph.files := hgraph ▸ ran'.mem_files_of_resolves hres
      have hcheck : FileCheck.run (s.context n.visit).digest n.visit.tree
          (c.outcome.store.data.get? q) q = .current :=
        run_current_again hcache hc hv hdone hread hnames hfails hq
      rw [hcheck]
      rfl
    · rfl
  · next hout =>
    rw [Bool.or_eq_true, not_or] at hout
    exact (ran.get?_of_not_memSame hread htexts hdone htext (Bool.eq_false_iff.mpr hout.2)).symm

end

namespace Sample

/-- The file `b` refers to `a`, which may fail. -/
def twice (fails : Bool) : Visit where
  tree := tree [file "a.dart" "class A \x7b\x7d" 2, file "b.dart" "import 'a.dart';" 1]
  workers := fromEnd
  resolve := if fails then failingOn (path "a.dart") else resolveFile
  now

/-- The store knows an older `a`, the current `b` and a file that is gone, and spells a file that
was left unresolved in its own way. -/
def staleStore : Store :=
  ([(path "a.dart", ⟨"", 1⟩), (path "b.dart", ⟨"import 'a.dart';", 1⟩),
    (path "c.dart", ⟨"", 1⟩)].foldl (fun store e => store.put e.1 e.2) Store.memory).setPending
      [⟨"/p/lib/./b.dart"⟩]

theorem exists_twice (fails : Bool) :
    ∃ c : Completed, c.visit = twice fails ∧ setting.run c.visit staleStore = .ok c.outcome ∧
      c.analysis.cancelled = false ∧ (∀ f ∈ c.graph.files, c.tree.Readable f) ∧
      TextNames setting [c] ∧ setting.FindsAgain c (twice false) ∧
      c.analysis.failures.isEmpty = !fails ∧
      path "a.dart" ∈ c.graph.files ∧ c.graph.files.length = 2 ∧
      Path.memSame (path "a.dart") c.analysis.changeSet = true ∧
      c.analysis.resolves (path "a.dart") = !fails ∧
      (path "b.dart", path "a.dart") ∈ c.graph.edges := by
  have hspec : ((setting.run (twice fails) staleStore).toOption.any fun o => decide (
      o.analysis.cancelled = false ∧
      (∀ f ∈ o.analysis.graph.files, f.IsText ∧ ((twice fails).tree.content? f).isSome = true) ∧
      o.analysis.failures.isEmpty = !fails ∧
      path "a.dart" ∈ o.analysis.graph.files ∧ o.analysis.graph.files.length = 2 ∧
      Path.memSame (path "a.dart") o.analysis.changeSet = true ∧
      o.analysis.resolves (path "a.dart") = !fails ∧
      (path "b.dart", path "a.dart") ∈ o.analysis.graph.edges)) = true := by
    cases fails <;> decide +kernel
  obtain ⟨o, hrun, hdone, hfiles, hspec⟩ := exists_ok_of_any hspec
  have hself : setting.FindsAgain ⟨twice fails, o⟩ (twice fails) := .self hrun
  refine ⟨⟨twice fails, o⟩, rfl, hrun, hdone, fun f hf => ?_, ⟨by decide +kernel, ?_⟩,
    ⟨hself.files, hself.stat⟩, hspec⟩
  · exact FileTree.readable_iff.mpr (Option.isSome_iff_exists.mp (hfiles f hf).2)
  · exact List.forall_mem_singleton.mpr fun f hf => (hfiles f hf).1

end Sample

/-- A file whose name is no text is found changed again and again. -/
example :
    let visit : Visit := { tree := Sample.tree [Sample.file "\xff.dart" "" 1], now := Sample.now }
    (Sample.setting.after Store.memory [visit, visit]).map (·.analysis.changeSet) =
      [[Sample.path "\xff.dart"], [Sample.path "\xff.dart"]] := by
  decide +kernel

end Recheck
