import Recheck.Proofs.Path.Order
import Recheck.Proofs.Run.History

/-!
# Stopped runs

A run that is told to stop has attempted the first files of its schedule, and what has come of them
is what comes of them in a run that attempts all files (`stopped_run_agrees`): resolving a file adds
to what has come of the files before it and changes nothing of it (`exists_foldl_attempt_eq`).
-/

namespace Recheck

/-! ## Attempting more files -/

namespace Progress

variable (ctx : RunContext) (t : FileTree) (changes : Changes)

/-- What comes of files is added to what has come of the files before them. -/
theorem exists_foldl_attempt_eq (s : Progress) (ps : List Path) :
    ∃ results failures,
      (ps.foldl (attempt ctx t changes) s).results = s.results ++ results ∧
      (ps.foldl (attempt ctx t changes) s).failures = s.failures ++ failures ∧
      (∀ r ∈ results, r.path ∈ ps) ∧ ∀ e ∈ failures, e.1 ∈ ps := by
  induction ps generalizing s with
  | nil => exact ⟨[], [], by simp⟩
  | cons p ps ih =>
    obtain ⟨results, failures, hresults, hfailures, hr, he⟩ := ih (s.attempt ctx t changes p)
    rw [List.foldl_cons, hresults, hfailures]
    have hr' : ∀ r ∈ results, r.path ∈ p :: ps := fun r h => List.mem_cons_of_mem _ (hr r h)
    have he' : ∀ e ∈ failures, e.1 ∈ p :: ps := fun e h => List.mem_cons_of_mem _ (he e h)
    cases h : ctx.resolve t p s.symbols with
    | error e =>
      rw [attempt_of_error h]
      refine ⟨results, (p, e.message) :: failures, rfl, by simp, hr', ?_⟩
      exact List.forall_mem_cons.mpr ⟨List.mem_cons_self, he'⟩
    | ok analysis =>
      rw [attempt_of_ok h]
      refine ⟨_ :: results, failures, List.append_cons .. |>.symm, rfl, ?_, he'⟩
      exact List.forall_mem_cons.mpr ⟨List.mem_cons_self, hr'⟩

/-- What has come of the first files of a list remains when all others are left out. -/
theorem filter_foldl_attempt {ps qs : List Path} (hd : (ps ++ qs).Nodup) :
    ((ps ++ qs).foldl (attempt ctx t changes) {}).results.filter (fun r => r.path ∈ ps) =
        (ps.foldl (attempt ctx t changes) {}).results ∧
      ((ps ++ qs).foldl (attempt ctx t changes) {}).failures.filter (fun e => e.1 ∈ ps) =
        (ps.foldl (attempt ctx t changes) {}).failures := by
  obtain ⟨first, first', hfirst, hfirst', hr, he⟩ := exists_foldl_attempt_eq ctx t changes {} ps
  obtain ⟨more, more', hmore, hmore', hr', he'⟩ :=
    exists_foldl_attempt_eq ctx t changes (ps.foldl (attempt ctx t changes) {}) qs
  have hapart : ∀ q ∈ qs, q ∉ ps := fun q hq hp => (List.nodup_append.mp hd).2.2 q hp q hq rfl
  rw [List.foldl_append, hmore, hmore', hfirst, hfirst']
  simp only [List.nil_append, List.filter_append]
  constructor
  · rw [List.filter_eq_self.mpr fun r h => decide_eq_true (hr r h),
      List.filter_eq_nil_iff.mpr fun r h => by simpa using hapart _ (hr' r h), List.append_nil]
  · rw [List.filter_eq_self.mpr fun e h => decide_eq_true (he e h),
      List.filter_eq_nil_iff.mpr fun e h => by simpa using hapart _ (he' e h), List.append_nil]

end Progress

/-! ## The run that is not stopped -/

/-- `a` is what a run comes to that attempts the files `taken` and leaves the files `rest`, where
`full` is what it comes to if it attempts all files. -/
structure Analysis.StoppedAfter (a full : Analysis) (taken rest : List Path) : Prop where
  layers : a.layers = full.layers
  changeSet : a.changeSet = full.changeSet
  /-- The files attempted are the first ones in the layers, one layer after the other. -/
  schedule : a.layers.flatten = taken ++ rest
  /-- Each file attempted has a result or a failure. -/
  attempted : (a.results.map (·.path) ++ a.failures.map (·.1)).Perm taken
  /-- No two of them are one file, so that none has both. -/
  apart : (a.results.map (·.path) ++ a.failures.map (·.1)).Pairwise fun p q => ¬ Path.Same p q
  results : a.results = full.results.filter fun r => r.path ∈ taken
  failures : a.failures = full.failures.filter fun e => e.1 ∈ taken
  cancelled : a.cancelled = true ↔ rest ≠ []
  resolvedFiles :
    a.statistics.resolvedFiles = a.results.countP fun r => Path.memSame r.path a.changeSet
  cachedFiles :
    a.statistics.cachedFiles = a.results.countP fun r => !Path.memSame r.path a.changeSet
  errorFiles : a.statistics.errorFiles = a.failures.length
  counted : a.statistics.resolvedFiles + a.statistics.cachedFiles + a.statistics.errorFiles =
    taken.length

theorem RunPlan.Made.unique {digest : Digest} {config : Config} {excludes : List Glob}
    {t : FileTree} {project : Project} {data : StoreData} {plan plan' : RunPlan}
    (h : plan.Made digest config excludes t project data)
    (h' : plan'.Made digest config excludes t project data) : plan' = plan :=
  Except.ok.inj ((make_eq_ok_iff.mpr h').symm.trans (make_eq_ok_iff.mpr h))

namespace Attempted

variable {workers : Workers} {ctx : RunContext} {config : Config} {excludes : List Glob}
  {t : FileTree} {project : Project} {store : Store} {o : RunOutcome} {plan : RunPlan}
  {taken rest : List Path}
  (h : Attempted workers ctx config excludes t project store o plan taken rest)
include h

theorem attempted_perm :
    (o.analysis.results.map (·.path) ++ o.analysis.failures.map (·.1)).Perm taken := by
  have hperm := Progress.paths_foldl_attempt ctx t plan.changes {} taken
  exact ((h.results_perm.map _).append (h.failures_perm.map _)).trans hperm

theorem pairwise_taken : taken.Pairwise fun p q => ¬ Path.Same p q := by
  have hnodup : taken.Nodup := by
    have hschedule := h.made.nodup_scheduleFor workers
    rw [h.schedule] at hschedule
    exact (List.nodup_append.mp hschedule).1
  exact hnodup.imp_of_mem fun hp hq hne hs =>
    hne (Path.eq_of_same o.analysis.graph.files_distinct (h.taken_subset hp) (h.taken_subset hq) hs)

/-- The counters of a run are those of its results and failures. -/
theorem statistics_eq :
    o.analysis.statistics.resolvedFiles =
        o.analysis.results.countP (fun r => Path.memSame r.path o.analysis.changeSet) ∧
      o.analysis.statistics.cachedFiles =
        o.analysis.results.countP (fun r => !Path.memSame r.path o.analysis.changeSet) ∧
      o.analysis.statistics.errorFiles = o.analysis.failures.length := by
  have hchanged : o.analysis.results.countP (fun r => Path.memSame r.path o.analysis.changeSet) =
      o.analysis.results.countP (·.changed) :=
    List.countP_congr fun r hr => by rw [h.changed_eq hr]
  have hkept : o.analysis.results.countP (fun r => !Path.memSame r.path o.analysis.changeSet) =
      o.analysis.results.countP fun r => !r.changed :=
    List.countP_congr fun r hr => by rw [h.changed_eq hr]
  rw [hchanged, hkept, h.analysis]
  exact ⟨((sortBy_perm _ _).countP_eq _).symm, ((sortBy_perm _ _).countP_eq _).symm,
    (sortBy_perm _ _).length_eq.symm⟩

end Attempted

theorem Attempted.stoppedAfter {ctx : RunContext} {config : Config} {excludes : List Glob}
    {t : FileTree} {project : Project} {store : Store} {o full : RunOutcome} {plan : RunPlan}
    {stops : List Path → Bool} {taken rest : List Path}
    (h : Attempted .one ctx config excludes t project store o plan taken rest)
    (hfull : Attempted .one { ctx with stops } config excludes t project store full plan
      (taken ++ rest) []) :
    o.analysis.StoppedAfter full.analysis taken rest := by
  have hnodup := h.made.nodup_scheduleFor .one
  rw [h.schedule] at hnodup
  obtain ⟨hresults, hfailures⟩ := Progress.filter_foldl_attempt ctx t plan.changes hnodup
  obtain ⟨hresolved, hcached, herrors⟩ := h.statistics_eq
  have hperm := h.attempted_perm
  refine ⟨?_, ?_, ?_, hperm, hperm.symm.pairwise h.pairwise_taken (· ·.symm), ?_, ?_, ?_, hresolved,
    hcached, herrors, ?_⟩
  · rw [h.analysis, hfull.analysis]
    rfl
  · rw [h.changeSet_eq, hfull.changeSet_eq]
  · rw [← h.schedule, plan.scheduleFor_one, h.analysis]
    rfl
  · rw [h.analysis, hfull.analysis]
    simp only [Progress.analysis, filter_sortBy_path]
    exact congrArg _ hresults.symm
  · rw [h.analysis, hfull.analysis]
    simp only [Progress.analysis, filter_sortBy_path]
    exact congrArg _ hfailures.symm
  · rw [h.cancelled_eq]
    simp
  · have hlength := hperm.length_eq
    have hsplit := o.analysis.results.length_eq_countP_add_countP
      fun r => Path.memSame r.path o.analysis.changeSet
    simp only [List.length_append, List.length_map] at hlength
    rw [hresolved, hcached, herrors]
    simp only [Bool.not_eq_true, Bool.decide_eq_false] at hsplit
    omega

/-- A run that is told to stop comes to a part of what the run that attempts all files comes to. -/
theorem stopped_run_agrees {ctx : RunContext} {config : Config} {excludes : List Glob}
    {t : FileTree} {project : Project} {store : Store} {o : RunOutcome}
    (hrun : analyzeProject ctx config excludes t project store = .ok o) :
    ∃ full taken rest,
      analyzeProject { ctx with stops := fun _ => false } config excludes t project store =
        .ok full ∧
      full.analysis.cancelled = false ∧ StopsAfter ctx.stops taken rest ∧
      o.analysis.StoppedAfter full.analysis taken rest := by
  obtain ⟨plan, taken, rest, h, -, hstops⟩ := exists_attempted hrun
  obtain ⟨full, hfull⟩ : ∃ full, analyzeProject { ctx with stops := fun _ => false } config excludes
      t project store = .ok full := analyzeProjectBy_ok h.made
  obtain ⟨plan', taken', rest', h', -, hstops'⟩ := exists_attempted hfull
  obtain rfl := h.made.unique h'.made
  obtain rfl : rest' = [] := hstops'.rest_eq_nil fun _ => rfl
  obtain rfl : taken' = taken ++ rest := by rw [← h.schedule, h'.schedule, List.append_nil]
  exact ⟨full, taken, rest, hfull, h'.cancelled_eq, hstops, h.stoppedAfter h'⟩

namespace Sample

/-- Of four files, the run attempts two. The first one fails, and the second one does not find what
it inherits from. -/
def halfway : Visit where
  tree := tree [file "a.dart" "import 'b.dart';\nclass A extends B \x7b\x7d\n" 1,
    file "b.dart" "class B \x7b\x7d\n" 1, file "c.dart" "class C extends B \x7b\x7d\n" 1,
    file "d.dart" "import 'a.dart';\n" 1]
  resolve := failingOn (path "b.dart")
  stops done := done.length == 2
  now

theorem halfway_spec :
    (setting.run halfway Store.memory).toOption.any (fun o => decide (
      o.analysis.cancelled = true ∧ o.analysis.failures.map (·.1) = [path "b.dart"] ∧
      o.analysis.results.map (·.path) = [path "c.dart"] ∧
      o.analysis.results.map (·.diagnostics.length) = [1])) = true := by
  decide +kernel

end Sample

theorem stopped_run_agrees_halfway :
    ∃ o, Sample.setting.run Sample.halfway Store.memory = .ok o ∧ o.analysis.cancelled = true ∧
      o.analysis.failures.map (·.1) = [Sample.path "b.dart"] ∧
      o.analysis.results.map (·.path) = [Sample.path "c.dart"] ∧
      ∃ full taken rest,
        Sample.setting.run { Sample.halfway with stops := fun _ => false } Store.memory =
          .ok full ∧
        full.analysis.cancelled = false ∧ StopsAfter Sample.halfway.stops taken rest ∧
        o.analysis.StoppedAfter full.analysis taken rest := by
  obtain ⟨o, hrun, hcancelled, hfailures, hresults, -⟩ := exists_ok_of_any Sample.halfway_spec
  exact ⟨o, hrun, hcancelled, hfailures, hresults, stopped_run_agrees hrun⟩

end Recheck
