import Recheck.Analysis.Run
import Recheck.Proofs.Run.Plan
import Recheck.Proofs.Run.Progress

/-!
# The outcome of a run

What a run delivers (`Attempted`), and what it leaves in the store if caching is on (`Ran`). Files
are remembered under the texts shown for them, so what is said about the record of a file supposes
that this text names it and is shown for no other source file (`Path.OwnKey`), as it is if the names
of all source files are UTF-8:

* `Attempted.resolves_iff`, `Attempted.delivers_iff`: the files with a result are those that resolve
  in the part of the schedule that was attempted, and those of them that are in the change set count
  as changed;
* `Ran.mem_pending_iff`: the files of the change set without a result are left unresolved;
* `Ran.get?_eq_stored`: a file with a result, or that could not be read, has the record that its
  check staged, every other one the record that it had, and a run that is not stopped forgets what
  is no source file;
* `Ran.get?_cases`: no record is stored but one that the tree gives a source file.
-/

namespace Recheck

/-! ## What is stored -/

theorem get?_foldl_commit (changes : Changes) {ps : List Path} (store : Store) {q : Path}
    (hkey : ∀ p ∈ ps, p.shown = q.shown → p = q) :
    (ps.foldl changes.commit store).data.get? q =
      if q ∈ ps then (changes.staged? q).or (store.data.get? q) else store.data.get? q := by
  induction ps generalizing store with
  | nil => simp
  | cons p ps ih =>
    rw [List.foldl_cons, ih _ fun p' hp' => hkey p' (List.mem_cons_of_mem _ hp'), Changes.commit]
    by_cases hqp : p = q
    · subst hqp
      cases changes.staged? p <;> simp [Store.get?_put]
    · have hshown : p.shown ≠ q.shown := fun heq => hqp (hkey p List.mem_cons_self heq)
      cases changes.staged? p with
      | none => simp [Ne.symm hqp]
      | some r => simp [Store.get?_put, hshown, Ne.symm hqp]

theorem get?_remember (plan : RunPlan) (s : Progress) (cancelled : Bool) (now : Timestamp)
    (store : Store) (q : Path) :
    (remember plan s cancelled now store).data.get? q =
      if cancelled || Path.memSame (.ofText q.shown) plan.order then
        ((committed plan s).foldl plan.changes.commit store).data.get? q
      else none := by
  simp only [remember, Store.get?_saveMetadata]
  cases cancelled <;> simp [Store.get?_prune]

theorem mem_pendingPaths_remember (plan : RunPlan) (s : Progress) (cancelled : Bool)
    (now : Timestamp) (store : Store) (q : Path) :
    q ∈ (remember plan s cancelled now store).data.pendingPaths ↔
      ∃ p ∈ plan.changes.changeSet, s.resolved p = false ∧ .ofText p.shown = q := by
  have hunfinished : ∀ p, p ∈ plan.changes.unfinished s.resolved ↔
      p ∈ plan.changes.changeSet ∧ s.resolved p = false := by
    simp [Changes.unfinished]
  simp only [remember, Store.pendingPaths_saveMetadata]
  cases cancelled <;>
    simp only [Bool.false_eq_true, if_true, if_false, Store.pendingPaths_prune,
      Store.mem_pendingPaths_setPending, hunfinished, and_assoc]

/-! ## Runs -/

namespace Analysis

/-- Whether a file has a result. -/
def resolves (a : Analysis) (p : Path) : Bool := a.results.any fun r => r.path = p

/-- Whether a file has a result that counts as changed. -/
def delivers (a : Analysis) (p : Path) : Bool := a.changedResults.any fun r => r.path = p

/-- Whether a file was attempted and did not resolve. -/
def fails (a : Analysis) (p : Path) : Bool := a.failures.any fun e => e.1 = p

/-- The record that a run stores for a file: what its check staged, if the file has a result, or if
it failed and its check could not read it. -/
def stored? (a : Analysis) (digest : Digest) (t : FileTree) (data : StoreData) (p : Path) :
    Option Record :=
  let check := FileCheck.run digest t (data.get? p) p
  if a.resolves p || a.fails p && check.isUnreadable then check.staged? else none

end Analysis

section

variable (workers : Workers) (ctx : RunContext) (config : Config) (excludes : List Glob)
  (t : FileTree) (project : Project) (store : Store)

/-- A run: it follows a plan, its workers take up the files `taken` of the schedule, and it leaves
the files `rest` if it is stopped. -/
structure Attempted (o : RunOutcome) (plan : RunPlan) (taken rest : List Path) : Prop where
  made : plan.Made ctx.digest config excludes t project store.data
  schedule : plan.scheduleFor workers = taken ++ rest
  analysis : o.analysis =
    (taken.foldl (Progress.attempt ctx t plan.changes) {}).analysis plan project (!rest.isEmpty)

/-- A run with caching, which also remembers what has come of the files. -/
structure Ran (o : RunOutcome) (plan : RunPlan) (taken rest : List Path) : Prop
    extends Attempted workers ctx config excludes t project store o plan taken rest where
  cache : config.enableCache = true
  data : o.store.data = (remember plan (taken.foldl (Progress.attempt ctx t plan.changes) {})
    (!rest.isEmpty) ctx.now store).data

end

section Ran

variable {workers : Workers} {ctx : RunContext} {config : Config} {excludes : List Glob}
  {t : FileTree} {project : Project} {store : Store} {o : RunOutcome}

theorem exists_attempted
    (h : analyzeProjectBy workers ctx config excludes t project store = .ok o) :
    ∃ plan taken rest, Attempted workers ctx config excludes t project store o plan taken rest ∧
      (config.enableCache = true →
        o.store.data = (remember plan (taken.foldl (Progress.attempt ctx t plan.changes) {})
          (!rest.isEmpty) ctx.now store).data) ∧
      StopsAfter ctx.stops taken rest := by
  rw [analyzeProjectBy] at h
  split at h
  · cases h
  · next plan hplan =>
    obtain ⟨taken, rest, hs, ha, hstops⟩ :=
      Progress.attemptAll_eq ctx t plan.changes {} (plan.scheduleFor workers)
    simp only [ha] at h
    refine ⟨plan, taken, rest, ⟨RunPlan.make_eq_ok_iff.mp hplan, hs, ?_⟩, fun hcache => ?_,
      by simpa using hstops⟩
    · split at h
      · split at h <;> rw [← Except.ok.inj h]
      · rw [← Except.ok.inj h]
    · rw [if_pos hcache] at h
      split at h
      · next hf =>
        rw [← Except.ok.inj h]
        exact Store.data_flush hf
      · rw [← Except.ok.inj h]

theorem exists_ran (hcache : config.enableCache = true)
    (h : analyzeProjectBy workers ctx config excludes t project store = .ok o) :
    ∃ plan taken rest, Ran workers ctx config excludes t project store o plan taken rest := by
  obtain ⟨plan, taken, rest, ha, hdata, -⟩ := exists_attempted h
  exact ⟨plan, taken, rest, ha, hcache, hdata hcache⟩

/-- A run for which a plan can be made comes to something. -/
theorem analyzeProjectBy_ok {plan : RunPlan}
    (h : plan.Made ctx.digest config excludes t project store.data) :
    ∃ o, analyzeProjectBy workers ctx config excludes t project store = .ok o := by
  simp only [analyzeProjectBy, RunPlan.make_eq_ok_iff.mpr h]
  split
  · split <;> exact ⟨_, rfl⟩
  · exact ⟨_, rfl⟩

/-- A run that comes to nothing does so whatever is in the store. -/
theorem analyzeProjectBy_error {e : AnalysisError} (store' : Store)
    (h : analyzeProjectBy workers ctx config excludes t project store = .error e) :
    analyzeProjectBy workers ctx config excludes t project store' = .error e := by
  simp only [analyzeProjectBy] at h ⊢
  split at h
  · next hmake => rw [RunPlan.make_eq_error store'.data hmake, ← Except.error.inj h]
  · split at h
    · split at h <;> cases h
    · cases h

/-- A run that is not told to stop attempts all files. -/
theorem cancelled_of_not_stops (hstops : ∀ attempted, ctx.stops attempted = false)
    (h : analyzeProjectBy workers ctx config excludes t project store = .ok o) :
    o.analysis.cancelled = false := by
  obtain ⟨plan, taken, rest, ha, -, hstopped⟩ := exists_attempted h
  rw [ha.analysis, hstopped.rest_eq_nil hstops]
  rfl

/-- Without caching a run leaves the store alone. -/
theorem store_of_not_cache (hcache : config.enableCache = false)
    (h : analyzeProjectBy workers ctx config excludes t project store = .ok o) :
    o.store = store := by
  rw [analyzeProjectBy] at h
  split at h
  · cases h
  · simp only [hcache, Bool.false_eq_true, if_false] at h
    rw [← Except.ok.inj h]

end Ran

namespace Attempted

variable {workers : Workers} {ctx : RunContext} {config : Config} {excludes : List Glob}
  {t : FileTree} {project : Project} {store : Store} {o : RunOutcome} {plan : RunPlan}
  {taken rest : List Path}
  (h : Attempted workers ctx config excludes t project store o plan taken rest)
include h

theorem graph_eq : o.analysis.graph = plan.graph := by
  rw [h.analysis]
  rfl

theorem changeSet_eq : o.analysis.changeSet = plan.changes.changeSet := by
  rw [h.analysis]
  rfl

theorem cancelled_eq : o.analysis.cancelled = !rest.isEmpty := by
  rw [h.analysis]
  rfl

theorem symbols_eq : o.analysis.symbols =
    (taken.foldl (Progress.attempt ctx t plan.changes) {}).symbols := by
  rw [h.analysis]
  rfl

theorem results_perm : o.analysis.results.Perm
    (taken.foldl (Progress.attempt ctx t plan.changes) {}).results := by
  rw [h.analysis]
  exact sortBy_perm _ _

theorem failures_perm : o.analysis.failures.Perm
    (taken.foldl (Progress.attempt ctx t plan.changes) {}).failures := by
  rw [h.analysis]
  exact sortBy_perm _ _

theorem sourceFiles_eq :
    sourceFiles t project config.extensions excludes = .ok o.analysis.graph.files := by
  rw [h.graph_eq]
  exact h.made.sourceFiles_eq

theorem needs_iff {u v : Path} :
    o.analysis.graph.Needs u v ↔
      u ∈ o.analysis.graph.files ∧ v ∈ o.analysis.graph.files ∧
        ∃ target, RefersTo t project u target ∧ Path.Same target v := by
  rw [h.graph_eq]
  exact h.made.needs_iff

theorem memSame_order (p : Path) :
    Path.memSame p o.analysis.order = Path.memSame p o.analysis.graph.files := by
  rw [Bool.eq_iff_iff, Path.memSame_iff, Path.memSame_iff, h.graph_eq, h.analysis]
  simp only [Progress.analysis, h.made.mem_order]

theorem taken_subset {p : Path} (hp : p ∈ taken) : p ∈ o.analysis.graph.files := by
  rw [h.graph_eq, ← h.made.mem_scheduleFor, h.schedule]
  exact List.mem_append_left _ hp

theorem taken_eq (hc : o.analysis.cancelled = false) : taken = plan.scheduleFor workers := by
  rw [h.cancelled_eq] at hc
  obtain rfl : rest = [] := by simpa using hc
  rw [h.schedule, List.append_nil]

/-! ## What is delivered -/

theorem resolves_iff {p : Path} :
    o.analysis.resolves p = true ↔ p ∈ resolvable (ctx.resolve t) SymbolTable.empty taken := by
  rw [← Progress.map_path_results ctx t plan.changes, h.analysis]
  simp [Analysis.resolves, Progress.analysis]

theorem memSame_results (p : Path) :
    Path.memSame p (o.analysis.results.map (·.path)) =
      Path.memSame p (resolvable (ctx.resolve t) SymbolTable.empty taken) := by
  rw [Bool.eq_iff_iff, Path.memSame_iff, Path.memSame_iff,
    ← Progress.map_path_results ctx t plan.changes, h.analysis]
  simp [Progress.analysis]

theorem mem_files_of_resolves {p : Path} (hp : o.analysis.resolves p = true) :
    p ∈ o.analysis.graph.files :=
  h.taken_subset ((resolvable_sublist _ _ _).subset (h.resolves_iff.mp hp))

theorem fails_iff {p : Path} :
    o.analysis.fails p = true ↔
      p ∈ (taken.foldl (Progress.attempt ctx t plan.changes) {}).failures.map (·.1) := by
  rw [h.analysis]
  simp [Analysis.fails, Progress.analysis]

/-- A file that is attempted resolves or fails. -/
theorem mem_taken_iff {p : Path} :
    p ∈ taken ↔ o.analysis.resolves p = true ∨ o.analysis.fails p = true := by
  have hperm := Progress.resolvable_append_failures_perm ctx t plan.changes taken
  rw [h.resolves_iff, h.fails_iff, ← List.mem_append, hperm.mem_iff]

theorem mem_files_of_fails {p : Path} (hp : o.analysis.fails p = true) :
    p ∈ o.analysis.graph.files :=
  h.taken_subset (h.mem_taken_iff.mpr (.inr hp))

/-- A source file is spelled only by itself among the results. -/
theorem memSame_results_of_mem {p : Path} (hp : p ∈ o.analysis.graph.files) :
    Path.memSame p (o.analysis.results.map (·.path)) = o.analysis.resolves p := by
  have hsub : resolvable (ctx.resolve t) SymbolTable.empty taken ⊆ o.analysis.graph.files :=
    fun q hq => h.taken_subset ((resolvable_sublist _ _ _).subset hq)
  rw [h.memSame_results, Bool.eq_iff_iff, h.resolves_iff]
  exact Path.mem_iff_memSame o.analysis.graph.files_distinct hp hsub

/-- Only source files are attempted. -/
theorem not_attempted_of_not_mem {p : Path} (hp : p ∉ o.analysis.graph.files) :
    o.analysis.resolves p = false ∧ o.analysis.fails p = false :=
  ⟨Bool.eq_false_iff.mpr fun hres => hp (h.mem_files_of_resolves hres),
    Bool.eq_false_iff.mpr fun hfails => hp (h.mem_files_of_fails hfails)⟩

theorem not_resolves_of_fails {p : Path} (hp : o.analysis.fails p = true) :
    o.analysis.resolves p = false := by
  have htaken : taken.Nodup := by
    have hnodup := h.made.nodup_scheduleFor workers
    rw [h.schedule] at hnodup
    exact (List.nodup_append.mp hnodup).1
  have hperm := Progress.resolvable_append_failures_perm ctx t plan.changes taken
  have hdisjoint := (List.nodup_append.mp (hperm.nodup_iff.mpr htaken)).2.2
  refine Bool.eq_false_iff.mpr fun hres => ?_
  exact hdisjoint p (h.resolves_iff.mp hres) p (h.fails_iff.mp hp) rfl

/-- No failed file is spelled by a result. -/
theorem not_memSame_results_of_failures {p : Path}
    (hp : Path.memSame p (o.analysis.failures.map (·.1)) = true) :
    Path.memSame p (o.analysis.results.map (·.path)) = false := by
  obtain ⟨q, hq, hqp⟩ := Path.memSame_iff.mp hp
  have hfails : o.analysis.fails q = true := by simpa [Analysis.fails] using hq
  rw [← Path.memSame_congr _ hqp, h.memSame_results_of_mem (h.mem_files_of_fails hfails)]
  exact h.not_resolves_of_fails hfails

/-- A source file is spelled only by itself among the failures. -/
theorem failed_eq {p : Path} (hp : p ∈ o.analysis.graph.files) :
    (taken.foldl (Progress.attempt ctx t plan.changes) {}).failed p = o.analysis.fails p := by
  have hsub : (taken.foldl (Progress.attempt ctx t plan.changes) {}).failures.map (·.1) ⊆
      o.analysis.graph.files := fun q hq => h.mem_files_of_fails (h.fails_iff.mpr hq)
  rw [Progress.failed, Bool.eq_iff_iff, h.fails_iff]
  exact Path.mem_iff_memSame o.analysis.graph.files_distinct hp hsub

theorem resolved_eq {p : Path} (hp : p ∈ o.analysis.graph.files) :
    (taken.foldl (Progress.attempt ctx t plan.changes) {}).resolved p =
      o.analysis.resolves p := by
  rw [Progress.resolved, Progress.map_path_results, ← h.memSame_results,
    h.memSame_results_of_mem hp]

/-- The files whose staged record is stored, if they have one. -/
theorem mem_committed_iff {p : Path} :
    p ∈ committed plan (taken.foldl (Progress.attempt ctx t plan.changes) {}) ↔
      o.analysis.resolves p = true ∨
        o.analysis.fails p = true ∧ Path.memSame p plan.changes.unreadable = true := by
  rw [committed, List.mem_filter, h.made.mem_schedule, ← h.graph_eq]
  constructor
  · rintro ⟨hp, hstored⟩
    rwa [h.resolved_eq hp, h.failed_eq hp, Bool.or_eq_true, Bool.and_eq_true] at hstored
  · intro hstored
    have hp : p ∈ o.analysis.graph.files :=
      hstored.elim h.mem_files_of_resolves fun hfails => h.mem_files_of_fails hfails.1
    rw [h.resolved_eq hp, h.failed_eq hp, Bool.or_eq_true, Bool.and_eq_true]
    exact ⟨hp, hstored⟩

/-- A result says whether its file is in the change set. -/
theorem changed_eq {r : FileResult} (hr : r ∈ o.analysis.results) :
    r.changed = Path.memSame r.path o.analysis.changeSet := by
  rw [h.changeSet_eq]
  rw [h.analysis, Progress.analysis, mem_sortBy] at hr
  exact (Progress.changed_foldl_attempt hr).resolve_left (by simp)

/-- A file with a result counts as changed if it is in the change set. -/
theorem delivers_iff {p : Path} :
    o.analysis.delivers p = true ↔
      o.analysis.resolves p = true ∧ Path.memSame p o.analysis.changeSet = true := by
  simp only [Analysis.delivers, Analysis.resolves, Analysis.changedResults, List.any_eq_true,
    List.mem_filter, decide_eq_true_eq]
  constructor
  · rintro ⟨r, ⟨hr, hc⟩, rfl⟩
    exact ⟨⟨r, hr, rfl⟩, (h.changed_eq hr).symm.trans hc⟩
  · rintro ⟨⟨r, hr, rfl⟩, hc⟩
    exact ⟨r, ⟨hr, (h.changed_eq hr).trans hc⟩, rfl⟩

/-- A run that is not stopped attempts every file. -/
theorem resolves_or_fails (hc : o.analysis.cancelled = false) {p : Path}
    (hp : p ∈ o.analysis.graph.files) :
    o.analysis.resolves p = true ∨ o.analysis.fails p = true := by
  rw [← h.mem_taken_iff, h.taken_eq hc, h.made.mem_scheduleFor, ← h.graph_eq]
  exact hp

/-- If a run is not stopped, the files that fail are those without a result. -/
theorem fails_iff_not_resolves (hc : o.analysis.cancelled = false) {p : Path} :
    o.analysis.fails p = true ↔ p ∈ o.analysis.graph.files ∧ o.analysis.resolves p = false := by
  constructor
  · exact fun hp => ⟨h.mem_files_of_fails hp, h.not_resolves_of_fails hp⟩
  · rintro ⟨hp, hres⟩
    exact (h.resolves_or_fails hc hp).resolve_left (Bool.eq_false_iff.mp hres)

/-- If a run is not stopped and no file fails, every file has a result. -/
theorem resolves_of_no_failures (hc : o.analysis.cancelled = false)
    (hf : o.analysis.failures = []) {p : Path} (hp : p ∈ o.analysis.graph.files) :
    o.analysis.resolves p = true := by
  have hnone : o.analysis.fails p = false := by rw [Analysis.fails, hf, List.any_nil]
  exact (h.resolves_or_fails hc hp).resolve_right (Bool.eq_false_iff.mp hnone)

end Attempted

namespace Ran

variable {workers : Workers} {ctx : RunContext} {config : Config} {excludes : List Glob}
  {t : FileTree} {project : Project} {store : Store} {o : RunOutcome} {plan : RunPlan}
  {taken rest : List Path}
  (h : Ran workers ctx config excludes t project store o plan taken rest)
include h

/-! ## What counts as changed -/

/-- The files of the change set are those with which a change starts and those that depend on
them. -/
theorem mem_changeSet_iff {f : Path} (hf : f ∈ o.analysis.graph.files) :
    Path.memSame f o.analysis.changeSet = true ↔
      ∃ p ∈ o.analysis.graph.files,
        RunPlan.StartsChange ctx.digest t project o.analysis.graph.files store.data p ∧
          (f = p ∨ o.analysis.graph.DependsOn f p) := by
  rw [h.graph_eq] at hf ⊢
  rw [h.changeSet_eq]
  exact h.made.contains_changes h.cache hf

/-- If nothing was left unresolved, the change set is spelled as the graph is. -/
theorem mem_changeSet_iff_memSame (hpending : store.data.pendingPaths = []) {f : Path} :
    f ∈ o.analysis.changeSet ↔
      f ∈ o.analysis.graph.files ∧ Path.memSame f o.analysis.changeSet = true := by
  have hsub : ∀ g ∈ o.analysis.changeSet, g ∈ o.analysis.graph.files := by
    intro g hg
    rw [h.changeSet_eq] at hg
    rw [h.graph_eq]
    refine (h.made.mem_changeSet h.cache hg).resolve_right fun hp => ?_
    rw [hpending] at hp
    exact List.not_mem_nil hp.1
  refine ⟨fun hf => ⟨hsub f hf, Path.memSame_of_mem hf⟩, fun ⟨hf, hm⟩ => ?_⟩
  exact (Path.mem_iff_memSame o.analysis.graph.files_distinct hf hsub).mp hm

/-- The change set holds spellings of source files. -/
theorem memSame_files_of_changeSet {f : Path}
    (hf : Path.memSame f o.analysis.changeSet = true) :
    Path.memSame f o.analysis.graph.files = true := by
  obtain ⟨p, hp, hpf⟩ := Path.memSame_iff.mp hf
  rw [← Path.memSame_congr _ hpf, h.graph_eq]
  rw [h.changeSet_eq] at hp
  exact (h.made.mem_changeSet h.cache hp).elim Path.memSame_of_mem (·.2)

theorem not_startsChange {f : Path} (hf : f ∈ o.analysis.graph.files)
    (hout : Path.memSame f o.analysis.changeSet = false) :
    ¬ RunPlan.StartsChange ctx.digest t project o.analysis.graph.files store.data f := by
  intro hstart
  have hin := (h.mem_changeSet_iff hf).mpr ⟨f, hf, hstart, .inl rfl⟩
  rw [hout] at hin
  cases hin

/-- What a file outside of the change set depends on is outside as well. -/
theorem not_mem_of_dependsOn {f g : Path} (hout : Path.memSame f o.analysis.changeSet = false)
    (hfg : o.analysis.graph.DependsOn f g) : Path.memSame g o.analysis.changeSet = false := by
  by_contra hin
  obtain ⟨p, hp, hstart, hor⟩ :=
    (h.mem_changeSet_iff hfg.right_mem).mp (Bool.eq_true_of_not_eq_false hin)
  have hfp : o.analysis.graph.DependsOn f p := by
    rcases hor with rfl | hgp
    · exact hfg
    · exact hfg.trans hgp
  have hf := (h.mem_changeSet_iff hfg.left_mem).mpr ⟨p, hp, hstart, .inr hfp⟩
  rw [hout] at hf
  cases hf

/-! ## What is remembered -/

theorem mem_pending_iff {p : Path} :
    p ∈ o.store.data.pendingPaths ↔
      ∃ q ∈ o.analysis.changeSet, Path.memSame q (o.analysis.results.map (·.path)) = false ∧
        .ofText q.shown = p := by
  simp only [h.data, mem_pendingPaths_remember, h.changeSet_eq, Progress.resolved,
    Progress.map_path_results, h.memSame_results]

/-- The change set holds source files, and texts that were left unresolved. -/
theorem mem_files_or_isText {q : Path} (hq : q ∈ o.analysis.changeSet) :
    q ∈ o.analysis.graph.files ∨ q.IsText := by
  rw [h.changeSet_eq] at hq
  rw [h.graph_eq]
  exact (h.made.mem_changeSet h.cache hq).imp_right fun hpending =>
    (StoreData.mem_pendingPaths.mp hpending.1).1

/-- The files of the change set that have no result are left unresolved. -/
theorem mem_pending {p : Path} (hp : p.OwnKey o.analysis.graph.files) :
    p ∈ o.store.data.pendingPaths ↔
      p ∈ o.analysis.changeSet ∧ Path.memSame p (o.analysis.results.map (·.path)) = false := by
  rw [h.mem_pending_iff]
  constructor
  · rintro ⟨q, hq, hn, hqp⟩
    have hshown : q.shown = p.shown := by rw [← hqp, Path.shown_ofText]
    obtain rfl : q = p :=
      (h.mem_files_or_isText hq).elim (fun hfile => hp.unique q hfile hshown) fun htext =>
        (htext.shown_inj hp.isText).mp hshown
    exact ⟨hq, hn⟩
  · exact fun ⟨hc, hn⟩ => ⟨p, hc, hn, hp.isText.ofText_shown⟩

/-- A text of the change set that has no result is left unresolved. -/
theorem memSame_pending {p : Path} (htext : p.IsText)
    (hin : Path.memSame p o.analysis.changeSet = true)
    (hleft : Path.memSame p (o.analysis.results.map (·.path)) = false) :
    Path.memSame p o.store.data.pendingPaths = true := by
  obtain ⟨q, hq, hqp⟩ := Path.memSame_iff.mp hin
  have hpending : q ∈ o.store.data.pendingPaths :=
    h.mem_pending_iff.mpr
      ⟨q, hq, Path.memSame_congr _ hqp ▸ hleft, (htext.of_same hqp.symm).ofText_shown⟩
  exact Path.memSame_iff.mpr ⟨q, hpending, hqp⟩

/-- If the names of all source files are texts, the files that are left unresolved are those of the
change set that have no result. -/
theorem memSame_pending_iff (htext : ∀ f ∈ o.analysis.graph.files, f.IsText) {p : Path} :
    Path.memSame p o.store.data.pendingPaths = true ↔
      Path.memSame p o.analysis.changeSet = true ∧
        Path.memSame p (o.analysis.results.map (·.path)) = false := by
  have hchanged : ∀ q ∈ o.analysis.changeSet, .ofText q.shown = q := fun q hq =>
    ((h.mem_files_or_isText hq).elim (htext q) id).ofText_shown
  rw [Path.memSame_iff, Path.memSame_iff]
  constructor
  · rintro ⟨q, hq, hqp⟩
    obtain ⟨q, hc, hn, rfl⟩ := h.mem_pending_iff.mp hq
    rw [hchanged q hc] at hqp
    exact ⟨⟨q, hc, hqp⟩, Path.memSame_congr _ hqp ▸ hn⟩
  · rintro ⟨⟨q, hc, hqp⟩, hn⟩
    exact ⟨q, h.mem_pending_iff.mpr ⟨q, hc, Path.memSame_congr _ hqp ▸ hn, hchanged q hc⟩, hqp⟩

theorem pending_iff (htext : ∀ f ∈ o.analysis.graph.files, f.IsText) {p : Path}
    (hp : p ∈ o.analysis.graph.files) :
    Path.memSame p o.store.data.pendingPaths = true ↔
      Path.memSame p o.analysis.changeSet = true ∧ o.analysis.resolves p = false := by
  rw [h.memSame_pending_iff htext, h.memSame_results_of_mem hp]

/-- A file of the change set that is not left unresolved is delivered as changed. -/
theorem delivers_of_settled {p : Path} (hp : p ∈ o.analysis.graph.files) (htext : p.IsText)
    (hin : Path.memSame p o.analysis.changeSet = true)
    (hsettled : Path.memSame p o.store.data.pendingPaths = false) :
    o.analysis.delivers p = true := by
  refine h.delivers_iff.mpr ⟨?_, hin⟩
  by_contra hno
  have hleft : Path.memSame p (o.analysis.results.map (·.path)) = false := by
    rw [h.memSame_results_of_mem hp]
    exact Bool.eq_false_iff.mpr hno
  exact Bool.eq_false_iff.mp hsettled (h.memSame_pending htext hin hleft)

/-- If a run is not stopped and no file fails, nothing is left unresolved. -/
theorem pendingPaths_eq_nil (hc : o.analysis.cancelled = false) (hf : o.analysis.failures = []) :
    o.store.data.pendingPaths = [] := by
  refine List.eq_nil_iff_forall_not_mem.mpr fun p hp => ?_
  obtain ⟨p, hp, hn, -⟩ := h.mem_pending_iff.mp hp
  obtain ⟨q, hq, hqp⟩ :=
    Path.memSame_iff.mp (h.memSame_files_of_changeSet (Path.memSame_of_mem hp))
  have hres := h.resolves_of_no_failures hc hf hq
  rw [← Path.memSame_congr _ hqp, h.memSame_results_of_mem hq, hres] at hn
  cases hn

section Records

variable {q : Path} (hkey : q.OwnKey o.analysis.graph.files)
include hkey

theorem get?_eq_commit :
    o.store.data.get? q =
      if o.analysis.cancelled || Path.memSame q o.analysis.graph.files then
        ((committed plan (taken.foldl (Progress.attempt ctx t plan.changes) {})).foldl
          plan.changes.commit store).data.get? q
      else none := by
  have horder : o.analysis.order = plan.order := by
    rw [h.analysis]
    rfl
  rw [h.data, get?_remember, h.cancelled_eq, ← h.memSame_order, horder, hkey.isText.ofText_shown]

/-- Every file has the record that the run stores for it. The others have the record that they had,
which a run that is not stopped forgets for what is no source file. -/
theorem get?_eq_stored :
    o.store.data.get? q =
      (o.analysis.stored? ctx.digest t store.data q).or
        (if o.analysis.cancelled || Path.memSame q o.analysis.graph.files then
          store.data.get? q
        else none) := by
  have hunique : ∀ p ∈ committed plan (taken.foldl (Progress.attempt ctx t plan.changes) {}),
      p.shown = q.shown → p = q := by
    intro p hp
    refine hkey.unique p ?_
    exact (h.mem_committed_iff.mp hp).elim h.mem_files_of_resolves fun hf =>
      h.mem_files_of_fails hf.1
  rw [h.get?_eq_commit hkey, get?_foldl_commit _ _ hunique]
  simp only [h.mem_committed_iff]
  by_cases hq : q ∈ o.analysis.graph.files
  · have hfile := Path.memSame_of_mem hq
    rw [h.graph_eq] at hq
    rw [hfile, Bool.or_true, if_pos rfl, if_pos rfl, h.made.staged?_changes h.cache hq,
      h.made.memSame_unreadable_changes h.cache hq, Analysis.stored?]
    simp only [Bool.or_eq_true, Bool.and_eq_true]
    split <;> rfl
  · obtain ⟨hres, hfails⟩ := h.not_attempted_of_not_mem hq
    simp [Analysis.stored?, hres, hfails]

/-- If all source files can be read, a file with a result has the record that its check staged, if
any, and every other file has the record that it had. -/
theorem get?_eq (hr : ∀ p ∈ o.analysis.graph.files, t.Readable p) :
    o.store.data.get? q =
      if o.analysis.cancelled || Path.memSame q o.analysis.graph.files then
        if o.analysis.resolves q then
          (FileCheck.run ctx.digest t (store.data.get? q) q).staged?.or (store.data.get? q)
        else store.data.get? q
      else none := by
  rw [h.get?_eq_stored hkey]
  by_cases hq : q ∈ o.analysis.graph.files
  · rw [Path.memSame_of_mem hq, Bool.or_true, if_pos rfl, if_pos rfl, Analysis.stored?,
      FileCheck.isUnreadable_run (hr q hq), Bool.and_false, Bool.or_false]
    split <;> rfl
  · obtain ⟨hres, hfails⟩ := h.not_attempted_of_not_mem hq
    simp [Analysis.stored?, hres, hfails]

/-- No record is stored but one that the tree gives a source file. -/
theorem get?_cases {r : Record} (hq : o.store.data.get? q = some r) :
    store.data.get? q = some r ∨
      q ∈ o.analysis.graph.files ∧ r = recordOf ctx.digest t q := by
  rw [h.get?_eq_stored hkey, Option.or_eq_some_iff] at hq
  rcases hq with hstored | ⟨-, hkept⟩
  · rw [Analysis.stored?] at hstored
    split at hstored
    · next hattempted =>
      refine .inr ⟨?_, FileCheck.eq_recordOf_of_staged hstored⟩
      rw [Bool.or_eq_true, Bool.and_eq_true] at hattempted
      exact hattempted.elim h.mem_files_of_resolves fun hf => h.mem_files_of_fails hf.1
    · cases hstored
  · split at hkept
    · exact .inl hkept
    · cases hkept

end Records

end Ran

end Recheck
