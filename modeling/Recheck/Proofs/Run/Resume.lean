import Recheck.Proofs.Path.Canonical
import Recheck.Proofs.Run.History

/-!
# Interrupted runs

Runs over files that do not change, each of which may be stopped anywhere, followed by one that is
not stopped, come to the same as one run alone that is not stopped (`resume_eq_uninterrupted`): the
same records, the same files left unresolved, and the same files delivered as changed by at least
one run. The names of the files are to be texts, since others can share a key, and as far as they go
the runs have to agree on which files resolve (`Analysis.AgreesWith`). They do if they resolve files
in one way and in one order (`of_resolve_eq`), and if whether a file resolves depends on the file
alone they do with any workers (`of_exists_resolve_iff`).

Each run is described by the one that is not stopped (`Repeats`), and `Partway` is what holds
between the interrupted runs.
-/

namespace Recheck

/-! ## Runs over the same files -/

/-- As far as the analysis `a` goes, the files resolve that resolve in the analysis `d`, and the
files fail that fail there. -/
structure Analysis.AgreesWith (a d : Analysis) : Prop where
  resolves : ∀ f, a.resolves f = true → d.resolves f = true
  fails : ∀ f, a.fails f = true → d.fails f = true

theorem Analysis.AgreesWith.refl (d : Analysis) : d.AgreesWith d := ⟨fun _ => id, fun _ => id⟩

/-- The visit finds the source files as the run `d` found them, and the files resolve and fail that
did so there. -/
structure Setting.Revisits (s : Setting) (d : Completed) (v : Visit) : Prop
    extends s.FindsAgain d v where
  agrees : ∀ store o, s.run v store = .ok o → o.analysis.AgreesWith d.analysis

section

variable {s : Setting} {start store : Store} {c d : Completed} {v : Visit}
  (hd : s.run d.visit start = .ok d.outcome)
include hd

theorem exists_history {visits : List Visit} (hv : ∀ v ∈ visits, s.Revisits d v) :
    ∃ h, s.History start h ∧ h.map (·.visit) = visits := by
  induction visits with
  | nil => exact ⟨[], .nil, rfl⟩
  | cons v visits ih =>
    obtain ⟨h, hist, hvisits⟩ := ih fun v hv' => hv v (List.mem_cons_of_mem _ hv')
    obtain ⟨o, hrun⟩ := (hv v List.mem_cons_self).exists_run hd (storeAfter start h)
    exact ⟨⟨v, o⟩ :: h, .cons hrun hist, by rw [List.map_cons, hvisits]⟩

variable (hc : s.run c.visit store = .ok c.outcome) (hv : s.FindsAgain d c.visit)
include hc hv

namespace Analysis.AgreesWith

/-- A run that is not stopped has the results that the run `d` has. -/
theorem resolves_eq (hagrees : c.analysis.AgreesWith d.analysis)
    (hfinished : c.analysis.cancelled = false) (f : Path) :
    c.analysis.resolves f = d.analysis.resolves f := by
  obtain ⟨plan, taken, rest, ha⟩ := s.exists_attempted hc
  obtain ⟨plan', taken', rest', ha'⟩ := s.exists_attempted hd
  rw [Bool.eq_iff_iff]
  refine ⟨hagrees.resolves f, fun hres => ?_⟩
  have hf : f ∈ d.graph.files := ha'.mem_files_of_resolves hres
  rw [← hv.graph_eq hd hc] at hf
  refine (ha.resolves_or_fails hfinished hf).resolve_right fun hfails => ?_
  exact Bool.eq_false_iff.mp (ha'.not_resolves_of_fails (hagrees.fails f hfails)) hres

variable (hdone : d.analysis.cancelled = false)
include hdone

/-- The runs agree if the files that the run `c` attempts resolve in both or in none. -/
theorem of_resolves_iff
    (h : ∀ f, c.analysis.resolves f = true ∨ c.analysis.fails f = true →
      (c.analysis.resolves f = true ↔ d.analysis.resolves f = true)) :
    c.analysis.AgreesWith d.analysis := by
  obtain ⟨plan, taken, rest, ha⟩ := s.exists_attempted hc
  obtain ⟨plan', taken', rest', ha'⟩ := s.exists_attempted hd
  refine ⟨fun f hres => (h f (.inl hres)).mp hres, fun f hfails => ?_⟩
  have hf : f ∈ c.graph.files := ha.mem_files_of_fails hfails
  rw [hv.graph_eq hd hc] at hf
  refine (ha'.fails_iff_not_resolves hdone).mpr ⟨hf, Bool.eq_false_iff.mpr fun hres => ?_⟩
  exact Bool.eq_false_iff.mp (ha.not_resolves_of_fails hfails) ((h f (.inr hfails)).mpr hres)

/-- The runs agree if the workers take up the files in the same order and resolve them in the same
way, which may depend on the files before. -/
theorem of_resolve_eq (hworkers : c.visit.workers = d.visit.workers)
    (hresolve : ∀ f ∈ d.graph.files, ∀ symbols,
      c.visit.resolve c.tree f symbols = d.visit.resolve d.tree f symbols) :
    c.analysis.AgreesWith d.analysis := by
  obtain ⟨plan, taken, rest, ha⟩ := s.exists_attempted hc
  obtain ⟨plan', taken', rest', ha'⟩ := s.exists_attempted hd
  have hfiles : ∀ p ∈ taken, p ∈ d.graph.files := fun p hp =>
    hv.graph_eq hd hc ▸ ha.taken_subset hp
  -- The run `d` attempts the files of the run `c` first, and then the others.
  have hschedule : taken' = taken ++ rest := by
    have hgraph := ha'.made.graph_eq ha.made (hv.collect_eq hd)
    rw [ha'.taken_eq hdone, ← ha'.made.scheduleFor_eq ha.made hgraph, ← hworkers, ha.schedule]
  have hnodup : (taken ++ rest).Nodup := ha.schedule ▸ ha.made.nodup_scheduleFor c.visit.workers
  refine of_resolves_iff hd hc hv hdone fun f hf => ha.resolves_iff.trans ?_
  refine Iff.trans ?_ ha'.resolves_iff.symm
  rw [hschedule, mem_resolvable_append_left hnodup (ha.mem_taken_iff.mpr hf)]
  exact Iff.of_eq (congrArg (f ∈ ·) (resolvable_congr (fun p hp => hresolve p (hfiles p hp)) _))

/-- The runs agree, whoever their workers are, if whether a file resolves depends on the file
alone. -/
theorem of_exists_resolve_iff
    (hresolve : ∀ f ∈ d.graph.files, ∀ symbols symbols',
      (∃ analysis, c.visit.resolve c.tree f symbols = .ok analysis) ↔
        ∃ analysis, d.visit.resolve d.tree f symbols' = .ok analysis) :
    c.analysis.AgreesWith d.analysis := by
  obtain ⟨plan, taken, rest, ha⟩ := s.exists_attempted hc
  obtain ⟨plan', taken', rest', ha'⟩ := s.exists_attempted hd
  have hfiles : ∀ p ∈ taken, p ∈ d.graph.files := fun p hp =>
    hv.graph_eq hd hc ▸ ha.taken_subset hp
  have hfiles' : ∀ p ∈ taken', p ∈ d.graph.files := fun p hp => ha'.taken_subset hp
  refine of_resolves_iff hd hc hv hdone fun f hf => ha.resolves_iff.trans ?_
  refine Iff.trans ?_ ha'.resolves_iff.symm
  have hmem : f ∈ taken := ha.mem_taken_iff.mpr hf
  have hmem' : f ∈ taken' := ha'.mem_taken_iff.mpr (ha'.resolves_or_fails hdone (hfiles f hmem))
  have hown := @mem_resolvable_iff _ _ _
    (fun p hp symbols => hresolve p (hfiles p hp) symbols SymbolTable.empty) SymbolTable.empty f
  have hown' := @mem_resolvable_iff _ _ _
    (fun p hp symbols => (hresolve p (hfiles' p hp) symbols symbols).symm.trans
      (hresolve p (hfiles' p hp) symbols SymbolTable.empty)) SymbolTable.empty f
  rw [and_iff_right hmem] at hown
  rw [and_iff_right hmem'] at hown'
  exact hown.trans hown'.symm

end Analysis.AgreesWith

end

/-! ## What a repeated run does -/

/-- With the given store, a file of the run `d` counts as changed. -/
def Outdated (s : Setting) (d : Completed) (data : StoreData) (f : Path) : Prop :=
  ∃ p ∈ d.graph.files,
    RunPlan.StartsChange s.digest d.tree s.project d.graph.files data p ∧
      (f = p ∨ d.graph.DependsOn f p)

theorem Outdated.of_dependsOn {s : Setting} {d : Completed} {data : StoreData} {f p : Path}
    (hp : Outdated s d data p) (hfp : f = p ∨ d.graph.DependsOn f p) : Outdated s d data f := by
  obtain ⟨q, hq, hstart, hpq⟩ := hp
  refine ⟨q, hq, hstart, ?_⟩
  rcases hfp with rfl | hfp
  · exact hpq
  · rcases hpq with rfl | hpq
    · exact .inr hfp
    · exact .inr (hfp.trans hpq)

/-- What the run `c` over the files of the run `d` does, with the given store before it. -/
structure Repeats (s : Setting) (d : Completed) (store : Store) (c : Completed) : Prop where
  names : ∀ f ∈ d.graph.files, f.IsText
  mem_of_resolves : ∀ f, c.analysis.resolves f = true → f ∈ d.graph.files
  resolves : ∀ f, c.analysis.resolves f = true → d.analysis.resolves f = true
  resolves_eq : c.analysis.cancelled = false → ∀ f, c.analysis.resolves f = d.analysis.resolves f
  changeSet_iff : ∀ f ∈ d.graph.files,
    Path.memSame f c.analysis.changeSet = true ↔ Outdated s d store.data f
  delivers_iff : ∀ f, c.analysis.delivers f = true ↔
    c.analysis.resolves f = true ∧ Path.memSame f c.analysis.changeSet = true
  get?_eq : ∀ q, q.IsText → c.data.get? q =
    if c.analysis.cancelled || Path.memSame q d.graph.files then
      if c.analysis.resolves q then
        (FileCheck.run s.digest d.tree (store.data.get? q) q).staged?.or (store.data.get? q)
      else store.data.get? q
    else none
  pending_iff : ∀ f ∈ d.graph.files, Path.memSame f c.data.pendingPaths = true ↔
    Path.memSame f c.analysis.changeSet = true ∧ c.analysis.resolves f = false
  pending_spelled : ∀ p ∈ c.data.pendingPaths,
    p ∈ d.graph.files ∨ p ∈ store.data.pendingPaths ∧ Path.memSame p d.graph.files = true

theorem Repeats.get?_of_mem {s : Setting} {d c : Completed} {store : Store}
    (hc : Repeats s d store c) {f : Path} (hf : f ∈ d.graph.files) :
    c.data.get? f =
      if c.analysis.resolves f then
        (FileCheck.run s.digest d.tree (store.data.get? f) f).staged?.or (store.data.get? f)
      else store.data.get? f := by
  rw [hc.get?_eq f (hc.names f hf), Path.memSame_of_mem hf, Bool.or_true, if_pos rfl]

theorem Repeats.pendingPaths_subset {s : Setting} {d c : Completed} {store : Store}
    (hc : Repeats s d store c)
    (hspelled : ∀ p ∈ store.data.pendingPaths,
      Path.memSame p d.graph.files = true → p ∈ d.graph.files) :
    c.data.pendingPaths ⊆ d.graph.files :=
  fun p hp => (hc.pending_spelled p hp).elim id fun ⟨hp, hm⟩ => hspelled p hp hm

theorem repeats_of_agrees {s : Setting} {start store : Store} {c d : Completed}
    (hcache : s.config.enableCache = true) (hd : s.run d.visit start = .ok d.outcome)
    (hread : ∀ f ∈ d.graph.files, d.tree.Readable f) (hnames : ∀ f ∈ d.graph.files, f.IsText)
    (hc : s.run c.visit store = .ok c.outcome) (hv : s.FindsAgain d c.visit)
    (hagrees : c.analysis.AgreesWith d.analysis) : Repeats s d store c := by
  obtain ⟨plan, taken, rest, ran⟩ := exists_ran hcache hc
  have hgraph : c.graph = d.graph := hv.graph_eq hd hc
  have hnames' : ∀ f ∈ c.graph.files, f.IsText := hgraph ▸ hnames
  have hstat : ∀ f ∈ d.graph.files, c.tree.stat f = d.tree.stat f := hv.stat
  have hfiles : ∀ f, c.analysis.resolves f = true → f ∈ d.graph.files := fun f hf =>
    hgraph ▸ ran.mem_files_of_resolves hf
  refine ⟨hnames, hfiles, hagrees.resolves, hagrees.resolves_eq hd hc hv, fun f hf => ?_,
    fun f => ran.delivers_iff, fun q htext => ?_,
    fun f hf => ran.pending_iff hnames' (hgraph ▸ hf : f ∈ c.graph.files), fun p hp => ?_⟩
  · refine (ran.mem_changeSet_iff (hgraph ▸ hf : f ∈ c.graph.files)).trans ?_
    show (∃ p ∈ c.graph.files, RunPlan.StartsChange s.digest c.tree s.project c.graph.files
      store.data p ∧ (f = p ∨ c.graph.DependsOn f p)) ↔ Outdated s d store.data f
    rw [hgraph, Outdated]
    refine exists_congr fun p => and_congr_right fun hp => and_congr_left' ?_
    exact RunPlan.StartsChange.congr (hstat p hp)
  · have hget : c.data.get? q =
        if c.analysis.cancelled || Path.memSame q c.graph.files then
          if c.analysis.resolves q then
            (FileCheck.run s.digest c.tree (store.data.get? q) q).staged?.or (store.data.get? q)
          else store.data.get? q
        else none := ran.get?_eq (htext.ownKey hnames') (hv.readable hd hc hread)
    rw [hget, hgraph]
    by_cases hq : c.analysis.resolves q = true
    · rw [FileCheck.run_congr (hstat q (hfiles q hq))]
    · rw [if_neg hq, if_neg hq]
  · obtain ⟨q, hq, -, rfl⟩ := ran.mem_pending_iff.mp hp
    have htext : q.IsText := (ran.mem_files_or_isText hq).elim (hnames' q) id
    have hplan : plan.graph = d.graph := ran.graph_eq.symm.trans hgraph
    rw [htext.ofText_shown, ← hplan]
    exact ran.made.mem_changeSet hcache (ran.changeSet_eq ▸ hq)

/-! ## Between the runs -/

/-- What holds after runs over the files of the run `d`, however far each of them went. -/
structure Partway (s : Setting) (start : Store) (d : Completed) (h : List Completed) : Prop where
  /-- A source file has its old record or the one that the run `d` leaves. -/
  record : ∀ f ∈ d.graph.files, (storeAfter start h).data.get? f = start.data.get? f ∨
    (storeAfter start h).data.get? f = d.data.get? f
  /-- Of other records some may be forgotten. -/
  other : ∀ q, q.IsText → q ∉ d.graph.files → (storeAfter start h).data.get? q = start.data.get? q ∨
    Path.memSame q d.graph.files = false ∧ (storeAfter start h).data.get? q = none
  pending : ∀ f ∈ d.graph.files,
    Path.memSame f (storeAfter start h).data.pendingPaths = true →
      Path.memSame f d.analysis.changeSet = true
  spelled : ∀ p ∈ (storeAfter start h).data.pendingPaths,
    p ∈ d.graph.files ∨ p ∈ start.data.pendingPaths
  delivered : ∀ c ∈ h, ∀ f, c.analysis.delivers f = true → d.analysis.delivers f = true
  /-- What was not delivered yet still counts as changed. -/
  remaining : ∀ f ∈ d.graph.files, Path.memSame f d.analysis.changeSet = true →
    (∃ c ∈ h, c.analysis.delivers f = true) ∨ Outdated s d (storeAfter start h).data f

namespace Partway

variable {s : Setting} {start : Store} {c d : Completed} {h : List Completed}

theorem nil (hd : Repeats s d start d) : Partway s start d [] where
  record _ _ := .inl rfl
  other _ _ _ := .inl rfl
  pending f hf hp := (hd.changeSet_iff f hf).mpr ⟨f, hf, .pending hp, .inl rfl⟩
  spelled _ hp := .inr hp
  delivered _ hc := absurd hc List.not_mem_nil
  remaining f hf hin := .inr ((hd.changeSet_iff f hf).mp hin)

section

variable (hpart : Partway s start d h) (hd : Repeats s d start d)
include hpart hd

/-- All that the run `d` delivers is delivered once a run is not stopped. -/
theorem exists_delivers_last (hc : Repeats s d (storeAfter start h) c)
    (hlast : c.analysis.cancelled = false) {f : Path} (hdel : d.analysis.delivers f = true) :
    ∃ c' ∈ c :: h, c'.analysis.delivers f = true := by
  obtain ⟨hres, hin⟩ := (hd.delivers_iff f).mp hdel
  have hf := hd.mem_of_resolves f hres
  rcases hpart.remaining f hf hin with ⟨c', hc', hdel'⟩ | hout
  · exact ⟨c', List.mem_cons_of_mem _ hc', hdel'⟩
  · refine ⟨c, List.mem_cons_self, (hc.delivers_iff f).mpr ⟨?_, (hc.changeSet_iff f hf).mpr hout⟩⟩
    rw [hc.resolves_eq hlast f, hres]

variable (hread : ∀ f ∈ d.graph.files, d.tree.Readable f)
include hread

/-- The record that a file with a result gets is the one that the run `d` leaves. -/
theorem staged?_or_eq {f : Path} (hf : f ∈ d.graph.files) (hres : d.analysis.resolves f = true) :
    (FileCheck.run s.digest d.tree ((storeAfter start h).data.get? f) f).staged?.or
      ((storeAfter start h).data.get? f) = d.data.get? f := by
  have hdirect := hd.get?_of_mem hf
  rw [if_pos hres] at hdirect
  rcases hpart.record f hf with hold | hnew
  · rw [hold, hdirect]
  · rw [hnew, hdirect, FileCheck.run_staged?_or (hread f hf)]
    exact Option.none_or

variable (hsource : s.project.sourceDir.IsText)
include hsource

/-- A change starts only with files that count as changed in the run `d`. -/
theorem changeSet_of_startsChange {p : Path} (hp : p ∈ d.graph.files)
    (hstart : RunPlan.StartsChange s.digest d.tree s.project d.graph.files
      (storeAfter start h).data p) : Path.memSame p d.analysis.changeSet = true := by
  have hfirst : RunPlan.StartsChange s.digest d.tree s.project d.graph.files start.data p →
      Path.memSame p d.analysis.changeSet = true := fun hstart =>
    (hd.changeSet_iff p hp).mpr ⟨p, hp, hstart, .inl rfl⟩
  obtain hc | ⟨hr, hm, hs⟩ | hpend := hstart
  · rcases hpart.record p hp with hold | hnew
    · exact hfirst (.changed (hold ▸ hc))
    · rw [hnew, hd.get?_of_mem hp] at hc
      split at hc
      · rw [FileCheck.run_staged?_or (hread p hp)] at hc
        cases hc
      · exact hfirst (.changed hc)
  · have hout : _ ∉ d.graph.files := fun hmem =>
      Bool.eq_false_iff.mp hm (Path.memSame_of_mem hmem)
    rcases hpart.other _ (hr.isText (hd.names p hp) hsource) hout with hold | ⟨-, hnone⟩
    · exact hfirst (.refers hr hm (hold ▸ hs))
    · rw [hnone] at hs
      cases hs
  · exact hpart.pending p hp hpend

theorem changeSet_of_outdated {f : Path} (hf : f ∈ d.graph.files)
    (hout : Outdated s d (storeAfter start h).data f) :
    Path.memSame f d.analysis.changeSet = true := by
  obtain ⟨p, hp, hstart, hfp⟩ := hout
  have hin := hpart.changeSet_of_startsChange hd hread hsource hp hstart
  exact (hd.changeSet_iff f hf).mpr (((hd.changeSet_iff p hp).mp hin).of_dependsOn hfp)

/-- One more run keeps this. -/
theorem cons (hc : Repeats s d (storeAfter start h) c) : Partway s start d (c :: h) where
  record f hf := by
    rw [show (storeAfter start (c :: h)).data.get? f = _ from hc.get?_of_mem hf]
    split
    · next hres => exact .inr (hpart.staged?_or_eq hd hread hf (hc.resolves f hres))
    · exact hpart.record f hf
  other q htext hq := by
    have hres : ¬ c.analysis.resolves q = true := fun hres => hq (hc.mem_of_resolves q hres)
    rw [show (storeAfter start (c :: h)).data.get? q = _ from hc.get?_eq q htext, if_neg hres]
    split
    · exact hpart.other q htext hq
    · next hforgotten =>
      rw [Bool.or_eq_true, not_or] at hforgotten
      exact .inr ⟨Bool.eq_false_iff.mpr hforgotten.2, rfl⟩
  pending f hf hp := by
    have hin := ((hc.pending_iff f hf).mp hp).1
    exact hpart.changeSet_of_outdated hd hread hsource hf ((hc.changeSet_iff f hf).mp hin)
  spelled p hp := (hc.pending_spelled p hp).elim .inl fun hp => hpart.spelled p hp.1
  delivered c' hc' f hdel := by
    rcases List.mem_cons.mp hc' with rfl | hc'
    · obtain ⟨hres, hin⟩ := (hc.delivers_iff f).mp hdel
      have hf := hc.mem_of_resolves f hres
      refine (hd.delivers_iff f).mpr ⟨hc.resolves f hres, ?_⟩
      exact hpart.changeSet_of_outdated hd hread hsource hf ((hc.changeSet_iff f hf).mp hin)
    · exact hpart.delivered c' hc' f hdel
  remaining f hf hin := by
    rcases hpart.remaining f hf hin with ⟨c', hc', hdel⟩ | hout
    · exact .inl ⟨c', List.mem_cons_of_mem _ hc', hdel⟩
    · have hin' := (hc.changeSet_iff f hf).mpr hout
      by_cases hres : c.analysis.resolves f = true
      · exact .inl ⟨c, List.mem_cons_self, (hc.delivers_iff f).mpr ⟨hres, hin'⟩⟩
      · -- A file without a result is left unresolved, so a change starts with it.
        have hpend := (hc.pending_iff f hf).mpr ⟨hin', Bool.eq_false_iff.mpr hres⟩
        exact .inr ⟨f, hf, .pending hpend, .inl rfl⟩

/-! ## The last run -/

variable (hc : Repeats s d (storeAfter start h) c) (hlast : c.analysis.cancelled = false)
include hc hlast

omit hsource in
/-- A run that is not stopped leaves the records of the run `d`. -/
theorem get?_last (hdone : d.analysis.cancelled = false) {q : Path} (htext : q.IsText) :
    c.data.get? q = d.data.get? q := by
  by_cases hq : q ∈ d.graph.files
  · rw [hc.get?_of_mem hq, hc.resolves_eq hlast q]
    split
    · next hres => exact hpart.staged?_or_eq hd hread hq hres
    · next hres =>
      have hdirect := hd.get?_of_mem hq
      rw [if_neg hres] at hdirect
      exact (hpart.record q hq).elim (fun hold => hold.trans hdirect.symm) id
  · have hres : d.analysis.resolves q = false :=
      Bool.eq_false_iff.mpr fun hres => hq (hd.mem_of_resolves q hres)
    rw [hc.get?_eq q htext, hd.get?_eq q htext, hc.resolves_eq hlast q, hres, hlast, hdone]
    simp only [Bool.false_or, Bool.false_eq_true, if_false]
    split
    · next hsame =>
      refine (hpart.other q htext hq).resolve_right fun hforgotten => ?_
      rw [hsame] at hforgotten
      cases hforgotten.1
    · rfl

/-- A run that is not stopped leaves the files unresolved that the run `d` does. -/
theorem pending_last (p : Path) :
    Path.memSame p c.data.pendingPaths = Path.memSame p d.data.pendingPaths := by
  have hfile : ∀ f ∈ d.graph.files,
      Path.memSame f c.data.pendingPaths = true ↔ Path.memSame f d.data.pendingPaths = true := by
    intro f hf
    rw [hc.pending_iff f hf, hd.pending_iff f hf, hc.resolves_eq hlast f, hc.changeSet_iff f hf]
    refine and_congr_left fun hres =>
      ⟨hpart.changeSet_of_outdated hd hread hsource hf, fun hin => ?_⟩
    refine (hpart.remaining f hf hin).resolve_left fun ⟨c', hc', hdel⟩ => ?_
    have hres' := ((hd.delivers_iff f).mp (hpart.delivered c' hc' f hdel)).1
    rw [hres] at hres'
    cases hres'
  -- Nothing else is left unresolved than spellings of source files.
  have hspelling : ∀ {store : Store} {c : Completed}, Repeats s d store c →
      Path.memSame p c.data.pendingPaths = true → Path.memSame p d.graph.files = true := by
    intro store c hc hp
    obtain ⟨q, hq, hqp⟩ := Path.memSame_iff.mp hp
    exact Path.memSame_congr _ hqp ▸
      (hc.pending_spelled q hq).elim Path.memSame_of_mem (·.2)
  by_cases hsame : Path.memSame p d.graph.files = true
  · obtain ⟨f, hf, hfp⟩ := Path.memSame_iff.mp hsame
    rw [← Path.memSame_congr _ hfp, ← Path.memSame_congr _ hfp, Bool.eq_iff_iff]
    exact hfile f hf
  · rw [Bool.eq_false_iff.mpr fun hp => hsame (hspelling hc hp),
      Bool.eq_false_iff.mpr fun hp => hsame (hspelling hd hp)]

theorem pending_eq_last (hspelled : ∀ p ∈ start.data.pendingPaths,
    Path.memSame p d.graph.files = true → p ∈ d.graph.files) : c.data.pending = d.data.pending := by
  have hsub : d.data.pendingPaths ⊆ d.graph.files := hd.pendingPaths_subset hspelled
  have hsub' : c.data.pendingPaths ⊆ d.graph.files := by
    refine hc.pendingPaths_subset fun p hp hm => ?_
    exact (hpart.spelled p hp).elim id fun hp => hspelled p hp hm
  have hsame := hpart.pending_last hd hread hsource hc hlast
  refine StoreData.pending_ext fun p => ⟨fun hp => ?_, fun hp => ?_⟩
  · refine (Path.mem_iff_memSame d.graph.files_distinct (hsub' hp) hsub).mp ?_
    rw [← hsame p, Path.memSame_of_mem hp]
  · refine (Path.mem_iff_memSame d.graph.files_distinct (hsub hp) hsub').mp ?_
    rw [hsame p, Path.memSame_of_mem hp]

end

end Partway

theorem partway_of_history {s : Setting} {start : Store} {d : Completed} {h : List Completed}
    (hcache : s.config.enableCache = true) (hd : s.run d.visit start = .ok d.outcome)
    (hread : ∀ f ∈ d.graph.files, d.tree.Readable f) (hnames : TextNames s [d])
    (hself : Repeats s d start d) (hist : s.History start h)
    (hv : ∀ c ∈ h, s.Revisits d c.visit) : Partway s start d h := by
  induction hist with
  | nil => exact .nil hself
  | cons hrun _ ih =>
    have hpart := ih fun c hc => hv c (List.mem_cons_of_mem _ hc)
    obtain ⟨hagain, hagrees⟩ := hv _ List.mem_cons_self
    refine hpart.cons hself hread hnames.sourceDir ?_
    exact repeats_of_agrees hcache hd hread hself.names hrun hagain (hagrees _ _ hrun)

/-! ## All runs together -/

/-- The runs leave what the run `d` alone leaves, and deliver together what it delivers. -/
structure AddsUpTo (start : Store) (d : Completed) (h : List Completed) : Prop where
  files_eq : (storeAfter start h).data.files = d.data.files
  pending_same : ∀ p, Path.memSame p (storeAfter start h).data.pendingPaths =
    Path.memSame p d.data.pendingPaths
  /-- Even the spelling is the same if the first store spells source files as the graph does. -/
  pending_eq : (∀ p ∈ start.data.pendingPaths,
      Path.memSame p d.graph.files = true → p ∈ d.graph.files) →
    (storeAfter start h).data.pending = d.data.pending
  delivers_iff : ∀ f, (∃ c ∈ h, c.analysis.delivers f = true) ↔ d.analysis.delivers f = true

section

variable {s : Setting} {start : Store} {c d : Completed} {h : List Completed}
  (hd : s.run d.visit start = .ok d.outcome) (hdone : d.analysis.cancelled = false)
  (hist : s.History start (c :: h)) (hv : ∀ c' ∈ c :: h, s.Revisits d c'.visit)
  (hlast : c.analysis.cancelled = false)
include hd hdone hist hv hlast

theorem addsUpTo_of_cache (hcache : s.config.enableCache = true)
    (hread : ∀ f ∈ d.graph.files, d.tree.Readable f) (hnames : TextNames s [d]) :
    AddsUpTo start d (c :: h) := by
  have htext := hnames.files d List.mem_cons_self
  have hself := repeats_of_agrees hcache hd hread htext hd (.self hd) (.refl _)
  have hall := partway_of_history hcache hd hread hnames hself hist hv
  have hpart := partway_of_history hcache hd hread hnames hself hist.tail fun c' hc' =>
    hv c' (List.mem_cons_of_mem _ hc')
  obtain ⟨hagain, hagrees⟩ := hv c List.mem_cons_self
  have hc := repeats_of_agrees hcache hd hread htext hist.run_eq hagain (hagrees _ _ hist.run_eq)
  exact
    { files_eq := StoreData.files_ext fun q => hpart.get?_last hself hread hc hlast hdone
      pending_same := hpart.pending_last hself hread hnames.sourceDir hc hlast
      pending_eq := hpart.pending_eq_last hself hread hnames.sourceDir hc hlast
      delivers_iff := fun f =>
        ⟨fun ⟨c', hc', hdel⟩ => hall.delivered c' hc' f hdel,
          hpart.exists_delivers_last hself hc hlast⟩ }

end

section

variable {s : Setting} {start : Store} {c d : Completed} {h : List Completed}
  (hcache : s.config.enableCache = false)
include hcache

theorem storeAfter_of_not_cache (hist : s.History start h) : storeAfter start h = start := by
  induction hist with
  | nil => rfl
  | cons hrun _ ih => exact (store_of_not_cache hcache hrun).trans ih

/-- Without caching all files with a result are delivered as changed. -/
theorem delivers_iff_of_not_cache {store : Store} (hrun : s.run c.visit store = .ok c.outcome)
    {f : Path} : c.analysis.delivers f = true ↔ c.analysis.resolves f = true := by
  obtain ⟨plan, taken, rest, ha⟩ := s.exists_attempted hrun
  refine ha.delivers_iff.trans (and_iff_left_of_imp fun hres => ?_)
  rw [ha.changeSet_eq]
  exact ha.made.contains_changes_of_not_cache hcache (ha.graph_eq ▸ ha.mem_files_of_resolves hres)

theorem addsUpTo_of_not_cache (hd : s.run d.visit start = .ok d.outcome)
    (hist : s.History start (c :: h)) (hv : ∀ c' ∈ c :: h, s.Revisits d c'.visit)
    (hlast : c.analysis.cancelled = false) : AddsUpTo start d (c :: h) := by
  have hdata : (storeAfter start (c :: h)).data = d.data := by
    rw [storeAfter_of_not_cache hcache hist, Completed.data, store_of_not_cache hcache hd]
  refine ⟨by rw [hdata], fun p => by rw [hdata], fun _ => by rw [hdata], fun f => ?_⟩
  rw [delivers_iff_of_not_cache hcache hd]
  constructor
  · rintro ⟨c', hc', hdel⟩
    obtain ⟨store, hrun⟩ := hist.exists_store hc'
    exact ((hv c' hc').agrees _ _ hrun).resolves f
      ((delivers_iff_of_not_cache hcache hrun).mp hdel)
  · intro hres
    obtain ⟨hagain, hagrees⟩ := hv c List.mem_cons_self
    refine ⟨c, List.mem_cons_self, (delivers_iff_of_not_cache hcache hist.run_eq).mpr ?_⟩
    exact ((hagrees _ _ hist.run_eq).resolves_eq hd hist.run_eq hagain hlast f).trans hres

end

namespace Sample

/-- Three files of which `b` refers to `a`, and `c` does not resolve. -/
def threeFiles (workers : Workers) (stops : List Path → Bool) : Visit where
  tree := tree [file "a.dart" "class A \x7b\x7d" 2, file "b.dart" "import 'a.dart';" 1,
    file "c.dart" "" 1]
  workers
  resolve := failingOn (path "c.dart")
  stops
  now

/-- Whether a file resolves depends on its own text alone. -/
theorem exists_failingOn_iff {q : Path} {t : FileTree} {p : Path} {symbols symbols' : SymbolTable} :
    (∃ analysis, failingOn q t p symbols = .ok analysis) ↔
      ∃ analysis, failingOn q t p symbols' = .ok analysis := by
  simp only [failingOn, resolveFile]
  split
  · simp
  · cases readSource t p with
    | error e => simp
    | ok text =>
      dsimp only
      cases Source.scan p text.toList <;> simp

/-- The store knows an older `a` and a file that is gone, and `c` was left unresolved. -/
def olderStore : Store :=
  ([(path "a.dart", ⟨"", 1⟩), (path "b.dart", ⟨"import 'a.dart';", 1⟩), (path "c.dart", ⟨"", 1⟩),
    (path "d.dart", ⟨"", 1⟩)].foldl (fun store e => store.put e.1 e.2) Store.memory).setPending
      [path "c.dart"]

theorem threeFiles_spec :
    (setting.run (threeFiles .one fun _ => false) olderStore).toOption.any (fun o => decide (
      o.analysis.cancelled = false ∧
      (∀ f ∈ o.analysis.graph.files, f.IsText ∧
        ((threeFiles .one fun _ => false).tree.content? f).isSome = true) ∧
      o.analysis.changedResults.map (·.path.text) = ["/p/lib/a.dart", "/p/lib/b.dart"] ∧
      o.store.data.pendingPaths = [path "c.dart"])) = true := by
  decide +kernel

theorem exists_threeFiles_run : ∃ d : Completed,
    d.visit = threeFiles .one (fun _ => false) ∧ setting.run d.visit olderStore = .ok d.outcome ∧
      d.analysis.cancelled = false ∧ (∀ f ∈ d.graph.files, d.tree.Readable f) ∧
      TextNames setting [d] ∧
      d.analysis.changedResults.map (·.path.text) = ["/p/lib/a.dart", "/p/lib/b.dart"] ∧
      d.data.pendingPaths = [path "c.dart"] := by
  obtain ⟨o, hrun, hdone, hfiles, hchanged, hpending⟩ := exists_ok_of_any threeFiles_spec
  refine ⟨⟨_, o⟩, rfl, hrun, hdone, fun f hf => ?_, ⟨by decide +kernel, ?_⟩, hchanged, hpending⟩
  · exact FileTree.readable_iff.mpr (Option.isSome_iff_exists.mp (hfiles f hf).2)
  · exact List.forall_mem_singleton.mpr fun f hf => (hfiles f hf).1

theorem revisits_threeFiles {d : Completed} (hvisit : d.visit = threeFiles .one fun _ => false)
    (hd : setting.run d.visit olderStore = .ok d.outcome) (hdone : d.analysis.cancelled = false) :
    (∀ stops, setting.Revisits d (threeFiles .one stops)) ∧
      ∀ stops, setting.Revisits d (threeFiles fromEnd stops) := by
  have hself : setting.FindsAgain d d.visit := .self hd
  rw [hvisit] at hself
  have hagain : ∀ workers stops, setting.FindsAgain d (threeFiles workers stops) :=
    fun _ _ => ⟨hself.files, hself.stat⟩
  constructor
  · intro stops
    refine ⟨hagain .one stops, fun store o hrun => ?_⟩
    refine .of_resolve_eq (c := ⟨_, o⟩) hd hrun (hagain .one stops) hdone
      (congrArg Visit.workers hvisit).symm fun f hf symbols => ?_
    rw [Completed.tree, Completed.tree, hvisit]
    rfl
  · intro stops
    refine ⟨hagain fromEnd stops, fun store o hrun => ?_⟩
    refine .of_exists_resolve_iff (c := ⟨_, o⟩) hd hrun (hagain fromEnd stops) hdone
      fun f hf symbols symbols' => ?_
    rw [Completed.tree, Completed.tree, hvisit]
    exact exists_failingOn_iff

/-- The first run is stopped at once, the second one after a file. -/
def interrupted : List Visit :=
  [threeFiles fromEnd fun attempted => !attempted.isEmpty, threeFiles .one fun _ => true]

end Sample

/-- A name that is no text can be lost between the runs: what is remembered as left unresolved is
the text that is shown for it, which names no file. -/
example :
    let stray := Sample.path "\xff.dart"
    let visit (stops : List Path → Bool) : Visit :=
      { tree := Sample.tree
          [Sample.file "a.dart" "" 1, Sample.file "\xff.dart" "import 'a.dart';" 1]
        stops
        now := Sample.now }
    let start := Store.memory.put stray ⟨"import 'a.dart';", 1⟩
    let delivered (visits : List Visit) : Bool :=
      (Sample.setting.after start visits).any fun c => c.analysis.delivers stray
    delivered [visit fun _ => false] = true ∧
      delivered [visit fun attempted => !attempted.isEmpty, visit fun _ => false] = false := by
  decide +kernel

end Recheck
