import Recheck.Proofs.Run.Outcome

/-!
# Histories of runs

Runs over one project that follow each other, each with the store that the one before it left
(`Setting.History`, the latest run first). Between two runs the files may change, and each run has
its own workers and its own way to resolve files and to be stopped. While a run goes on, the tree
stays as it is, and it has no links. What is said about the record of a file supposes that it has a
key of its own in the runs (`OwnKeyIn`).

* `History.mem_changeSet_or_passes`: a source file is in the change set with all that depends on it,
  unless the store has a record that passes for it;
* `History.get?_of_absent`: over runs that do not find a file its record is kept as long as all of
  them are stopped, and forgotten otherwise;
* `History.exists_origin`: every record in the store is what the tree of some run gave the file;
* `History.isChanged_iff`: if different contents of a file have different times, the check of a file
  that the last run left settled finds a change exactly if the digest has changed since that run;
* `FindsAgain.exists_run`, `FindsAgain.graph_eq`: over the same files a run comes to something
  whatever is in the store, and finds the same graph.
-/

namespace Recheck

/-- What stays the same from run to run. -/
structure Setting where
  digest : Digest
  config : Config
  excludes : List Glob
  project : Project

/-- What one run finds: the files, how they resolve, who takes them up, when it is to stop, and the
time. -/
structure Visit where
  tree : FileTree
  workers : Workers := .one
  resolve : FileTree → Path → SymbolTable → Except FileError FileAnalysis := resolveFile
  stops : List Path → Bool := fun _ => false
  now : Timestamp

/-- The surroundings of a run. -/
def Setting.context (s : Setting) (v : Visit) : RunContext where
  digest := s.digest
  resolve := v.resolve
  stops := v.stops
  now := v.now

/-- One run. -/
def Setting.run (s : Setting) (v : Visit) (store : Store) : Except AnalysisError RunOutcome :=
  analyzeProjectBy v.workers (s.context v) s.config s.excludes v.tree s.project store

/-- A run that came to something. -/
structure Completed where
  visit : Visit
  outcome : RunOutcome

namespace Completed

def tree (c : Completed) : FileTree := c.visit.tree

def analysis (c : Completed) : Analysis := c.outcome.analysis

def graph (c : Completed) : Graph := c.outcome.analysis.graph

/-- What the run remembers. -/
def data (c : Completed) : StoreData := c.outcome.store.data

end Completed

/-- The store after runs, the latest first. -/
def storeAfter (start : Store) : List Completed → Store
  | [] => start
  | c :: _ => c.outcome.store

/-- Runs, the latest first, each of which took over the store of the one before. A run that comes to
nothing leaves the store as it is, so it does not count. -/
inductive Setting.History (s : Setting) (start : Store) : List Completed → Prop where
  | nil : s.History start []
  | cons {c : Completed} {h : List Completed}
      (hrun : s.run c.visit (storeAfter start h) = .ok c.outcome) (hist : s.History start h) :
      s.History start (c :: h)

namespace Setting

/-- The runs with one more. -/
def extend (s : Setting) (start : Store) (h : List Completed) (v : Visit) : List Completed :=
  match s.run v (storeAfter start h) with
  | .ok outcome => ⟨v, outcome⟩ :: h
  | .error _ => h

/-- The runs that visits come to, one after the other. -/
def after (s : Setting) (start : Store) (visits : List Visit) : List Completed :=
  visits.foldl (s.extend start) []

theorem history_after (s : Setting) (start : Store) (visits : List Visit) :
    s.History start (s.after start visits) := by
  have hfold : ∀ (visits : List Visit) (h : List Completed), s.History start h →
      s.History start (visits.foldl (s.extend start) h) := by
    intro visits
    induction visits with
    | nil => exact fun h hist => hist
    | cons v visits ih =>
      intro h hist
      refine ih _ ?_
      rw [extend]
      split
      · next hrun => exact .cons hrun hist
      · exact hist
  exact hfold visits [] .nil

end Setting

/-! ## Contents and times -/

/-- The time of the last change as it is remembered, zero for a file that cannot be read. -/
def FileTree.rememberedTime (t : FileTree) (p : Path) : Int :=
  match t.stat p, t.read p with
  | .ok entry, .ok _ => entry.modifiedMillis
  | _, _ => 0

theorem FileTree.readable_iff {t : FileTree} {p : Path} :
    t.Readable p ↔ ∃ content, t.content? p = some content := by
  simp only [FileTree.Readable, FileTree.content?]
  cases t.read p <;> simp [Except.toOption]

theorem FileTree.rememberedTime_eq_zero {t : FileTree} {p : Path} (h : t.content? p = none) :
    t.rememberedTime p = 0 := by
  rw [FileTree.rememberedTime]
  rw [FileTree.content?] at h
  cases hread : t.read p with
  | error e => cases t.stat p <;> rfl
  | ok content => simp [hread, Except.toOption] at h

theorem modified_recordOf (digest : Digest) (t : FileTree) (p : Path) :
    (recordOf digest t p).modified = t.rememberedTime p := by
  rw [recordOf, FileTree.rememberedTime]
  cases t.stat p <;> cases t.read p <;> rfl

theorem hash_recordOf (digest : Digest) (t : FileTree) (p : Path) :
    (recordOf digest t p).hash =
      match t.content? p with
      | some content => digest.ofContent content
      | none => digest.ofUnreadable p := by
  rw [recordOf, FileTree.content?, FileTree.read]
  cases t.stat p with
  | error e => rfl
  | ok entry =>
    cases entry with
    | dir modified => rfl
    | file content modified readable => cases readable <;> rfl

theorem hash_recordOf_congr {digest : Digest} {t t' : FileTree} {p : Path}
    (h : t.content? p = t'.content? p) :
    (recordOf digest t p).hash = (recordOf digest t' p).hash := by
  rw [hash_recordOf, hash_recordOf, h]

/-- Over the given runs, the path is remembered under a key that names it and no other source
file. -/
def OwnKeyIn (h : List Completed) (p : Path) : Prop := ∀ c ∈ h, p.OwnKey c.graph.files

/-- The names of the source directory and of the source files of the given runs are texts. -/
structure TextNames (s : Setting) (h : List Completed) : Prop where
  sourceDir : s.project.sourceDir.IsText
  files : ∀ c ∈ h, ∀ f ∈ c.graph.files, f.IsText

theorem OwnKeyIn.tail {c : Completed} {h : List Completed} {p : Path} (hkey : OwnKeyIn (c :: h) p) :
    OwnKeyIn h p :=
  fun c' hc' => hkey c' (List.mem_cons_of_mem _ hc')

theorem TextNames.ownKeyIn {s : Setting} {h : List Completed} (hnames : TextNames s h) {p : Path}
    (hp : p.IsText) : OwnKeyIn h p :=
  fun c hc => hp.ownKey (hnames.files c hc)

theorem TextNames.mono {s : Setting} {h h' : List Completed} (hnames : TextNames s h)
    (hsub : h' ⊆ h) : TextNames s h' :=
  ⟨hnames.sourceDir, fun c hc => hnames.files c (hsub hc)⟩

/-- Over the given runs, the time with which a source file is remembered tells its content. -/
structure TimesTell (h : List Completed) : Prop where
  /-- Different contents of a file have different times. -/
  contents : ∀ c ∈ h, ∀ c' ∈ h, ∀ f ∈ c.graph.files, f ∈ c'.graph.files →
    ∀ x ∈ c.tree.content? f, ∀ x' ∈ c'.tree.content? f,
      c.tree.rememberedTime f = c'.tree.rememberedTime f → x = x'
  /-- A file that cannot be read is remembered with the time zero; when it can be read it has
  another. -/
  unreadable : ∀ c ∈ h, ∀ c' ∈ h, ∀ f ∈ c.graph.files, f ∈ c'.graph.files →
    c.tree.content? f = none → (c'.tree.content? f).isSome = true → c'.tree.rememberedTime f ≠ 0

namespace TimesTell

theorem of_readable {h : List Completed}
    (hread : ∀ c ∈ h, ∀ f ∈ c.graph.files, c.tree.Readable f)
    (hcontents : ∀ c ∈ h, ∀ c' ∈ h, ∀ f ∈ c.graph.files, f ∈ c'.graph.files →
      ∀ x ∈ c.tree.content? f, ∀ x' ∈ c'.tree.content? f,
        c.tree.rememberedTime f = c'.tree.rememberedTime f → x = x') : TimesTell h := by
  refine ⟨hcontents, fun c hc _ _ f hf _ hnone => ?_⟩
  obtain ⟨content, hsome⟩ := FileTree.readable_iff.mp (hread c hc f hf)
  cases hnone.symm.trans hsome

variable {h h' : List Completed} (htimes : TimesTell h)
include htimes

theorem mono (hsub : h' ⊆ h) : TimesTell h' :=
  ⟨fun c hc c' hc' => htimes.contents c (hsub hc) c' (hsub hc'),
    fun c hc c' hc' => htimes.unreadable c (hsub hc) c' (hsub hc')⟩

theorem content?_eq {c c' : Completed} (hc : c ∈ h) (hc' : c' ∈ h) {f : Path}
    (hf : f ∈ c.graph.files) (hf' : f ∈ c'.graph.files)
    (htime : c.tree.rememberedTime f = c'.tree.rememberedTime f) :
    c.tree.content? f = c'.tree.content? f := by
  cases hx : c.tree.content? f with
  | none =>
    cases hx' : c'.tree.content? f with
    | none => rfl
    | some x' =>
      rw [FileTree.rememberedTime_eq_zero hx] at htime
      exact absurd htime.symm (htimes.unreadable c hc c' hc' f hf hf' hx (by rw [hx']; rfl))
  | some x =>
    cases hx' : c'.tree.content? f with
    | none =>
      rw [FileTree.rememberedTime_eq_zero hx'] at htime
      exact absurd htime (htimes.unreadable c' hc' c hc f hf' hf hx' (by rw [hx]; rfl))
    | some x' => rw [htimes.contents c hc c' hc' f hf hf' x hx x' hx' htime]

end TimesTell

/-- Over the given runs, the digest tells the normal forms of different contents of a source file
apart. -/
def DigestTells (digest : Digest) (h : List Completed) : Prop :=
  ∀ c ∈ h, ∀ c' ∈ h, ∀ f ∈ c.graph.files, f ∈ c'.graph.files →
    ∀ x ∈ c.tree.content? f, ∀ x' ∈ c'.tree.content? f,
      digest.ofContent x = digest.ofContent x' → Content.normalize x = Content.normalize x'

namespace Setting.History

variable {s : Setting} {start : Store} {c n : Completed} {h : List Completed}

theorem tail (hist : s.History start (c :: h)) : s.History start h := by
  cases hist with
  | cons _ hist => exact hist

theorem run_eq (hist : s.History start (c :: h)) :
    s.run c.visit (storeAfter start h) = .ok c.outcome := by
  cases hist with
  | cons hrun _ => exact hrun

theorem exists_store (hist : s.History start h) (hc : c ∈ h) :
    ∃ store, s.run c.visit store = .ok c.outcome := by
  induction hist with
  | nil => cases hc
  | cons hrun _ ih =>
    rcases List.mem_cons.mp hc with rfl | hc
    · exact ⟨_, hrun⟩
    · exact ih hc

theorem exists_ran (hist : s.History start (c :: h)) (hcache : s.config.enableCache = true) :
    ∃ plan taken rest, Ran c.visit.workers (s.context c.visit) s.config s.excludes c.tree s.project
      (storeAfter start h) c.outcome plan taken rest :=
  Recheck.exists_ran hcache hist.run_eq

/-! ## The next change set -/

/-- A file with which a change starts is in the change set, and so is all that depends on it. -/
theorem mem_changeSet_of_startsChange (hist : s.History start (n :: h))
    (hcache : s.config.enableCache = true) {f g : Path} (hf : f ∈ n.graph.files)
    (hstart : RunPlan.StartsChange s.digest n.tree s.project n.graph.files
      (storeAfter start h).data f) (hg : g = f ∨ n.graph.DependsOn g f) :
    Path.memSame g n.analysis.changeSet = true := by
  obtain ⟨plan, taken, rest, ran⟩ := hist.exists_ran hcache
  have hmem : g ∈ n.graph.files := by
    rcases hg with rfl | hgf
    · exact hf
    · exact hgf.left_mem
  exact (ran.mem_changeSet_iff hmem).mpr ⟨f, hf, hstart, hg⟩

/-- A source file and all that depends on it is in the change set, unless there is a record that
passes for the file. -/
theorem mem_changeSet_or_passes (hist : s.History start (n :: h))
    (hcache : s.config.enableCache = true) {f : Path} (hf : f ∈ n.graph.files) :
    (∀ g, g = f ∨ n.graph.DependsOn g f → Path.memSame g n.analysis.changeSet = true) ∨
      ∃ r, (storeAfter start h).data.get? f = some r ∧ r.Passes s.digest n.tree f := by
  cases hc : (FileCheck.run s.digest n.tree ((storeAfter start h).data.get? f) f).isChanged with
  | true => exact .inl fun g => hist.mem_changeSet_of_startsChange hcache hf (.changed hc)
  | false => exact .inr (FileCheck.isChanged_eq_false_iff.mp hc)

/-- A file that the last run left unresolved is in the change set with all that depends on it. -/
theorem mem_changeSet_of_pending (hist : s.History start (n :: h))
    (hcache : s.config.enableCache = true) {f : Path} (hf : f ∈ n.graph.files)
    (hpending : Path.memSame f (storeAfter start h).data.pendingPaths = true) (g : Path)
    (hg : g = f ∨ n.graph.DependsOn g f) : Path.memSame g n.analysis.changeSet = true :=
  hist.mem_changeSet_of_startsChange hcache hf (.pending hpending) hg

/-! ## Records -/

/-- A run that does not find a file keeps its record if it is stopped, and forgets it otherwise. -/
theorem get?_of_not_contains (hist : s.History start (c :: h))
    (hcache : s.config.enableCache = true) {p : Path} (hkey : p.OwnKey c.graph.files)
    (hp : c.graph.contains p = false) :
    c.data.get? p = if c.analysis.cancelled then (storeAfter start h).data.get? p else none := by
  obtain ⟨plan, taken, rest, ran⟩ := hist.exists_ran hcache
  have hfile : Path.memSame p c.outcome.analysis.graph.files = false := by
    rw [← Graph.contains_eq_memSame]
    exact hp
  obtain ⟨hres, hfails⟩ := ran.not_attempted_of_not_mem fun hmem =>
    Bool.eq_false_iff.mp hfile (Path.memSame_of_mem hmem)
  have hget := ran.get?_eq_stored hkey
  simp only [Analysis.stored?, hres, hfails, hfile, Bool.false_and, Bool.or_false,
    Bool.false_eq_true, if_false, Option.none_or] at hget
  exact hget

/-- Over runs that do not find a file, its record is kept as long as all of them are stopped. -/
theorem get?_of_absent {absent : List Completed} (hist : s.History start (absent ++ h))
    (hcache : s.config.enableCache = true) {p : Path} (hkey : OwnKeyIn absent p)
    (habsent : ∀ c ∈ absent, c.graph.contains p = false) :
    (storeAfter start (absent ++ h)).data.get? p =
      if absent.all (·.analysis.cancelled) then (storeAfter start h).data.get? p else none := by
  induction absent with
  | nil => rfl
  | cons c absent ih =>
    have hrest := ih hist.tail hkey.tail fun c' hc' => habsent c' (List.mem_cons_of_mem _ hc')
    have hget := hist.get?_of_not_contains hcache (hkey c List.mem_cons_self)
      (habsent c List.mem_cons_self)
    rw [List.cons_append, storeAfter, ← Completed.data, hget, List.all_cons]
    cases c.analysis.cancelled with
    | false => rfl
    | true => exact hrest

/-- What a run does to the record of a source file. -/
theorem get?_of_mem (hist : s.History start (c :: h)) (hcache : s.config.enableCache = true)
    (hread : ∀ f ∈ c.graph.files, c.tree.Readable f) {f : Path} (hkey : f.OwnKey c.graph.files)
    (hf : f ∈ c.graph.files) :
    c.data.get? f =
      if c.analysis.resolves f then
        (FileCheck.run s.digest c.tree ((storeAfter start h).data.get? f) f).staged?.or
          ((storeAfter start h).data.get? f)
      else (storeAfter start h).data.get? f := by
  obtain ⟨plan, taken, rest, ran⟩ := hist.exists_ran hcache
  have hfile : Path.memSame f c.outcome.analysis.graph.files = true := Path.memSame_of_mem hf
  have hget := ran.get?_eq hkey hread
  rw [hfile, Bool.or_true, if_pos rfl] at hget
  exact hget

/-- Every record is what the tree of some run gave the file. -/
theorem exists_origin (hist : s.History start h) (hcache : s.config.enableCache = true)
    (hstart : ∀ p, start.data.get? p = none) {p : Path} (hkey : OwnKeyIn h p) {r : Record}
    (hr : (storeAfter start h).data.get? p = some r) :
    ∃ c ∈ h, p ∈ c.graph.files ∧ r = recordOf s.digest c.tree p := by
  induction h with
  | nil =>
    rw [storeAfter, hstart] at hr
    cases hr
  | cons c h ih =>
    obtain ⟨plan, taken, rest, ran⟩ := hist.exists_ran hcache
    rcases ran.get?_cases (hkey c List.mem_cons_self) hr with hold | ⟨hp, hnew⟩
    · obtain ⟨c', hc', horigin⟩ := ih hist.tail hkey.tail hold
      exact ⟨c', List.mem_cons_of_mem _ hc', horigin⟩
    · exact ⟨c, List.mem_cons_self, hp, hnew⟩

section Settled

variable (hcache : s.config.enableCache = true) (hstart : ∀ p, start.data.get? p = none)
include hcache hstart

/-- A record with the time of the file has its digest. -/
theorem hash_eq_of_modified_eq (hist : s.History start h) (htimes : TimesTell (n :: h)) {f : Path}
    (hkey : OwnKeyIn h f) (hf : f ∈ n.graph.files) {r : Record}
    (hr : (storeAfter start h).data.get? f = some r)
    (hm : r.modified = (recordOf s.digest n.tree f).modified) :
    r.hash = (recordOf s.digest n.tree f).hash := by
  obtain ⟨c, hc, hfc, rfl⟩ := hist.exists_origin hcache hstart hkey hr
  rw [modified_recordOf, modified_recordOf] at hm
  exact hash_recordOf_congr
    (htimes.content?_eq (List.mem_cons_of_mem _ hc) List.mem_cons_self hfc hf hm)

/-- A file with a result has the record afterwards that the tree gives it. -/
theorem get?_of_resolves (hist : s.History start (c :: h)) (htimes : TimesTell (c :: h))
    (hread : ∀ f ∈ c.graph.files, c.tree.Readable f) {f : Path} (hkey : OwnKeyIn (c :: h) f)
    (hf : f ∈ c.graph.files) (hres : c.analysis.resolves f = true) :
    c.data.get? f = some (recordOf s.digest c.tree f) := by
  rw [hist.get?_of_mem hcache hread (hkey c List.mem_cons_self) hf, if_pos hres,
    FileCheck.staged?_run (hread f hf)]
  split
  · -- The old record has the time of the file, so it has its digest as well.
    next hany =>
    obtain ⟨r, hr, hm⟩ := (Option.any_eq_true ..).mp hany
    have hm : r.modified = (recordOf s.digest c.tree f).modified := of_decide_eq_true hm
    have hhash := hist.tail.hash_eq_of_modified_eq hcache hstart htimes hkey.tail hf hr hm
    rw [Option.none_or, hr, Record.ext hhash hm]
  · rfl

/-- A source file that a run does not leave unresolved has a record afterwards, with the digest of
the content that the run saw. -/
theorem exists_record (hist : s.History start (c :: h)) (htimes : TimesTell (c :: h))
    (hread : ∀ f ∈ c.graph.files, c.tree.Readable f) {f : Path} (hkey : OwnKeyIn (c :: h) f)
    (hf : f ∈ c.graph.files) (hsettled : Path.memSame f c.data.pendingPaths = false) :
    ∃ r, c.data.get? f = some r ∧ r.hash = (recordOf s.digest c.tree f).hash := by
  by_cases hres : c.analysis.resolves f = true
  · exact ⟨_, hist.get?_of_resolves hcache hstart htimes hread hkey hf hres, rfl⟩
  · -- The file is outside of the change set, so its check found no change.
    obtain ⟨plan, taken, rest, ran⟩ := hist.exists_ran hcache
    have hout : Path.memSame f c.analysis.changeSet = false := by
      by_contra hin
      have hdelivers := ran.delivers_of_settled hf (hkey c List.mem_cons_self).isText
        (Bool.eq_true_of_not_eq_false hin) hsettled
      exact hres (ran.delivers_iff.mp hdelivers).1
    have hcheck : ¬ (FileCheck.run s.digest c.tree ((storeAfter start h).data.get? f) f).isChanged =
        true := fun hc => ran.not_startsChange hf hout (.changed hc)
    rw [FileCheck.isChanged_run (hread f hf)] at hcheck
    push Not at hcheck
    obtain ⟨r, hr, hor⟩ := hcheck
    refine ⟨r, ?_, ?_⟩
    · rw [hist.get?_of_mem hcache hread (hkey c List.mem_cons_self) hf, if_neg hres, hr]
    · by_cases hm : r.modified = (recordOf s.digest c.tree f).modified
      · exact hist.tail.hash_eq_of_modified_eq hcache hstart htimes hkey.tail hf hr hm
      · exact hor hm

/-- The check of a file that the last run left settled finds a change exactly if the digest has
changed since that run. -/
theorem isChanged_iff (hist : s.History start (c :: h)) (htimes : TimesTell (n :: c :: h))
    (hread : ∀ f ∈ c.graph.files, c.tree.Readable f) {f : Path} (hkey : OwnKeyIn (c :: h) f)
    (hf : f ∈ c.graph.files) (hsettled : Path.memSame f c.data.pendingPaths = false)
    (hfn : f ∈ n.graph.files) (hreadn : n.tree.Readable f) :
    (FileCheck.run s.digest n.tree (c.data.get? f) f).isChanged = true ↔
      (recordOf s.digest n.tree f).hash ≠ (recordOf s.digest c.tree f).hash := by
  have htail : TimesTell (c :: h) := htimes.mono (List.subset_cons_self _ _)
  obtain ⟨r, hr, hhash⟩ := hist.exists_record hcache hstart htail hread hkey hf hsettled
  rw [FileCheck.isChanged_run hreadn, hr]
  simp only [Option.some.injEq, forall_eq', ← hhash]
  refine ⟨fun h => h.2.symm, fun hne => ⟨fun hm => hne ?_, hne.symm⟩⟩
  exact (hist.hash_eq_of_modified_eq hcache hstart htimes hkey hfn hr hm).symm

end Settled

end Setting.History

/-! ## The same files again -/

/-- The visit finds the source files as the run `c` found them. -/
structure Setting.FindsAgain (s : Setting) (c : Completed) (v : Visit) : Prop where
  files : sourceFiles v.tree s.project s.config.extensions s.excludes = .ok c.graph.files
  stat : ∀ f ∈ c.graph.files, v.tree.stat f = c.tree.stat f

section

variable {s : Setting} {start store : Store} {c n : Completed} {v : Visit}
  (hc : s.run c.visit start = .ok c.outcome)
include hc

theorem Setting.exists_attempted : ∃ plan taken rest,
    Attempted c.visit.workers (s.context c.visit) s.config s.excludes c.tree s.project start
      c.outcome plan taken rest := by
  obtain ⟨plan, taken, rest, ha, -⟩ := Recheck.exists_attempted hc
  exact ⟨plan, taken, rest, ha⟩

namespace Setting.FindsAgain

theorem self : s.FindsAgain c c.visit := by
  obtain ⟨plan, taken, rest, ha⟩ := s.exists_attempted hc
  exact ⟨ha.sourceFiles_eq, fun _ _ => rfl⟩

theorem collect_eq (hv : s.FindsAgain c v) :
    References.collect v.tree s.project s.config.extensions s.excludes =
      References.collect c.tree s.project s.config.extensions s.excludes := by
  refine collect_congr (self hc).files hv.files fun f hf => ?_
  rw [FileTree.readText, FileTree.readText, FileTree.read_congr (hv.stat f hf)]

/-- A run over the same files comes to something whatever is in the store. -/
theorem exists_run (hv : s.FindsAgain c v) (store : Store) : ∃ o, s.run v store = .ok o := by
  obtain ⟨plan, taken, rest, ha⟩ := s.exists_attempted hc
  obtain ⟨plan', hmade⟩ := ha.made.exists_made store.data (hv.collect_eq hc)
  exact analyzeProjectBy_ok hmade

variable (hn : s.run n.visit store = .ok n.outcome) (hv : s.FindsAgain c n.visit)
include hn hv

theorem graph_eq : n.graph = c.graph := by
  obtain ⟨plan, taken, rest, ha⟩ := s.exists_attempted hc
  obtain ⟨plan', taken', rest', ha'⟩ := s.exists_attempted hn
  have hgraph := ha.made.graph_eq ha'.made (hv.collect_eq hc)
  rw [← ha.graph_eq, ← ha'.graph_eq] at hgraph
  exact hgraph

theorem readable (hread : ∀ f ∈ c.graph.files, c.tree.Readable f) :
    ∀ f ∈ n.graph.files, n.tree.Readable f := by
  intro f hf
  rw [graph_eq hc hn hv] at hf
  obtain ⟨content, hcontent⟩ := hread f hf
  exact ⟨content, (FileTree.read_congr (hv.stat f hf)).trans hcontent⟩

end Setting.FindsAgain

end

/-! ## A sample project -/

theorem exists_ok_of_any {ε α : Type} {P : α → Prop} [DecidablePred P] {x : Except ε α}
    (h : (x.toOption.any fun a => decide (P a)) = true) : ∃ a, x = .ok a ∧ P a := by
  cases x with
  | error e => cases h
  | ok a => exact ⟨a, rfl, of_decide_eq_true h⟩

theorem exists_three_of_decide {α : Type} {P : α → α → α → Prop} [∀ a b c, Decidable (P a b c)]
    {l : List α}
    (h : (match l with
      | a :: b :: c :: _ => decide (P a b c)
      | _ => false) = true) :
    ∃ a b c rest, l = a :: b :: c :: rest ∧ P a b c := by
  split at h
  · next a b c rest => exact ⟨a, b, c, rest, rfl, of_decide_eq_true h⟩
  · cases h

namespace Sample

/-- A file of the sample project. -/
def file (name content : String) (modified : Int) : Location × Entry :=
  (["p", "lib", name], .file (Text.bytes content) modified true)

/-- The path of a file of the sample project. -/
def path (name : String) : Path := ⟨"/p/lib/" ++ name⟩

/-- The sample project with the given files. -/
def tree (files : List (Location × Entry)) : FileTree where
  entries := [(["p"], .dir 1), (["p", "lib"], .dir 1)] ++ files

/-- The digest is the content, byte by byte. -/
def setting : Setting where
  digest := ⟨fun bytes => String.ofList (bytes.map fun b => Char.ofNat b.toNat)⟩
  config := {}
  excludes := []
  project :=
    { root := ⟨"/p"⟩
      manifest := ⟨"/p/pubspec.yaml"⟩
      manifestKind := .pubspec
      sourceDir := ⟨"/p/lib"⟩
      packageName := "p" }

def now : Timestamp := .epoch

/-- Workers who take up the files of a layer from its end. -/
def fromEnd : Workers := ⟨List.reverse, List.reverse_perm⟩

/-- Files resolve, but for one that fails. -/
def failingOn (q : Path) (t : FileTree) (p : Path) (symbols : SymbolTable) :
    Except FileError FileAnalysis :=
  if p = q then .error (.notText p) else resolveFile t p symbols

end Sample

end Recheck
