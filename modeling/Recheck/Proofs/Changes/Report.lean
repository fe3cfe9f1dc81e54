import Recheck.Proofs.Changes

/-!
# What one detection reports

A listed file is in one of four states: there is nothing at its path, its record has its time, its
content decides, or it would have to be read and cannot be. The check of a file tells them apart
(`FileCheck.run_eq`), so the counters of a detection add up to the number of files. The change set
is what depends on the files with which a change starts (`Changes.Origin`). `Changes.reports_detect`
puts the parts together.
-/

namespace Recheck

/-! ## The states of a file -/

/-- There is nothing at the path. -/
def FileTree.isAbsent (t : FileTree) (p : Path) : Bool :=
  match t.stat p with
  | .error e => e = .notFound
  | .ok _ => false

/-- The file can be read. -/
def FileTree.isReadable (t : FileTree) (p : Path) : Bool := (t.read p).isOk

namespace FileCheck

/-- There is something at the path, and the record has its time. -/
def timeAgrees (t : FileTree) (prior : Option Record) (p : Path) : Bool :=
  match t.stat p with
  | .error _ => false
  | .ok entry => prior.any fun r => r.modified = entry.modifiedMillis

/-- The content of the file decides. -/
def readsContent (t : FileTree) (prior : Option Record) (p : Path) : Bool :=
  t.isReadable p && !timeAgrees t prior p

/-- There is something at the path that would have to be read and cannot be. -/
def cannotRead (t : FileTree) (prior : Option Record) (p : Path) : Bool :=
  !t.isAbsent p && !t.isReadable p && !timeAgrees t prior p

variable {digest : Digest} {t : FileTree} {prior : Option Record} {p : Path}

theorem isReadable_eq_false_of_isAbsent (h : t.isAbsent p = true) : t.isReadable p = false := by
  rw [FileTree.isAbsent] at h
  rw [FileTree.isReadable, FileTree.read]
  split at h
  · next e hs => simp [hs, Except.isOk, Except.toBool]
  · cases h

theorem timeAgrees_eq_false_of_isAbsent (h : t.isAbsent p = true) :
    timeAgrees t prior p = false := by
  rw [FileTree.isAbsent] at h
  rw [timeAgrees]
  split at h
  · next e hs => simp
  · cases h

/-- What a check comes to in each state. -/
theorem run_eq :
    run digest t prior p =
      if t.isAbsent p then missing
      else if timeAgrees t prior p then current
      else if t.isReadable p then
        if prior.any fun r => r.hash = (recordOf digest t p).hash then
          touched (recordOf digest t p)
        else modified (recordOf digest t p)
      else unreadable (fallback digest p) := by
  have hread : ∀ e, t.stat p = .error e → t.read p = .error e := fun e hs => by
    simp only [FileTree.read, hs]
  cases hs : t.stat p with
  | error e =>
    cases e <;>
      simp [run, FileTree.isAbsent, timeAgrees, FileTree.isReadable, hs, hread _ hs, Except.isOk,
        Except.toBool]
  | ok entry =>
    cases hr : t.read p <;>
      simp [run, FileTree.isAbsent, timeAgrees, FileTree.isReadable, recordOf, hs, hr, Except.isOk,
        Except.toBool]

theorem run_eq_current_iff : run digest t prior p = current ↔ timeAgrees t prior p = true := by
  have hexcl := @timeAgrees_eq_false_of_isAbsent t prior p
  rw [run_eq]
  split_ifs <;> simp_all

theorem isHashed_run : (run digest t prior p).isHashed = readsContent t prior p := by
  have hexcl := @isReadable_eq_false_of_isAbsent t p
  rw [run_eq, readsContent]
  split_ifs <;> simp_all [isHashed]

theorem isUnreadable_run_eq : (run digest t prior p).isUnreadable = cannotRead t prior p := by
  rw [run_eq, cannotRead]
  split_ifs <;> simp_all [isUnreadable]

/-- A record is staged for the files that were read or cannot be. -/
theorem isSome_staged?_run :
    (run digest t prior p).staged?.isSome = (readsContent t prior p || cannotRead t prior p) := by
  rw [← @isHashed_run digest, ← @isUnreadable_run_eq digest]
  cases run digest t prior p <;> rfl

/-- A check finds a change if the file is not there, or if its record does not have its time and
the content cannot be read, has no record, or has another digest than the record. -/
theorem isChanged_run_iff :
    (run digest t prior p).isChanged = true ↔
      (∀ entry, t.stat p ≠ .ok entry) ∨
        ∃ entry, t.stat p = .ok entry ∧ (∀ r, prior = some r → r.modified ≠ entry.modifiedMillis) ∧
          ((∀ content, t.read p ≠ .ok content) ∨ prior = none ∨
            ∃ content r, t.read p = .ok content ∧ prior = some r ∧
              r.hash ≠ digest.ofContent content) := by
  rw [← Bool.not_eq_false, isChanged_eq_false_iff]
  simp only [Record.Passes]
  cases hs : t.stat p with
  | error e => simp
  | ok entry => cases prior <;> cases hr : t.read p <;> simp

end FileCheck

/-! ## Files with which a change starts -/

/-- The path `f` spells a file that depends on the file that `p` spells. -/
def Graph.Follows (g : Graph) (f p : Path) : Prop :=
  ∃ u v, Path.Same u f ∧ Path.Same v p ∧ g.DependsOn u v

theorem Graph.affects_iff_follows {g : Graph} {p f : Path} :
    g.Affects p f ↔ Path.Same f p ∨ g.Follows f p := by
  refine or_congr ⟨Path.Same.symm, Path.Same.symm⟩ ?_
  simp only [Path.memSame_iff, mem_transitiveDependents]
  constructor
  · rintro ⟨u, ⟨v, -, hv, hdep⟩, hu⟩
    exact ⟨u, v, hu, hv, hdep⟩
  · rintro ⟨u, v, hu, hv, hdep⟩
    exact ⟨u, ⟨v, hdep.right_mem, hv, hdep⟩, hu⟩

namespace Changes

section Detect

variable {digest : Digest} {t : FileTree} {g : Graph} {missing : List (Path × List Path)}
  {files : List Path} {data : StoreData}

/-- A path with which a change starts. -/
inductive Origin (digest : Digest) (t : FileTree) (g : Graph) (missing : List (Path × List Path))
    (files : List Path) (data : StoreData) : Path → Prop where
  /-- A listed file that does not exist, or about which nothing can be found out. -/
  | gone {p : Path} (hp : p ∈ files) (hs : ∀ entry, t.stat p ≠ .ok entry) :
      Origin digest t g missing files data p
  /-- A listed file without a record of its time that cannot be read, has no record, or has one with
  another digest. -/
  | altered {p : Path} {entry : Entry} (hp : p ∈ files) (hs : t.stat p = .ok entry)
      (htime : ∀ r, data.get? p = some r → r.modified ≠ entry.modifiedMillis)
      (hcontent : (∀ content, t.read p ≠ .ok content) ∨ data.get? p = none ∨
        ∃ content r, t.read p = .ok content ∧ data.get? p = some r ∧
          r.hash ≠ digest.ofContent content) :
      Origin digest t g missing files data p
  /-- A file that refers to a missing file with a record. -/
  | refers {p target : Path} {targets : List Path} (he : (p, targets) ∈ missing)
      (ht : target ∈ targets) (hr : (data.get? target).isSome = true) :
      Origin digest t g missing files data p
  /-- A file of the graph that was left unresolved. -/
  | pending {p : Path} (hp : p ∈ data.pendingPaths) (hg : g.contains p = true) :
      Origin digest t g missing files data p

theorem seed_iff_origin {p : Path} :
    Seed digest t g missing files data p ↔ Origin digest t g missing files data p := by
  constructor
  · rintro (⟨hp, hc⟩ | ⟨he, ht, hr⟩ | ⟨hp, hg⟩)
    · rcases FileCheck.isChanged_run_iff.mp hc with hs | ⟨entry, hs, htime, hcontent⟩
      · exact .gone hp hs
      · exact .altered hp hs htime hcontent
    · exact .refers he ht hr
    · exact .pending hp hg
  · rintro (⟨hp, hs⟩ | ⟨hp, hs, htime, hcontent⟩ | ⟨he, ht, hr⟩ | ⟨hp, hg⟩)
    · exact .changed hp (FileCheck.isChanged_run_iff.mpr (.inl hs))
    · exact .changed hp (FileCheck.isChanged_run_iff.mpr (.inr ⟨_, hs, htime, hcontent⟩))
    · exact .refers he ht hr
    · exact .pending hp hg

theorem contains_detect_iff {f : Path} :
    (detect digest t g missing files data).contains f = true ↔
      ∃ p, Origin digest t g missing files data p ∧ (Path.Same f p ∨ g.Follows f p) := by
  rw [spreadFrom_detect.contains_iff f]
  simp only [seed_iff_origin, Graph.affects_iff_follows]

/-! ## Staged records and counters -/

theorem isSome_staged?_foldl_addCheck (check : Path → FileCheck) (files : List Path) (c : Changes)
    (q : Path) :
    ((files.foldl (fun c p => c.addCheck g p (check p)) c).staged? q).isSome = true ↔
      (c.staged? q).isSome = true ∨
        ∃ p ∈ files, Path.Same p q ∧ (check p).staged?.isSome = true := by
  induction files generalizing c with
  | nil => simp
  | cons p files ih =>
    rw [List.foldl_cons, ih, staged?_addCheck]
    by_cases hs : Path.Same p q
    · simp only [hs, if_true, Option.isSome_or, Bool.or_eq_true, List.mem_cons, exists_eq_or_imp,
        true_and]
      exact or_assoc.trans or_left_comm
    · simp [hs]

/-- A record is staged for exactly the listed files that were read or cannot be. -/
theorem isSome_staged?_detect {q : Path} :
    ((detect digest t g missing files data).staged? q).isSome = true ↔
      ∃ p ∈ files, Path.Same p q ∧
        (FileCheck.readsContent t (data.get? p) p ||
          FileCheck.cannotRead t (data.get? p) p) = true := by
  rw [staged?, detect_keeps.1, ← staged?,
    isSome_staged?_foldl_addCheck fun p => FileCheck.run digest t (data.get? p) p]
  simp [staged?, FileCheck.isSome_staged?_run]

/-- Files that are no spellings of each other are counted one by one. -/
theorem length_unreadable_foldl_addCheck (check : Path → FileCheck) (files : List Path)
    (hd : files.Pairwise fun p q => ¬ Path.Same p q) (c : Changes)
    (hc : ∀ p ∈ files, Path.memSame p c.unreadable = false) :
    (files.foldl (fun c p => c.addCheck g p (check p)) c).unreadable.length =
      c.unreadable.length + files.countP fun p => (check p).isUnreadable := by
  induction files generalizing c with
  | nil => rfl
  | cons p files ih =>
    obtain ⟨hp, hd⟩ := List.pairwise_cons.mp hd
    have hrest : ∀ q ∈ files, Path.memSame q (c.addCheck g p (check p)).unreadable = false := by
      intro q hq
      rw [Bool.eq_false_iff]
      intro hmem
      rcases (memSame_unreadable_addCheck g c p q (check p)).mp hmem with hmem | ⟨-, hs⟩
      · exact absurd hmem (by simp [hc q (List.mem_cons_of_mem p hq)])
      · exact hp q hq hs
    rw [List.foldl_cons, ih hd _ hrest, unreadable_addCheck, List.countP_cons, Path.insert,
      hc p List.mem_cons_self]
    split
    · simp only [Bool.false_eq_true, if_false, List.length_append, List.length_singleton]
      omega
    · rfl

theorem length_unreadable_detect (hd : files.Pairwise fun p q => ¬ Path.Same p q) :
    (detect digest t g missing files data).unreadable.length =
      files.countP fun p => FileCheck.cannotRead t (data.get? p) p := by
  rw [detect_keeps.2, length_unreadable_foldl_addCheck
    (fun p => FileCheck.run digest t (data.get? p) p) files hd {} fun p _ => rfl]
  simp [FileCheck.isUnreadable_run_eq]

/-- Each listed file is in one of the four states. -/
theorem countP_states (t : FileTree) (data : StoreData) (files : List Path) :
    (files.countP fun p => FileCheck.timeAgrees t (data.get? p) p) +
        (files.countP fun p => FileCheck.readsContent t (data.get? p) p) +
        (files.countP fun p => FileCheck.cannotRead t (data.get? p) p) +
        files.countP t.isAbsent = files.length := by
  induction files with
  | nil => rfl
  | cons p files ih =>
    have hread := @FileCheck.isReadable_eq_false_of_isAbsent t p
    have htime := @FileCheck.timeAgrees_eq_false_of_isAbsent t (data.get? p) p
    have hone : (if FileCheck.timeAgrees t (data.get? p) p then 1 else 0) +
        (if FileCheck.readsContent t (data.get? p) p then 1 else 0) +
        (if FileCheck.cannotRead t (data.get? p) p then 1 else 0) +
        (if t.isAbsent p then 1 else 0) = 1 := by
      rw [FileCheck.readsContent, FileCheck.cannotRead]
      cases hA : t.isAbsent p <;> cases hR : t.isReadable p <;>
        cases hT : FileCheck.timeAgrees t (data.get? p) p <;> simp_all
    simp only [List.countP_cons, List.length_cons]
    omega

/-! ## The whole report -/

/-- What a report says of the listed files, for any graph, store and tree. -/
structure Reports (digest : Digest) (t : FileTree) (g : Graph) (missing : List (Path × List Path))
    (files : List Path) (data : StoreData) (c : Changes) : Prop where
  /-- The change set holds the origins and what depends on them. -/
  contains_iff : ∀ f, c.contains f = true ↔
    ∃ p, Origin digest t g missing files data p ∧ (Path.Same f p ∨ g.Follows f p)
  quickSkips_eq : c.quickSkips = files.countP fun p => FileCheck.timeAgrees t (data.get? p) p
  hashComputations_eq :
    c.hashComputations = files.countP fun p => FileCheck.readsContent t (data.get? p) p
  unreadable_iff : ∀ q, Path.memSame q c.unreadable = true ↔
    ∃ p ∈ files, Path.Same p q ∧ FileCheck.cannotRead t (data.get? p) p = true
  staged_iff : ∀ q, (c.staged? q).isSome = true ↔
    ∃ p ∈ files, Path.Same p q ∧
      (FileCheck.readsContent t (data.get? p) p || FileCheck.cannotRead t (data.get? p) p) = true
  /-- Each listed file is counted once. -/
  total : c.quickSkips + c.hashComputations + c.unreadable.length + files.countP t.isAbsent =
    files.length

/-- The change set, the counters and the staged records of one detection. -/
theorem reports_detect (hd : files.Pairwise fun p q => ¬ Path.Same p q) :
    Reports digest t g missing files data (detect digest t g missing files data) := by
  have hskips : (detect digest t g missing files data).quickSkips =
      files.countP fun p => FileCheck.timeAgrees t (data.get? p) p := by
    simp only [quickSkips_detect, FileCheck.run_eq_current_iff, Bool.decide_eq_true]
  have hhashes : (detect digest t g missing files data).hashComputations =
      files.countP fun p => FileCheck.readsContent t (data.get? p) p := by
    simp only [hashComputations_detect, FileCheck.isHashed_run]
  refine ⟨fun f => contains_detect_iff, hskips, hhashes, fun q => ?_,
    fun q => isSome_staged?_detect, ?_⟩
  · rw [detect_keeps.2, memSame_unreadable_foldl_addCheck fun p =>
      FileCheck.run digest t (data.get? p) p]
    simp [FileCheck.isUnreadable_run_eq, and_comm]
  · rw [hskips, hhashes, length_unreadable_detect hd]
    exact countP_states t data files

end Detect

/-- One file in each state, a second one whose content has changed, a file that refers to a missing
one, and a file left unresolved. -/
theorem reports_detect_sample :
    let digest : Digest := ⟨fun bytes => String.ofList (bytes.map fun b => Char.ofNat b.toNat)⟩
    let t : FileTree :=
      { entries :=
          [(["a"], .file (Text.bytes "new") 5 true), (["b"], .file [] 7 true),
            (["c"], .file [] 3 false), (["e"], .file [] 1 true), (["f"], .file [] 1 true)] }
    let files : List Path := [⟨"/a"⟩, ⟨"/b"⟩, ⟨"/c"⟩, ⟨"/d"⟩, ⟨"/e"⟩, ⟨"/f"⟩]
    let g := Graph.ofEdges files [(⟨"/b"⟩, ⟨"/a"⟩), (⟨"/a"⟩, ⟨"/b"⟩)]
    let missing : List (Path × List Path) := [(⟨"/e"⟩, [⟨"/x"⟩])]
    let data : StoreData :=
      { files := Table.ofList
          [("/a", ⟨"old", 4⟩), ("/b", ⟨"", 7⟩), ("/e", ⟨"", 1⟩), ("/f", ⟨"", 1⟩), ("/x", ⟨"", 0⟩)]
        pending := TextSet.ofTexts ["/f", "/y"] }
    files.Pairwise (fun p q => ¬ Path.Same p q) ∧
      Reports digest t g missing files data (detect digest t g missing files data) ∧
      (detect digest t g missing files data).changeSet =
        [⟨"/a"⟩, ⟨"/b"⟩, ⟨"/c"⟩, ⟨"/d"⟩, ⟨"/e"⟩, ⟨"/f"⟩] := by
  intro digest t files g missing data
  have hd : files.Pairwise fun p q => ¬ Path.Same p q := by decide +kernel
  exact ⟨hd, reports_detect hd, by decide +kernel⟩

end Changes

end Recheck
