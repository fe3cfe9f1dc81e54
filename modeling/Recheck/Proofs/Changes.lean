import Recheck.Changes
import Recheck.Proofs.Graph.Dependents
import Recheck.Proofs.Store

/-!
# Change detection

What the checks against a store come to:

* `FileCheck.staged?_run`, `FileCheck.isChanged_run`: the check of a readable file stages the record
  that the tree gives the file, unless the time of the record is that of the file, and finds a
  change if neither the time nor the digest agrees;
* `FileCheck.isChanged_eq_false_iff`: the check of any file finds no change exactly if there is a
  record that passes for it;
* `spreadFrom_detect`: the change set is what the seeds affect, that is the changed files, the files
  that refer to a file which is gone and the files left unresolved;
* `staged?_detect`, `memSame_unreadable_detect`: the staged record of a file is the one that its
  check stages, and a file counts as unreadable if its check says so;
* `quickSkips_detect`, `hashComputations_detect`: the counters count the checks that were settled by
  the time, and those that read the file.
-/

namespace Recheck

/-! ## Checking one file -/

/-- The record that a tree gives a file. -/
def recordOf (digest : Digest) (t : FileTree) (p : Path) : Record :=
  match t.stat p, t.read p with
  | .ok entry, .ok content => ⟨digest.ofContent content, entry.modifiedMillis⟩
  | _, _ => FileCheck.fallback digest p

/-- The file can be read. -/
def FileTree.Readable (t : FileTree) (p : Path) : Prop := ∃ content, t.read p = .ok content

theorem FileTree.Readable.stat {t : FileTree} {p : Path} (h : t.Readable p) :
    ∃ content modified, t.stat p = .ok (.file content modified true) ∧ t.read p = .ok content := by
  obtain ⟨content, h⟩ := h
  have hread := h
  rw [FileTree.read] at h
  split at h
  · next c modified readable hs =>
    split at h
    · next hr =>
      subst hr
      obtain rfl := Except.ok.inj h
      exact ⟨c, modified, hs, hread⟩
    · cases h
  · cases h
  · cases h

theorem FileTree.read_congr {t t' : FileTree} {p : Path} (h : t.stat p = t'.stat p) :
    t.read p = t'.read p := by
  simp only [FileTree.read, h]

/-- The record passes for a file: the file is there, and the record has its time or the digest of
its content. -/
def Record.Passes (digest : Digest) (t : FileTree) (p : Path) (r : Record) : Prop :=
  ∃ entry, t.stat p = .ok entry ∧
    (r.modified = entry.modifiedMillis ∨
      ∃ content, t.read p = .ok content ∧ r.hash = digest.ofContent content)

namespace FileCheck

variable {digest : Digest} {t : FileTree} {prior : Option Record} {p : Path}

theorem run_congr {t' : FileTree} (h : t.stat p = t'.stat p) :
    run digest t prior p = run digest t' prior p := by
  simp only [run, FileTree.read_congr h, h]

/-- A check stages no other record than the one that the tree gives the file. -/
theorem eq_recordOf_of_staged {r : Record} (h : (run digest t prior p).staged? = some r) :
    r = recordOf digest t p := by
  rw [run] at h
  rw [recordOf]
  cases hs : t.stat p with
  | error e =>
    cases e <;> simp_all [staged?]
  | ok entry =>
    simp only [hs] at h
    split at h
    · cases h
    · cases hr : t.read p with
      | error e => simp_all [staged?]
      | ok content =>
        simp only [hr] at h
        split at h <;> exact (Option.some.inj h).symm

theorem run_of_readable (h : t.Readable p) :
    run digest t prior p =
      if prior.any fun r => r.modified = (recordOf digest t p).modified then current
      else if prior.any fun r => r.hash = (recordOf digest t p).hash then
        touched (recordOf digest t p)
      else modified (recordOf digest t p) := by
  obtain ⟨content, modified, hs, hr⟩ := h.stat
  simp only [run, recordOf, hs, hr]

/-- The check of a readable file stages a record, unless the time of the prior record is that of the
file. -/
theorem staged?_run (h : t.Readable p) :
    (run digest t prior p).staged? =
      if prior.any fun r => r.modified = (recordOf digest t p).modified then none
      else some (recordOf digest t p) := by
  rw [run_of_readable h]
  split
  · rfl
  · split <;> rfl

/-- Once the staged record is stored, the same check finds the file up to date. -/
theorem run_staged?_or (h : t.Readable p) :
    run digest t ((run digest t prior p).staged?.or prior) p = current := by
  have hcurrent : ∀ r : Record, r.modified = (recordOf digest t p).modified →
      run digest t (some r) p = current := fun r hr => by
    rw [run_of_readable h, Option.any_some, if_pos (decide_eq_true hr)]
  rw [staged?_run h]
  split
  · next hany =>
    obtain ⟨r, rfl, hr⟩ := (Option.any_eq_true ..).mp hany
    exact hcurrent r (of_decide_eq_true hr)
  · exact hcurrent _ rfl

/-- A readable file has changed if neither the time nor the digest of the prior record is that of
the file. -/
theorem isChanged_run (h : t.Readable p) :
    (run digest t prior p).isChanged = true ↔
      ∀ r, prior = some r →
        r.modified ≠ (recordOf digest t p).modified ∧ r.hash ≠ (recordOf digest t p).hash := by
  rw [run_of_readable h]
  cases prior with
  | none => simp [isChanged]
  | some r =>
    simp only [Option.any_some, decide_eq_true_eq, Option.some.injEq, forall_eq']
    split
    · next hm => simp [isChanged, hm]
    · split <;> simp_all [isChanged]

/-- The check of a file finds no change exactly if there is a record that passes for it. -/
theorem isChanged_eq_false_iff :
    (run digest t prior p).isChanged = false ↔
      ∃ r, prior = some r ∧ r.Passes digest t p := by
  simp only [run, Record.Passes]
  cases hs : t.stat p with
  | error e => cases e <;> simp [isChanged]
  | ok entry =>
    cases prior with
    | none => cases t.read p <;> simp [isChanged]
    | some r =>
      simp only [Option.any_some, decide_eq_true_eq, Option.some.injEq, exists_eq_left',
        Except.ok.injEq]
      split
      · next hm => simp [isChanged, hm]
      · next hm =>
        cases t.read p with
        | error e => simp [isChanged, hm]
        | ok content =>
          simp only [hm, false_or, Except.ok.injEq, exists_eq_left']
          split <;> simp_all [isChanged]

theorem isUnreadable_run (h : t.Readable p) : (run digest t prior p).isUnreadable = false := by
  rw [run_of_readable h]
  split
  · rfl
  · split <;> rfl

end FileCheck

/-! ## What a file affects -/

namespace Graph

/-- The path `f` is `p` or a file that depends on it. -/
def Affects (g : Graph) (p f : Path) : Prop :=
  Path.Same p f ∨ Path.memSame f (g.transitiveDependents p) = true

theorem affects_iff {g : Graph} {p f : Path} (hp : p ∈ g.files) (hf : f ∈ g.files) :
    g.Affects p f ↔ f = p ∨ g.DependsOn f p := by
  refine or_congr ⟨fun h => (Path.eq_of_same g.files_distinct hp hf h).symm, fun h => ?_⟩ ?_
  · rw [h]
    exact Path.Same.refl p
  · have hsub : g.transitiveDependents p ⊆ g.files := fun v hv =>
      ((mem_transitiveDependents_of_mem hp).mp hv).left_mem
    rw [Path.mem_iff_memSame g.files_distinct hf hsub, mem_transitiveDependents_of_mem hp]

theorem Affects.of_same {g : Graph} {p f : Path} (h : Path.Same p f) : g.Affects p f := .inl h

theorem transitiveDependents_congr {g : Graph} {p q : Path} (h : Path.Same p q) :
    g.transitiveDependents p = g.transitiveDependents q := by
  rw [transitiveDependents, transitiveDependents, find?, find?, Path.find?, Path.find?,
    show p.components = q.components from h]

theorem Affects.trans {g : Graph} {p q f : Path} (hpq : g.Affects p q) (hqf : g.Affects q f) :
    g.Affects p f := by
  rcases hpq with hs | hd
  · rcases hqf with hs' | hd'
    · exact .inl (hs.trans hs')
    · exact .inr (transitiveDependents_congr hs ▸ hd')
  · right
    rcases hqf with hs' | hd'
    · exact Path.memSame_of_same hs'.symm hd
    · obtain ⟨v, hv, hvq⟩ := Path.memSame_iff.mp hd
      obtain ⟨u, hu, hup, hvu⟩ := mem_transitiveDependents.mp hv
      obtain ⟨w, hw, hwf⟩ := Path.memSame_iff.mp hd'
      obtain ⟨v', hv', hvq', hwv⟩ := mem_transitiveDependents.mp hw
      -- Both `v` and `v'` are the file of the graph that `q` spells.
      obtain rfl := Path.eq_of_same g.files_distinct hvu.left_mem hv' (hvq.trans hvq'.symm)
      exact Path.memSame_iff.mpr ⟨w, mem_transitiveDependents.mpr ⟨u, hu, hup, hwv.trans hvu⟩, hwf⟩

end Graph

/-! ## The change set -/

namespace Changes

/-- The change set is what the seeds affect. -/
structure SpreadFrom (g : Graph) (c : Changes) (seeds : Path → Prop) : Prop where
  contains_iff : ∀ f, c.contains f = true ↔ ∃ p, seeds p ∧ g.Affects p f
  /-- Only the seeds may be spelled otherwise than in the graph. -/
  spelled : ∀ f ∈ c.changeSet, seeds f ∨ f ∈ g.files

theorem spreadFrom_empty (g : Graph) : SpreadFrom g {} fun _ => False :=
  ⟨fun f => by simp [contains], by simp⟩

theorem SpreadFrom.congr {g : Graph} {c c' : Changes} {seeds seeds' : Path → Prop}
    (h : SpreadFrom g c seeds) (hc : c'.changeSet = c.changeSet) (hs : ∀ p, seeds p ↔ seeds' p) :
    SpreadFrom g c' seeds' := by
  refine ⟨fun f => ?_, fun f hf => ?_⟩
  · rw [contains, hc, ← contains, h.contains_iff f]
    simp only [hs]
  · rw [← hs]
    exact h.spelled f (hc ▸ hf)

theorem SpreadFrom.invalidate {g : Graph} {c : Changes} {seeds : Path → Prop}
    (h : SpreadFrom g c seeds) (p : Path) :
    SpreadFrom g (c.invalidate g p) fun q => seeds q ∨ q = p := by
  rw [Changes.invalidate]
  split
  · -- What `p` affects was affected already by what put `p` into the set.
    next hp =>
    refine ⟨fun f => ?_, fun f hf => (h.spelled f hf).imp_left .inl⟩
    simp only [h.contains_iff f, or_and_right, exists_or, exists_eq_left]
    refine ⟨.inl, fun hor => hor.elim id fun hpf => ?_⟩
    obtain ⟨q, hq, hqp⟩ := (h.contains_iff p).mp hp
    exact ⟨q, hq, hqp.trans hpf⟩
  · refine ⟨fun f => ?_, fun f hf => ?_⟩
    · simp only [or_and_right, exists_or, exists_eq_left]
      rw [contains, Path.memSame_foldl_insert, Path.memSame_cons, ← contains, h.contains_iff f,
        Graph.Affects]
    · rcases Path.mem_of_mem_foldl_insert hf with hf | hf
      · exact (h.spelled f hf).imp_left .inl
      · rcases List.mem_cons.mp hf with rfl | hf
        · exact .inl (.inr rfl)
        · obtain ⟨u, -, -, hd⟩ := Graph.mem_transitiveDependents.mp hf
          exact .inr hd.left_mem

theorem SpreadFrom.invalidate_if {g : Graph} {c : Changes} {seeds : Path → Prop}
    (h : SpreadFrom g c seeds) (b : Bool) (p : Path) :
    SpreadFrom g (if b then c.invalidate g p else c) fun q => seeds q ∨ (b = true ∧ q = p) := by
  cases b with
  | false => exact h.congr rfl (by simp)
  | true => exact (h.invalidate p).congr rfl (by simp)

/-- A step that adds the seeds `news x` for each element adds them all along a list. -/
theorem SpreadFrom.foldl {α : Type} {g : Graph} {step : Changes → α → Changes}
    {news : α → Path → Prop}
    (hstep : ∀ c seeds x, SpreadFrom g c seeds →
      SpreadFrom g (step c x) fun q => seeds q ∨ news x q)
    (xs : List α) {c : Changes} {seeds : Path → Prop} (h : SpreadFrom g c seeds) :
    SpreadFrom g (xs.foldl step c) fun q => seeds q ∨ ∃ x ∈ xs, news x q := by
  induction xs generalizing c seeds with
  | nil => exact h.congr rfl (by simp)
  | cons x xs ih => exact (ih (hstep c seeds x h)).congr rfl (by simp [or_assoc])

theorem SpreadFrom.addCheck {g : Graph} {c : Changes} {seeds : Path → Prop}
    (h : SpreadFrom g c seeds) (p : Path) (check : FileCheck) :
    SpreadFrom g (c.addCheck g p check) fun q => seeds q ∨ (check.isChanged = true ∧ q = p) := by
  rw [Changes.addCheck]
  have hc := (h.congr rfl fun _ => Iff.rfl : SpreadFrom g
    { c with
      quickSkips := c.quickSkips + if check = .current then 1 else 0
      hashComputations := c.hashComputations + if check.isHashed then 1 else 0
      unreadable := if check.isUnreadable then Path.insert c.unreadable p else c.unreadable }
    seeds).invalidate_if check.isChanged p
  cases check.staged? with
  | none => exact hc
  | some r => exact hc.congr rfl fun _ => Iff.rfl

theorem SpreadFrom.addMissing {g : Graph} {c : Changes} {seeds : Path → Prop}
    (h : SpreadFrom g c seeds) (data : StoreData) (e : Path × List Path) :
    SpreadFrom g (c.addMissing g data e)
      fun q => seeds q ∨ ((∃ target ∈ e.2, (data.get? target).isSome = true) ∧ q = e.1) := by
  have hempty : (e.2.filter fun target => (data.get? target).isSome).isEmpty = false ↔
      ∃ target ∈ e.2, (data.get? target).isSome = true := by
    simp [List.isEmpty_eq_false_iff, List.filter_eq_nil_iff, Option.isSome_iff_ne_none]
  simp only [Changes.addMissing, ← hempty]
  split
  · next he => exact h.congr rfl (by simp [he])
  · next he =>
    refine ((h.congr ?_ fun _ => Iff.rfl).invalidate e.1).congr rfl (by simp [he])
    rfl

theorem SpreadFrom.addPending {g : Graph} {c : Changes} {seeds : Path → Prop}
    (h : SpreadFrom g c seeds) (p : Path) :
    SpreadFrom g (c.addPending g p) fun q => seeds q ∨ (g.contains p = true ∧ q = p) := by
  rw [Changes.addPending]
  split
  · next hc => exact (h.invalidate p).congr rfl (by simp [hc])
  · next hc => exact h.congr rfl (by simp [hc])

section Detect

variable {digest : Digest} {t : FileTree} {g : Graph} {missing : List (Path × List Path)}
  {files : List Path} {data : StoreData}

/-- A file with which a change starts: it has changed itself, it refers to a file with a record that
is missing, or it was left unresolved. -/
inductive Seed (digest : Digest) (t : FileTree) (g : Graph) (missing : List (Path × List Path))
    (files : List Path) (data : StoreData) : Path → Prop where
  | changed {p : Path} (hp : p ∈ files)
      (hc : (FileCheck.run digest t (data.get? p) p).isChanged = true) :
      Seed digest t g missing files data p
  | refers {p target : Path} {targets : List Path} (he : (p, targets) ∈ missing)
      (ht : target ∈ targets) (hr : (data.get? target).isSome = true) :
      Seed digest t g missing files data p
  | pending {p : Path} (hp : p ∈ data.pendingPaths) (hg : g.contains p = true) :
      Seed digest t g missing files data p

theorem spreadFrom_detect :
    SpreadFrom g (detect digest t g missing files data) (Seed digest t g missing files data) := by
  have hchecks := (spreadFrom_empty g).foldl
    (fun c seeds p (h : SpreadFrom g c seeds) =>
      h.addCheck p (FileCheck.run digest t (data.get? p) p)) files
  have hmissing := hchecks.foldl (fun c seeds e h => h.addMissing data e) missing
  have hpending := hmissing.foldl (fun c seeds p h => h.addPending p) data.pendingPaths
  refine hpending.congr rfl fun p => ⟨?_, ?_⟩
  · rintro (((hfalse | ⟨q, hq, hc, rfl⟩) | ⟨⟨q, targets⟩, he, ⟨target, ht, hr⟩, rfl⟩) |
      ⟨q, hq, hg, rfl⟩)
    · exact hfalse.elim
    · exact .changed hq hc
    · exact .refers he ht hr
    · exact .pending hq hg
  · rintro (⟨hp, hc⟩ | ⟨he, ht, hr⟩ | ⟨hp, hg⟩)
    · exact .inl (.inl (.inr ⟨p, hp, hc, rfl⟩))
    · exact .inl (.inr ⟨_, he, ⟨_, ht, hr⟩, rfl⟩)
    · exact .inr ⟨p, hp, hg, rfl⟩

/-! ## Staged records and unreadable files -/

theorem foldl_keeps {α β : Type} (get : Changes → β) {step : Changes → α → Changes} {xs : List α}
    (h : ∀ c, ∀ x ∈ xs, get (step c x) = get c) (c : Changes) :
    get (xs.foldl step c) = get c := by
  induction xs generalizing c with
  | nil => rfl
  | cons x xs ih =>
    rw [List.foldl_cons, ih fun c y hy => h c y (List.mem_cons_of_mem _ hy),
      h c x List.mem_cons_self]

@[simp] theorem staged_invalidate (g : Graph) (c : Changes) (p : Path) :
    (c.invalidate g p).staged = c.staged := by
  rw [invalidate]
  split <;> rfl

@[simp] theorem unreadable_invalidate (g : Graph) (c : Changes) (p : Path) :
    (c.invalidate g p).unreadable = c.unreadable := by
  rw [invalidate]
  split <;> rfl

theorem addMissing_keeps (g : Graph) (data : StoreData) (c : Changes) (e : Path × List Path) :
    (c.addMissing g data e).staged = c.staged ∧
      (c.addMissing g data e).unreadable = c.unreadable := by
  simp only [addMissing]
  split <;> simp

theorem addPending_keeps (g : Graph) (c : Changes) (p : Path) :
    (c.addPending g p).staged = c.staged ∧ (c.addPending g p).unreadable = c.unreadable := by
  rw [addPending]
  split <;> simp

theorem detect_keeps :
    let checked := files.foldl
      (fun c p => c.addCheck g p (FileCheck.run digest t (data.get? p) p)) ({} : Changes)
    (detect digest t g missing files data).staged = checked.staged ∧
      (detect digest t g missing files data).unreadable = checked.unreadable := by
  intro checked
  simp only [detect]
  constructor
  · rw [foldl_keeps (·.staged) fun c p _ => (addPending_keeps g c p).1,
      foldl_keeps (·.staged) fun c e _ => (addMissing_keeps g data c e).1]
  · rw [foldl_keeps (·.unreadable) fun c p _ => (addPending_keeps g c p).2,
      foldl_keeps (·.unreadable) fun c e _ => (addMissing_keeps g data c e).2]

theorem staged?_stage (c : Changes) (p q : Path) (r : Record) :
    staged? { c with staged := stage c.staged p r } q =
      if Path.Same p q then some r else c.staged? q := by
  simp only [staged?, stage]
  split
  · next hany =>
    -- Replacing keeps the paths, so it keeps which entry is found for `q`.
    have hcomp : (fun e : Path × Record => decide (Path.Same e.1 q)) ∘
        (fun e => if Path.Same e.1 p then (e.1, r) else e) = fun e => decide (Path.Same e.1 q) := by
      funext e
      simp only [Function.comp_apply]
      split <;> rfl
    rw [List.find?_map, hcomp, Option.map_map]
    cases hf : c.staged.find? fun e => decide (Path.Same e.1 q) with
    | none =>
      have hpq : ¬ Path.Same p q := by
        obtain ⟨e, he, hep⟩ := List.any_eq_true.mp hany
        intro hpq
        have hnone := List.find?_eq_none.mp hf e he
        exact hnone (decide_eq_true ((of_decide_eq_true hep).trans hpq))
      simp [hpq]
    | some e =>
      have heq : Path.Same e.1 q := by simpa using List.find?_some hf
      have hiff : Path.Same e.1 p ↔ Path.Same p q :=
        ⟨fun h => h.symm.trans heq, fun h => heq.trans h.symm⟩
      simp only [Option.map_some, Function.comp_apply, hiff]
      split <;> rfl
  · next hany =>
    rw [List.find?_append]
    by_cases hpq : Path.Same p q
    · have hnone : (c.staged.find? fun e => decide (Path.Same e.1 q)) = none := by
        refine List.find?_eq_none.mpr fun e he heq => hany (List.any_eq_true.mpr ⟨e, he, ?_⟩)
        exact decide_eq_true ((of_decide_eq_true heq).trans hpq.symm)
      simp [hnone, hpq]
    · simp [hpq]

theorem staged?_addCheck (g : Graph) (c : Changes) (p q : Path) (check : FileCheck) :
    (c.addCheck g p check).staged? q =
      if Path.Same p q then check.staged?.or (c.staged? q) else c.staged? q := by
  have hinv : ∀ c' : Changes, c'.staged = c.staged →
      (if check.isChanged then c'.invalidate g p else c').staged? q = c.staged? q := by
    intro c' hc'
    split <;> simp [staged?, hc']
  simp only [addCheck]
  split
  · next r hr =>
    rw [staged?_stage, hinv, hr, Option.some_or]
    rfl
  · next hr =>
    rw [hinv, hr, Option.none_or, ite_self]
    rfl

theorem staged?_foldl_addCheck (check : Path → FileCheck) {q : Path} (c : Changes)
    (hd : files.Pairwise fun p q => ¬ Path.Same p q) (hq : q ∈ files) :
    (files.foldl (fun c p => c.addCheck g p (check p)) c).staged? q =
      (check q).staged?.or (c.staged? q) := by
  induction files generalizing c with
  | nil => cases hq
  | cons p files ih =>
    obtain ⟨hp, hd⟩ := List.pairwise_cons.mp hd
    rw [List.foldl_cons]
    rcases List.mem_cons.mp hq with rfl | hq
    · have hrest : ∀ c : Changes, ∀ p ∈ files,
          (c.addCheck g p (check p)).staged? q = c.staged? q := fun c p hp' => by
        rw [staged?_addCheck, if_neg fun hs => hp p hp' hs.symm]
      rw [foldl_keeps (·.staged? q) hrest, staged?_addCheck, if_pos (Path.Same.refl q)]
    · rw [ih _ hd hq, staged?_addCheck, if_neg (hp q hq)]

/-- The staged record of a file is the one that its check stages. -/
theorem staged?_detect {q : Path} (hd : files.Pairwise fun p q => ¬ Path.Same p q)
    (hq : q ∈ files) :
    (detect digest t g missing files data).staged? q =
      (FileCheck.run digest t (data.get? q) q).staged? := by
  have h := staged?_foldl_addCheck (g := g)
    (fun p => FileCheck.run digest t (data.get? p) p) {} hd hq
  rw [staged?, detect_keeps.1, ← staged?, h]
  exact Option.or_none

theorem unreadable_addCheck (g : Graph) (c : Changes) (p : Path) (check : FileCheck) :
    (c.addCheck g p check).unreadable =
      if check.isUnreadable then Path.insert c.unreadable p else c.unreadable := by
  simp only [addCheck]
  split <;> split <;> simp

theorem memSame_unreadable_addCheck (g : Graph) (c : Changes) (p q : Path) (check : FileCheck) :
    Path.memSame q (c.addCheck g p check).unreadable = true ↔
      Path.memSame q c.unreadable = true ∨ check.isUnreadable = true ∧ Path.Same p q := by
  rw [unreadable_addCheck]
  split
  · next hu => simp [Path.memSame_insert, hu]
  · next hu => simp [hu]

theorem memSame_unreadable_foldl_addCheck (check : Path → FileCheck) (c : Changes) (q : Path) :
    Path.memSame q (files.foldl (fun c p => c.addCheck g p (check p)) c).unreadable = true ↔
      Path.memSame q c.unreadable = true ∨
        ∃ p ∈ files, (check p).isUnreadable = true ∧ Path.Same p q := by
  induction files generalizing c with
  | nil => simp
  | cons p files ih =>
    rw [List.foldl_cons, ih, memSame_unreadable_addCheck]
    simp only [List.mem_cons, exists_eq_or_imp, or_assoc]

/-- A file counts as unreadable if its check says so. -/
theorem memSame_unreadable_detect {q : Path} (hd : files.Pairwise fun p q => ¬ Path.Same p q)
    (hq : q ∈ files) :
    Path.memSame q (detect digest t g missing files data).unreadable =
      (FileCheck.run digest t (data.get? q) q).isUnreadable := by
  rw [Bool.eq_iff_iff, detect_keeps.2,
    memSame_unreadable_foldl_addCheck (g := g) fun p => FileCheck.run digest t (data.get? p) p]
  simp only [Path.not_memSame_nil, Bool.false_eq_true, false_or]
  constructor
  · rintro ⟨p, hp, hu, hs⟩
    rwa [← Path.eq_of_same hd hp hq hs]
  · exact fun hu => ⟨q, hq, hu, Path.Same.refl q⟩

/-! ## Counters -/

theorem counters_invalidate (g : Graph) (c : Changes) (p : Path) :
    (c.invalidate g p).quickSkips = c.quickSkips ∧
      (c.invalidate g p).hashComputations = c.hashComputations := by
  rw [invalidate]
  split <;> exact ⟨rfl, rfl⟩

theorem counters_addMissing (g : Graph) (data : StoreData) (c : Changes) (e : Path × List Path) :
    (c.addMissing g data e).quickSkips = c.quickSkips ∧
      (c.addMissing g data e).hashComputations = c.hashComputations := by
  simp only [addMissing]
  split
  · exact ⟨rfl, rfl⟩
  · exact counters_invalidate g _ e.1

theorem counters_addPending (g : Graph) (c : Changes) (p : Path) :
    (c.addPending g p).quickSkips = c.quickSkips ∧
      (c.addPending g p).hashComputations = c.hashComputations := by
  rw [addPending]
  split
  · exact counters_invalidate g c p
  · exact ⟨rfl, rfl⟩

theorem counters_addCheck (g : Graph) (c : Changes) (p : Path) (check : FileCheck) :
    (c.addCheck g p check).quickSkips = c.quickSkips + (if check = .current then 1 else 0) ∧
      (c.addCheck g p check).hashComputations =
        c.hashComputations + (if check.isHashed then 1 else 0) := by
  simp only [addCheck]
  split <;> split
  · exact counters_invalidate g _ p
  · exact ⟨rfl, rfl⟩
  · exact counters_invalidate g _ p
  · exact ⟨rfl, rfl⟩

theorem counters_foldl_addCheck (g : Graph) (check : Path → FileCheck) (files : List Path)
    (c : Changes) :
    (files.foldl (fun c p => c.addCheck g p (check p)) c).quickSkips =
        c.quickSkips + files.countP (fun p => check p = .current) ∧
      (files.foldl (fun c p => c.addCheck g p (check p)) c).hashComputations =
        c.hashComputations + files.countP (fun p => (check p).isHashed) := by
  induction files generalizing c with
  | nil => exact ⟨rfl, rfl⟩
  | cons p files ih =>
    obtain ⟨hskips, hhashes⟩ := counters_addCheck g c p (check p)
    obtain ⟨ihskips, ihhashes⟩ := ih (c.addCheck g p (check p))
    rw [List.foldl_cons, ihskips, ihhashes, hskips, hhashes, List.countP_cons, List.countP_cons]
    simp only [decide_eq_true_eq]
    omega

/-- The files whose time settled the check are counted. -/
theorem quickSkips_detect :
    (detect digest t g missing files data).quickSkips =
      files.countP fun p => FileCheck.run digest t (data.get? p) p = .current := by
  simp only [detect]
  rw [foldl_keeps (·.quickSkips) fun c p _ => (counters_addPending g c p).1,
    foldl_keeps (·.quickSkips) fun c e _ => (counters_addMissing g data c e).1,
    (counters_foldl_addCheck g (fun p => FileCheck.run digest t (data.get? p) p) files {}).1]
  exact Nat.zero_add _

/-- The files that were read are counted. -/
theorem hashComputations_detect :
    (detect digest t g missing files data).hashComputations =
      files.countP fun p => (FileCheck.run digest t (data.get? p) p).isHashed := by
  simp only [detect]
  rw [foldl_keeps (·.hashComputations) fun c p _ => (counters_addPending g c p).2,
    foldl_keeps (·.hashComputations) fun c e _ => (counters_addMissing g data c e).2,
    (counters_foldl_addCheck g (fun p => FileCheck.run digest t (data.get? p) p) files {}).2]
  exact Nat.zero_add _

end Detect

end Changes

end Recheck
