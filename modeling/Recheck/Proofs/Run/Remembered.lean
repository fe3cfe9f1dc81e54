import Recheck.Proofs.Run.History

/-!
# The store after a run

`store_after_run` gives the whole effect of a run on the store. With caching, the files with a
result and the failed files that could not be read have the record that their check staged, all
others have the record that they had, and a run that is not stopped forgets what is not in its
order. What is left unresolved is the change set without the results. A run that does not cache or
comes to nothing leaves the store as it is.

A record is kept under a text that shows the name of its file. What is said about the record of a
path holds for a path with a key of its own; two names that are no texts can share one.
-/

namespace Recheck

/-- The store after a run. A run that comes to nothing leaves the one that it was given. -/
def Setting.leaves (s : Setting) (v : Visit) (store : Store) : Store :=
  storeAfter store (s.after store [v])

theorem Setting.leaves_of_ok {s : Setting} {v : Visit} {store : Store} {o : RunOutcome}
    (h : s.run v store = .ok o) : s.leaves v store = o.store := by
  simp [leaves, after, extend, storeAfter, h]

theorem Setting.leaves_of_error {s : Setting} {v : Visit} {store : Store} {e : AnalysisError}
    (h : s.run v store = .error e) : s.leaves v store = store := by
  simp [leaves, after, extend, storeAfter, h]

/-- A run stores staged records, keeps the others, and forgets what is not in its order unless it is
stopped. -/
theorem Ran.get?_eq_staged_or_kept {ctx : RunContext} {config : Config} {excludes : List Glob}
    {t : FileTree} {project : Project} {store : Store} {o : RunOutcome} {plan : RunPlan}
    {workers : Workers} {taken rest : List Path}
    (h : Ran workers ctx config excludes t project store o plan taken rest) {p : Path}
    (hkey : p.OwnKey o.analysis.graph.files) :
    o.store.data.get? p =
      let check := FileCheck.run ctx.digest t (store.data.get? p) p
      if (o.analysis.resolves p = true ∨ o.analysis.fails p = true ∧ check.isUnreadable = true) ∧
          check.staged?.isSome = true then
        check.staged?
      else if o.analysis.cancelled = false ∧ Path.memSame p o.analysis.order = false then none
      else store.data.get? p := by
  have hkept : (if o.analysis.cancelled || Path.memSame p o.analysis.order then store.data.get? p
        else none) =
      if o.analysis.cancelled = false ∧ Path.memSame p o.analysis.order = false then none
      else store.data.get? p := by
    cases o.analysis.cancelled <;> cases Path.memSame p o.analysis.order <;> rfl
  rw [h.get?_eq_stored hkey, ← h.memSame_order, hkept, Analysis.stored?]
  simp only [Bool.or_eq_true, Bool.and_eq_true]
  cases (FileCheck.run ctx.digest t (store.data.get? p) p).staged? with
  | none => simp
  | some r =>
    simp only [Option.isSome_some, and_true]
    split <;> rfl

namespace Sample

/-- The files `a` and `b` were edited, `b` fails, and `c` cannot be read. There are two more files,
whose names are no texts. -/
def mixed : Visit where
  tree := tree [file "a.dart" ";" 2, file "b.dart" ";" 2,
    (["p", "lib", "c.dart"], .file [] 2 false), file "\xfe.dart" "" 3, file "\xff.dart" "" 4]
  workers := fromEnd
  resolve := failingOn (path "b.dart")
  now

/-- The store knows older versions of these files, and `d`, which is gone. -/
def mixedStore : Store :=
  [(path "a.dart", ⟨"", 1⟩), (path "b.dart", ⟨"", 1⟩), (path "c.dart", ⟨"", 1⟩),
    (path "d.dart", ⟨"", 1⟩)].foldl (fun store e => store.put e.1 e.2) Store.memory

/-- The check of a file before the run. -/
def mixedCheck (name : String) : FileCheck :=
  FileCheck.run setting.digest mixed.tree (mixedStore.data.get? (path name)) (path name)

theorem mixed_spec :
    ((setting.run mixed mixedStore).toOption.any fun o => decide (
      o.analysis.resolves (path "a.dart") = true ∧
      o.analysis.resolves (path "b.dart") = false ∧ o.analysis.fails (path "c.dart") = true ∧
      o.analysis.resolves (path "d.dart") = false ∧ o.analysis.fails (path "d.dart") = false ∧
      o.analysis.cancelled = false ∧ Path.memSame (path "b.dart") o.analysis.order = true ∧
      Path.memSame (path "d.dart") o.analysis.order = false ∧
      ∀ name ∈ ["a.dart", "b.dart", "c.dart", "d.dart"],
        (path name).OwnKey o.analysis.graph.files)) = true := by
  decide +kernel

theorem mixedCheck_spec :
    mixedCheck "a.dart" = .modified ⟨";", 2⟩ ∧ mixedCheck "b.dart" = .modified ⟨";", 2⟩ ∧
      mixedCheck "c.dart" = .unreadable ⟨"unreadable:/p/lib/c.dart", 0⟩ ∧
      mixedStore.data.get? (path "b.dart") = some ⟨"", 1⟩ := by
  decide +kernel

end Sample

/-- The key of a name that is no text names no source file, so the run forgets the record that it
has just stored under it. -/
example :
    let stray := Sample.path "\xff.dart"
    (Sample.setting.run Sample.mixed Sample.mixedStore).toOption.any (fun o =>
      o.analysis.resolves stray && (o.store.data.get? stray).isNone) = true := by
  decide +kernel

end Recheck
