import Recheck.Proofs.Run.History

/-!
# Work that is taken up again

What one run leaves undone is to count as changed in a later one. Two things carry it over: the list
of files that the run left unresolved, which only the next run reads, and the records, which a run
forgets for the files that it does not find, but only if it is not stopped.

* `unfinished_redone`: a file of the change set without a result counts as changed in the next run
  that finds it, together with all that depends on it;
* `failed_retried`: so does a file that failed, in the run after;
* `return_noticed`: a file with a directive that led to nothing counts as changed in the first run
  in which the target is there.

Each of them has an exception, in which all that is left is a record that passes for the file.
`unfinished_forgotten`, `failed_not_retried` and `return_unnoticed` are histories that fall under
it. All of them are about a file whose name is a text, and has a key of its own where records have
to tell.
-/

namespace Recheck

variable {s : Setting} {start : Store} {n c : Completed} {between h : List Completed}

/-! ## Files of the change set without a result -/

/-- A file of the change set of the run `c` that has no result there counts as changed in the next
run `n` that finds it, and so does all that depends on it. The exception: there are runs in between,
all of them were stopped, and the record that the run `c` left passes for the file. -/
theorem unfinished_redone (hcache : s.config.enableCache = true)
    (hist : s.History start (n :: (between ++ c :: h))) {f : Path} (htext : f.IsText)
    (hkey : OwnKeyIn between f) (hin : Path.memSame f c.analysis.changeSet = true)
    (hleft : Path.memSame f (c.analysis.results.map (·.path)) = false)
    (habsent : ∀ b ∈ between, b.graph.contains f = false) (hf : f ∈ n.graph.files) :
    (∀ g, g = f ∨ n.graph.DependsOn g f → Path.memSame g n.analysis.changeSet = true) ∨
      between ≠ [] ∧ (∀ b ∈ between, b.analysis.cancelled = true) ∧
        ∃ r, c.data.get? f = some r ∧ r.Passes s.digest n.tree f := by
  cases between with
  | nil =>
    -- The run `n` reads what the run `c` has left unresolved.
    obtain ⟨plan, taken, rest, ran⟩ := hist.tail.exists_ran hcache
    have hpending : Path.memSame f c.data.pendingPaths = true :=
      ran.memSame_pending htext hin hleft
    exact .inl (hist.mem_changeSet_of_pending hcache hf hpending)
  | cons b between =>
    -- What the run `c` has left unresolved is overwritten, so only the record can tell.
    refine (hist.mem_changeSet_or_passes hcache hf).imp_right fun ⟨r, hr, hpasses⟩ => ?_
    rw [hist.tail.get?_of_absent hcache hkey habsent] at hr
    split at hr
    · next hall => exact ⟨List.cons_ne_nil _ _, List.all_eq_true.mp hall, r, hr, hpasses⟩
    · cases hr

namespace Sample

/-- The file `a` refers to `d`. It fails once `d` has been edited, and the run after that, which may
be stopped, does not find it. Then it is back as it was. -/
def vanishing (stopped : Bool) : List Visit :=
  let a := file "a.dart" "import 'd.dart';" 1
  let d := file "d.dart" "class D \x7b\x7d" 2
  [{ tree := tree [a, file "d.dart" "" 1], now },
   { tree := tree [a, d], workers := fromEnd, resolve := failingOn (path "a.dart"), now },
   { tree := tree [d], stops := fun _ => stopped, now },
   { tree := tree [a, d], now }]

theorem exists_vanishing (stopped : Bool) :
    ∃ n b c h, setting.after Store.memory (vanishing stopped) = n :: b :: c :: h ∧
      Path.memSame (path "a.dart") c.analysis.changeSet = true ∧
      Path.memSame (path "a.dart") (c.analysis.results.map (·.path)) = false ∧
      b.graph.contains (path "a.dart") = false ∧ (path "a.dart").OwnKey b.graph.files ∧
      path "a.dart" ∈ n.graph.files ∧ b.analysis.cancelled = stopped ∧
      Path.memSame (path "a.dart") n.analysis.changeSet = !stopped := by
  refine exists_three_of_decide ?_
  cases stopped <;> decide +kernel

end Sample

theorem unfinished_redone_sample :
    ∃ n b c h, Sample.setting.after Store.memory (Sample.vanishing false) = n :: b :: c :: h ∧
      Path.memSame (Sample.path "a.dart") c.analysis.changeSet = true ∧
      Path.memSame (Sample.path "a.dart") (c.analysis.results.map (·.path)) = false ∧
      b.graph.contains (Sample.path "a.dart") = false ∧ OwnKeyIn [b] (Sample.path "a.dart") ∧
      b.analysis.cancelled = false ∧ Sample.path "a.dart" ∈ n.graph.files ∧
      ∀ g, g = Sample.path "a.dart" ∨ n.graph.DependsOn g (Sample.path "a.dart") →
        Path.memSame g n.analysis.changeSet = true := by
  obtain ⟨n, b, c, h, hruns, hin, hleft, habsent, hkey, hf, hfinished, -⟩ :=
    Sample.exists_vanishing false
  have hkeys : OwnKeyIn [b] (Sample.path "a.dart") := List.forall_mem_singleton.mpr hkey
  have hist : Sample.setting.History Store.memory (n :: ([b] ++ c :: h)) :=
    hruns ▸ Sample.setting.history_after Store.memory (Sample.vanishing false)
  refine ⟨n, b, c, h, hruns, hin, hleft, habsent, hkeys, hfinished, hf, ?_⟩
  have hredone := unfinished_redone rfl hist hkey.isText hkeys hin hleft (by simpa using habsent) hf
  refine hredone.resolve_right fun ⟨_, hstopped, _⟩ => ?_
  rw [hstopped b List.mem_cons_self] at hfinished
  cases hfinished

/-- A file of the change set without a result can be forgotten. A run that does not find the file
drops it from what was left unresolved, and if that run is stopped, the old record stays. -/
theorem unfinished_forgotten :
    ∃ n b c h, Sample.setting.after Store.memory (Sample.vanishing true) = n :: b :: c :: h ∧
      Path.memSame (Sample.path "a.dart") c.analysis.changeSet = true ∧
      Path.memSame (Sample.path "a.dart") (c.analysis.results.map (·.path)) = false ∧
      b.graph.contains (Sample.path "a.dart") = false ∧ Sample.path "a.dart" ∈ n.graph.files ∧
      Path.memSame (Sample.path "a.dart") n.analysis.changeSet = false := by
  obtain ⟨n, b, c, h, hruns, hin, hleft, habsent, -, hf, -, hout⟩ := Sample.exists_vanishing true
  exact ⟨n, b, c, h, hruns, hin, hleft, habsent, hf, hout⟩

/-! ## Files that failed -/

/-- A file that failed in the run `c` counts as changed in the next run `n` if that finds it, and so
does all that depends on it. The exception: the file was not in the change set of the run `c`, and
the record that is left of it passes. -/
theorem failed_retried (hcache : s.config.enableCache = true)
    (hist : s.History start (n :: c :: h)) {f : Path} (htext : f.IsText)
    (hfailed : Path.memSame f (c.analysis.failures.map (·.1)) = true) (hf : f ∈ n.graph.files) :
    (∀ g, g = f ∨ n.graph.DependsOn g f → Path.memSame g n.analysis.changeSet = true) ∨
      Path.memSame f c.analysis.changeSet = false ∧
        ∃ r, c.data.get? f = some r ∧ r.Passes s.digest n.tree f := by
  obtain ⟨plan, taken, rest, ran⟩ := hist.tail.exists_ran hcache
  cases hin : Path.memSame f c.analysis.changeSet with
  | true =>
    have hpending : Path.memSame f c.data.pendingPaths = true :=
      ran.memSame_pending htext hin (ran.not_memSame_results_of_failures hfailed)
    exact .inl (hist.mem_changeSet_of_pending hcache hf hpending)
  | false => exact (hist.mem_changeSet_or_passes hcache hf).imp_right fun hr => ⟨rfl, hr⟩

namespace Sample

/-- The file `b` refers to `a`. One of the two is edited, and then `a` fails. -/
def failing (edited : Bool) : List Visit :=
  let a := file "a.dart" "" 1
  let b := file "b.dart" "import 'a.dart';" 1
  let next :=
    if edited then tree [file "a.dart" "class A \x7b\x7d" 2, b]
    else tree [a, file "b.dart" "import 'a.dart';class B extends A \x7b\x7d" 2]
  [{ tree := tree [a, b], now },
   { tree := next, resolve := failingOn (path "a.dart"), now },
   { tree := next, workers := fromEnd, now }]

theorem exists_failing (edited : Bool) :
    ∃ n c m h, setting.after Store.memory (failing edited) = n :: c :: m :: h ∧
      Path.memSame (path "a.dart") (c.analysis.failures.map (·.1)) = true ∧
      Path.memSame (path "a.dart") c.analysis.changeSet = edited ∧
      (path "a.dart").IsText ∧ path "a.dart" ∈ n.graph.files ∧
      Path.memSame (path "a.dart") n.analysis.changeSet = edited := by
  refine exists_three_of_decide ?_
  cases edited <;> decide +kernel

end Sample

theorem failed_retried_sample :
    ∃ n c h, Sample.setting.after Store.memory (Sample.failing true) = n :: c :: h ∧
      Path.memSame (Sample.path "a.dart") (c.analysis.failures.map (·.1)) = true ∧
      (Sample.path "a.dart").IsText ∧ Sample.path "a.dart" ∈ n.graph.files ∧
      ∀ g, g = Sample.path "a.dart" ∨ n.graph.DependsOn g (Sample.path "a.dart") →
        Path.memSame g n.analysis.changeSet = true := by
  obtain ⟨n, c, m, h, hruns, hfailed, hin, htext, hf, -⟩ := Sample.exists_failing true
  have hist : Sample.setting.History Store.memory (n :: c :: m :: h) :=
    hruns ▸ Sample.setting.history_after Store.memory (Sample.failing true)
  refine ⟨n, c, m :: h, hruns, hfailed, htext, hf, ?_⟩
  refine (failed_retried rfl hist htext hfailed hf).resolve_right fun ⟨hout, _⟩ => ?_
  rw [hin] at hout
  cases hout

/-- A file that fails while it is not in the change set need not count as changed in the next run:
its record from before the failure passes. -/
theorem failed_not_retried :
    ∃ n c h, Sample.setting.after Store.memory (Sample.failing false) = n :: c :: h ∧
      Path.memSame (Sample.path "a.dart") (c.analysis.failures.map (·.1)) = true ∧
      Sample.path "a.dart" ∈ n.graph.files ∧
      Path.memSame (Sample.path "a.dart") n.analysis.changeSet = false := by
  obtain ⟨n, c, m, h, hruns, hfailed, -, -, hf, hout⟩ := Sample.exists_failing false
  exact ⟨n, c, m :: h, hruns, hfailed, hf, hout⟩

/-! ## Targets that come back -/

/-- A directive of the file `a` leads to `x`, which the run `c` and the runs after it do not find.
In the next run `n`, which finds `x`, the file `a` counts as changed if it has the same content. The
exception: the run `c` and those after it were all stopped, the last of them did not leave `a`
unresolved, and the record that `x` had before them passes for it. -/
theorem return_noticed (hcache : s.config.enableCache = true)
    (hist : s.History start (n :: (between ++ c :: h))) {a x target : Path}
    (hkey : OwnKeyIn (between ++ [c]) x)
    (hrefers : RefersTo c.tree s.project a target) (hsame : Path.Same target x)
    (habsent : ∀ b ∈ between ++ [c], b.graph.contains x = false) (hx : x ∈ n.graph.files)
    (ha : a ∈ n.graph.files) (hcontent : c.tree.content? a = n.tree.content? a) :
    Path.memSame a n.analysis.changeSet = true ∨
      (∀ b ∈ between ++ [c], b.analysis.cancelled = true) ∧
        Path.memSame a (storeAfter start (between ++ c :: h)).data.pendingPaths = false ∧
        ∃ r, (storeAfter start h).data.get? x = some r ∧ r.Passes s.digest n.tree x := by
  cases hpending : Path.memSame a (storeAfter start (between ++ c :: h)).data.pendingPaths with
  | true => exact .inl (hist.mem_changeSet_of_pending hcache ha hpending a (.inl rfl))
  | false =>
    have hneeds : n.graph.Needs a x := by
      obtain ⟨plan, taken, rest, ran⟩ := hist.exists_ran hcache
      exact ran.needs_iff.mpr ⟨ha, hx, target, (RefersTo.congr hcontent).mp hrefers, hsame⟩
    rcases hist.mem_changeSet_or_passes hcache hx with hchanged | ⟨r, hr, hpasses⟩
    · exact .inl (hchanged a (.inr (.single hneeds)))
    · have htail : s.History start ((between ++ [c]) ++ h) := by
        simpa using hist.tail
      rw [List.append_cons, htail.get?_of_absent hcache hkey habsent] at hr
      split at hr
      · next hall => exact .inr ⟨List.all_eq_true.mp hall, rfl, r, hr, hpasses⟩
      · cases hr

namespace Sample

/-- The file `a` refers to `x`, which is deleted and comes back as it was. The run in between may be
stopped after a file. -/
def returning (stopped : Bool) : List Visit :=
  let a := file "a.dart" "import 'x.dart';" 1
  let x := file "x.dart" "" 1
  let z := file "z.dart" "" 1
  [{ tree := tree [a, x, z], now },
   { tree := tree [a, z], stops := fun attempted => stopped && !attempted.isEmpty, now },
   { tree := tree [a, x, z], now }]

theorem exists_returning (stopped : Bool) :
    ∃ n c m h, setting.after Store.memory (returning stopped) = n :: c :: m :: h ∧
      c.analysis.resolves (path "a.dart") = true ∧
      path "x.dart" ∈
        (fileReferences c.tree setting.project c.graph.files (path "a.dart")).missing ∧
      (path "x.dart").OwnKey c.graph.files ∧ c.analysis.cancelled = stopped ∧
      path "x.dart" ∈ n.graph.files ∧ path "a.dart" ∈ n.graph.files ∧
      c.tree.content? (path "a.dart") = n.tree.content? (path "a.dart") ∧
      Path.memSame (path "a.dart") n.analysis.changeSet = !stopped := by
  refine exists_three_of_decide ?_
  cases stopped <;> decide +kernel

end Sample

theorem return_noticed_sample :
    ∃ n c h, Sample.setting.after Store.memory (Sample.returning false) = n :: c :: h ∧
      RefersTo c.tree Sample.setting.project (Sample.path "a.dart") (Sample.path "x.dart") ∧
      c.graph.contains (Sample.path "x.dart") = false ∧ OwnKeyIn [c] (Sample.path "x.dart") ∧
      c.analysis.cancelled = false ∧
      Sample.path "x.dart" ∈ n.graph.files ∧ Sample.path "a.dart" ∈ n.graph.files ∧
      c.tree.content? (Sample.path "a.dart") = n.tree.content? (Sample.path "a.dart") ∧
      Path.memSame (Sample.path "a.dart") n.analysis.changeSet = true := by
  obtain ⟨n, c, m, h, hruns, -, hmissing, hkey, hfinished, hx, ha, hcontent, -⟩ :=
    Sample.exists_returning false
  have hkeys : OwnKeyIn [c] (Sample.path "x.dart") := List.forall_mem_singleton.mpr hkey
  have hist : Sample.setting.History Store.memory (n :: ([] ++ c :: m :: h)) :=
    hruns ▸ Sample.setting.history_after Store.memory (Sample.returning false)
  obtain ⟨hrefers, habsent⟩ := mem_missing_iff.mp hmissing
  rw [← Graph.contains_eq_memSame] at habsent
  refine ⟨n, c, m :: h, hruns, hrefers, habsent, hkeys, hfinished, hx, ha, hcontent, ?_⟩
  have hnoticed := return_noticed rfl hist hkeys hrefers (Path.Same.refl _)
    (by simpa using habsent) hx ha hcontent
  refine hnoticed.resolve_right fun ⟨hstopped, _⟩ => ?_
  rw [hstopped c (by simp)] at hfinished
  cases hfinished

/-- The return of a target can go unnoticed by a file that was resolved without it. If the runs in
between are stopped, the old record of the target stays, and it passes. -/
theorem return_unnoticed :
    ∃ n c h, Sample.setting.after Store.memory (Sample.returning true) = n :: c :: h ∧
      c.analysis.resolves (Sample.path "a.dart") = true ∧
      Sample.path "x.dart" ∈ (fileReferences c.tree Sample.setting.project c.graph.files
        (Sample.path "a.dart")).missing ∧
      Sample.path "x.dart" ∈ n.graph.files ∧ Sample.path "a.dart" ∈ n.graph.files ∧
      c.tree.content? (Sample.path "a.dart") = n.tree.content? (Sample.path "a.dart") ∧
      Path.memSame (Sample.path "a.dart") n.analysis.changeSet = false := by
  obtain ⟨n, c, m, h, hruns, hresolves, hmissing, -, -, hx, ha, hcontent, hout⟩ :=
    Sample.exists_returning true
  exact ⟨n, c, m :: h, hruns, hresolves, hmissing, hx, ha, hcontent, hout⟩

end Recheck
