import Recheck.Proofs.Run.Resolution
import Recheck.Proofs.Run.Stopping

/-!
# Names declared more than once

Of the files that declare a name, each one but the first is warned about the file before it, once,
and the declaration that is found in the end is the last one of the last file
(`duplicates_reported`). This follows step by step: the file that has a name when the next one is
attempted is the last one that declared it (`FindsLast.otherOwner?_eq`), so one more warning of this
kind comes with each file that declares the name (`Warned.append`).
-/

namespace Recheck

/-- The results that declare a name. -/
def declaring (name : String) (rs : List FileResult) : List FileResult :=
  rs.filter fun r => r.Declares name

theorem mem_declaring {name : String} {rs : List FileResult} {r : FileResult} :
    r ∈ declaring name rs ↔ r ∈ rs ∧ r.Declares name := by
  rw [declaring, List.mem_filter, decide_eq_true_eq]

theorem declaring_concat (name : String) (rs : List FileResult) (r : FileResult) :
    declaring name (rs ++ [r]) =
      if r.Declares name then declaring name rs ++ [r] else declaring name rs := by
  rw [declaring, List.filter_append, ← declaring, List.filter_cons, List.filter_nil]
  by_cases h : r.Declares name <;> simp [h]

/-- The last declaration of a name in the last result that has one. -/
def lastDeclared? (name : String) (rs : List FileResult) : Option Declaration :=
  (declaring name rs).getLast?.bind fun r => lastNamed? name r.declarations

/-! ## What is found -/

namespace Progress

variable {ctx : RunContext} {t : FileTree} {changes : Changes}

/-- Results hold declarations of their own file, and the last one of a name is the one that is
found. -/
structure FindsLast (s : Progress) : Prop where
  scanned : ∀ r ∈ s.results, ∀ d ∈ r.declarations, Source.Scanned r.path d
  lookup : ∀ name, s.symbols.lookup name = lastDeclared? name s.results

theorem findsLast_empty : FindsLast {} := ⟨by simp, fun _ => rfl⟩

theorem FindsLast.attempt {s : Progress} (h : s.FindsLast)
    (hresolve : ∀ p symbols analysis, ctx.resolve t p symbols = .ok analysis →
      resolveFile t p symbols = .ok analysis) (p : Path) :
    (s.attempt ctx t changes p).FindsLast := by
  cases hr : ctx.resolve t p s.symbols with
  | error e =>
    rw [attempt_of_error hr]
    exact ⟨h.scanned, h.lookup⟩
  | ok analysis =>
    obtain ⟨-, hscanned⟩ := resolveFile_eq_ok (hresolve p _ _ hr)
    rw [attempt_of_ok hr]
    refine ⟨fun r hr => ?_, fun name => ?_⟩
    · rcases List.mem_append.mp hr with hr | hr
      · exact h.scanned r hr
      · obtain rfl := List.mem_singleton.mp hr
        exact hscanned
    · rw [SymbolTable.lookup_registerFile, h.lookup, lastDeclared?, lastDeclared?, declaring_concat]
      split
      · next hdeclares =>
        rw [List.getLast?_concat, Option.bind_some]
        cases hlast : lastNamed? name analysis.declarations with
        | some d => rfl
        | none =>
          obtain ⟨d, hd, hname⟩ := hdeclares
          exact absurd hname (lastNamed?_eq_none_iff.mp hlast d hd)
      · next hdeclares =>
        have hnone : lastNamed? name analysis.declarations = none :=
          lastNamed?_eq_none_iff.mpr fun d hd hname => hdeclares ⟨d, hd, hname⟩
        rw [hnone, Option.none_or]

/-- The file that has a name is the last one that declared it. -/
theorem FindsLast.otherOwner?_eq {s : Progress} (h : s.FindsLast) {p : Path}
    (hnew : ∀ r ∈ s.results, ¬ Path.Same r.path p) (name : String) :
    s.symbols.otherOwner? name p = (declaring name s.results).getLast?.map (·.path) := by
  rw [SymbolTable.otherOwner?, h.lookup, lastDeclared?]
  cases hlast : (declaring name s.results).getLast? with
  | none => rfl
  | some q =>
    obtain ⟨hq, d, hd, hname⟩ := mem_declaring.mp (List.mem_of_getLast? hlast)
    rw [Option.bind_some, Option.map_some]
    cases hd' : lastNamed? name q.declarations with
    | none => exact absurd hname (lastNamed?_eq_none_iff.mp hd' d hd)
    | some d' =>
      have hfile : d'.file = q.path := (h.scanned q hq d' (mem_of_lastNamed? hd')).file_eq
      rw [Option.bind_some, hfile, if_neg (hnew q hq)]

end Progress

/-! ## Warnings -/

/-- The warning for a file about a name that other files have declared before it: it speaks of the
last one. -/
def warningAfter (name : String) (before : List FileResult) : List Diagnostic :=
  (before.getLast?.map fun q => Diagnostic.alsoDeclared name q.path).toList

/-- With each file that declares the name comes one more warning, but for the first one. -/
theorem length_warningAfter (name : String) (before : List FileResult) :
    before.length - 1 + (warningAfter name before).length = before.length := by
  cases before using List.reverseRecOn with
  | nil => rfl
  | append_singleton before q => simp [warningAfter]

/-- Each result that declares a name is warned of the result before it that declares the name, and
there are no other such warnings. -/
structure Warned (name : String) (rs : List FileResult) : Prop where
  each : ∀ before r after, declaring name rs = before ++ r :: after →
    r.diagnostics.filter (·.alsoDeclares name) = warningAfter name before
  count : (rs.flatMap (·.diagnostics)).countP (·.alsoDeclares name) = (declaring name rs).length - 1

theorem warned_nil (name : String) : Warned name [] := ⟨by simp [declaring], rfl⟩

theorem Warned.concat {name : String} {rs : List FileResult} {r : FileResult} (h : Warned name rs)
    (hr : r.diagnostics.filter (·.alsoDeclares name) =
      if r.Declares name then warningAfter name (declaring name rs) else []) :
    Warned name (rs ++ [r]) := by
  have hcount : r.diagnostics.countP (·.alsoDeclares name) =
      (r.diagnostics.filter (·.alsoDeclares name)).length := List.countP_eq_length_filter
  refine ⟨fun before q after heq => ?_, ?_⟩
  · rw [declaring_concat] at heq
    split at heq
    · next hdeclares =>
      rw [if_pos hdeclares] at hr
      rcases List.eq_nil_or_concat after with rfl | ⟨after, q', rfl⟩
      · obtain ⟨rfl, hq⟩ := List.append_inj' heq rfl
        obtain rfl := List.singleton_inj.mp hq
        exact hr
      · rw [List.concat_eq_append, ← List.cons_append, ← List.append_assoc] at heq
        exact h.each before q after (List.append_inj' heq rfl).1
    · exact h.each before q after heq
  · rw [List.flatMap_append, List.countP_append, h.count, List.flatMap_singleton, hcount, hr,
      declaring_concat]
    split
    · rw [length_warningAfter, List.length_append]
      rfl
    · rw [List.length_nil, Nat.add_zero]

/-- The warnings of one file about a name. -/
theorem filter_diagnostics {symbols : SymbolTable} {ds : List Declaration} {p : Path}
    (hds : ∀ d ∈ ds, Source.Scanned p d) {name : String} (hname : PlainName name) :
    (unresolvedSupertypes ds symbols ++
        (symbols.registerFile ds).2.map fun e => Diagnostic.alsoDeclared e.1 e.2).filter
          (·.alsoDeclares name) =
      if ∃ d ∈ ds, d.name = name then
        ((symbols.otherOwner? name p).map fun q => Diagnostic.alsoDeclared name q).toList
      else [] := by
  have hsupertypes : (unresolvedSupertypes ds symbols).filter (·.alsoDeclares name) = [] := by
    refine List.filter_eq_nil_iff.mpr fun m hm => ?_
    obtain ⟨d, -, type, -, -, -, rfl⟩ := mem_unresolvedSupertypes.mp hm
    simp [Diagnostic.alsoDeclares_unresolvedSupertype]
  have hshadowed : (symbols.registerFile ds).2.filter
      ((·.alsoDeclares name) ∘ fun e => Diagnostic.alsoDeclared e.1 e.2) =
        (symbols.registerFile ds).2.filter fun e => e.1 = name := by
    refine List.filter_congr fun e he => ?_
    obtain ⟨d, hd, heq⟩ := SymbolTable.exists_mem_of_mem_shadowed he
    exact Diagnostic.alsoDeclares_alsoDeclared hname (heq ▸ (hds d hd).name) e.2
  rw [List.filter_append, hsupertypes, List.nil_append, List.filter_map, hshadowed,
    SymbolTable.filter_shadowed fun d hd => (hds d hd).file_eq]
  split
  · cases symbols.otherOwner? name p <;> rfl
  · rfl

namespace Progress

variable {ctx : RunContext} {t : FileTree} {changes : Changes}
  (hresolve : ∀ p symbols analysis, ctx.resolve t p symbols = .ok analysis →
    resolveFile t p symbols = .ok analysis)
include hresolve

theorem warned_attempt {s : Progress} (h : s.FindsLast) {p : Path}
    (hnew : ∀ r ∈ s.results, ¬ Path.Same r.path p) {name : String} (hname : PlainName name)
    (hw : Warned name s.results) : Warned name (s.attempt ctx t changes p).results := by
  cases hr : ctx.resolve t p s.symbols with
  | error e =>
    rw [attempt_of_error hr]
    exact hw
  | ok analysis =>
    obtain ⟨hdiagnostics, hscanned⟩ := resolveFile_eq_ok (hresolve p _ _ hr)
    rw [attempt_of_ok hr]
    refine hw.concat ?_
    dsimp only
    rw [hdiagnostics, filter_diagnostics hscanned hname, h.otherOwner?_eq hnew, Option.map_map]
    rfl

theorem findsLast_foldl {s : Progress} (h : s.FindsLast) (ps : List Path) :
    (ps.foldl (Progress.attempt ctx t changes) s).FindsLast := by
  induction ps generalizing s with
  | nil => exact h
  | cons p ps ih => exact ih (h.attempt hresolve p)

theorem warned_foldl {s : Progress} (h : s.FindsLast) {ps : List Path}
    (hd : (s.results.map (·.path) ++ ps).Pairwise fun p q => ¬ Path.Same p q) {name : String}
    (hname : PlainName name) (hw : Warned name s.results) :
    Warned name (ps.foldl (Progress.attempt ctx t changes) s).results := by
  induction ps generalizing s with
  | nil => exact hw
  | cons p ps ih =>
    have hnew : ∀ r ∈ s.results, ¬ Path.Same r.path p := fun r hr =>
      (List.pairwise_append.mp hd).2.2 r.path (List.mem_map_of_mem hr) p List.mem_cons_self
    refine ih (h.attempt hresolve p) (hd.sublist ?_) (warned_attempt hresolve h hnew hname hw)
    -- The file moves from the files to come to the results, or it is dropped.
    cases hr : ctx.resolve t p s.symbols with
    | error e =>
      rw [attempt_of_error hr]
      exact (List.sublist_cons_self p ps).append_left _
    | ok analysis =>
      rw [attempt_of_ok hr, List.map_append, List.append_assoc]
      exact .refl _

end Progress

/-! ## The run -/

namespace Analysis

/-- The results in the order in which the files were attempted, one layer after the other. -/
def resultsInOrder (a : Analysis) : List FileResult :=
  a.layers.flatten.filterMap fun p => a.results.find? fun r => r.path = p

/-- What a run says of the declarations of a name. -/
structure ReportsDuplicates (a : Analysis) (name : String) : Prop where
  /-- The name is known exactly if a result declares it. -/
  contains : a.symbols.contains name = true ↔ ∃ r ∈ a.results, r.Declares name
  /-- What is found is the last declaration in the last result that has one. -/
  lookup : a.symbols.lookup name = lastDeclared? name a.resultsInOrder
  /-- Of the results that declare the name, each one but the first has one warning, which speaks of
  the one before it. -/
  warned : ∀ before r after, declaring name a.resultsInOrder = before ++ r :: after →
    r.diagnostics.filter (·.alsoDeclares name) = warningAfter name before
  /-- There are no more warnings about a name that is declared. -/
  count : (∃ r ∈ a.results, r.Declares name) →
    (a.results.flatMap (·.diagnostics)).countP (·.alsoDeclares name) =
      (declaring name a.results).length - 1

end Analysis

theorem find?_path_eq_some_iff {rs : List FileResult} (hd : (rs.map (·.path)).Nodup)
    {p : Path} {r : FileResult} :
    rs.find? (fun r => r.path = p) = some r ↔ r ∈ rs ∧ r.path = p := by
  constructor
  · exact fun h => ⟨List.mem_of_find?_eq_some h, by simpa using List.find?_some h⟩
  · rintro ⟨hr, rfl⟩
    cases h : rs.find? fun q => q.path = r.path with
    | none => exact absurd (List.find?_eq_none.mp h r hr) (by simp)
    | some q =>
      have hq : q.path = r.path := by simpa using List.find?_some h
      rw [List.inj_on_of_nodup_map hd (List.mem_of_find?_eq_some h) hr hq]

/-- Looking up the result of each file gives the results in the order of the files. -/
theorem filterMap_find?_path {rs : List FileResult} {ps : List Path} (hd : ps.Nodup)
    (hsub : (rs.map (·.path)).Sublist ps) :
    ps.filterMap (fun p => rs.find? fun r => r.path = p) = rs := by
  induction ps generalizing rs with
  | nil =>
    obtain rfl : rs = [] := by simpa using hsub
    rfl
  | cons p ps ih =>
    obtain ⟨hp, hps⟩ := List.nodup_cons.mp hd
    cases rs with
    | nil => simp
    | cons r rs =>
      by_cases hr : r.path = p
      · subst hr
        have hfound : ∀ q ∈ ps, (r :: rs).find? (fun r => r.path = q) =
            rs.find? fun r => r.path = q := by
          intro q hq
          have hne : r.path ≠ q := fun heq => hp (heq ▸ hq)
          simp [hne]
        have hhead : (r :: rs).find? (fun q => q.path = r.path) = some r :=
          List.find?_cons_of_pos (decide_eq_true rfl)
        simp only [List.filterMap_cons, hhead]
        rw [List.filterMap_congr hfound, ih hps (List.cons_sublist_cons.mp hsub)]
      · have hsub' := List.Sublist.of_cons_of_ne hr hsub
        have hnone : (r :: rs).find? (fun r => r.path = p) = none := by
          refine List.find?_eq_none.mpr fun q hq heq => hp (hsub'.subset ?_)
          exact List.mem_map.mpr ⟨q, hq, by simpa using heq⟩
        simp only [List.filterMap_cons, hnone]
        exact ih hps hsub'

section

variable {ctx : RunContext} {config : Config} {excludes : List Glob} {t : FileTree}
  {project : Project} {store : Store} {o : RunOutcome} {plan : RunPlan} {taken rest : List Path}

theorem Attempted.resultsInOrder_eq
    (h : Attempted .one ctx config excludes t project store o plan taken rest) :
    o.analysis.resultsInOrder =
      (taken.foldl (Progress.attempt ctx t plan.changes) {}).results := by
  have hnodup := h.made.nodup_scheduleFor .one
  rw [h.schedule] at hnodup
  have hsub : ((taken.foldl (Progress.attempt ctx t plan.changes) {}).results.map
      (·.path)).Sublist (taken ++ rest) := by
    rw [Progress.map_path_results]
    exact (resolvable_sublist _ _ _).trans (List.sublist_append_left taken rest)
  have hpaths := hsub.nodup hnodup
  have hfind : ∀ p, o.analysis.results.find? (fun r => r.path = p) =
      (taken.foldl (Progress.attempt ctx t plan.changes) {}).results.find?
        fun r => r.path = p := by
    intro p
    refine Option.ext fun r => ?_
    rw [find?_path_eq_some_iff ((h.results_perm.map _).nodup_iff.mpr hpaths),
      find?_path_eq_some_iff hpaths, h.results_perm.mem_iff]
  rw [Analysis.resultsInOrder, h.schedule_eq, funext hfind, filterMap_find?_path hnodup hsub]

end

/-- A name that several files declare is reported for each of them but the first, and the last
declaration is the one found. This holds for runs that are stopped, and for runs in which files fail
for other reasons than their content. -/
theorem duplicates_reported {ctx : RunContext} {config : Config} {excludes : List Glob}
    {t : FileTree} {project : Project} {store : Store} {o : RunOutcome}
    (hresolve : ∀ p symbols analysis, ctx.resolve t p symbols = .ok analysis →
      resolveFile t p symbols = .ok analysis)
    (hrun : analyzeProject ctx config excludes t project store = .ok o) :
    o.analysis.resultsInOrder.Perm o.analysis.results ∧
      (o.analysis.resultsInOrder.map (·.path)).Pairwise (fun p q => ¬ Path.Same p q) ∧
      ∀ name, o.analysis.ReportsDuplicates name := by
  obtain ⟨plan, taken, rest, h, -⟩ := exists_attempted hrun
  have horder := h.resultsInOrder_eq
  have hperm : o.analysis.resultsInOrder.Perm o.analysis.results := by
    rw [horder]
    exact h.results_perm.symm
  have hfinds : (taken.foldl (Progress.attempt ctx t plan.changes) {}).FindsLast :=
    Progress.findsLast_foldl hresolve Progress.findsLast_empty taken
  -- Names with a backquote, of which warnings could not be told apart, are declared nowhere.
  have hwarned : ∀ name, ∀ r ∈ o.analysis.results, r.Declares name →
      Warned name o.analysis.resultsInOrder := by
    rintro name r hr ⟨d, hd, rfl⟩
    have hname := (hfinds.scanned r (h.results_perm.mem_iff.mp hr) d hd).name
    rw [horder]
    exact Progress.warned_foldl hresolve Progress.findsLast_empty h.pairwise_taken hname
      (warned_nil d.name)
  refine ⟨hperm, ?_, fun name => ⟨?_, ?_, ?_, ?_⟩⟩
  · rw [horder, Progress.map_path_results]
    exact h.pairwise_taken.sublist (resolvable_sublist _ _ _)
  · rw [h.symbols_eq, Progress.registered_empty.foldl taken name]
    simp only [h.results_perm.mem_iff]
  · rw [h.symbols_eq, hfinds.lookup, horder]
  · intro before r after heq
    have hr : r ∈ declaring name o.analysis.resultsInOrder := by simp [heq]
    obtain ⟨hr, hdeclares⟩ := mem_declaring.mp hr
    exact (hwarned name r (hperm.mem_iff.mp hr) hdeclares).each before r after heq
  · rintro ⟨r, hr, hdeclares⟩
    have hcount := (hwarned name r hr hdeclares).count
    have hlength : (declaring name o.analysis.resultsInOrder).length =
        (declaring name o.analysis.results).length := (hperm.filter _).length_eq
    rwa [(hperm.flatMap_right _).countP_eq, hlength] at hcount

namespace Sample

theorem resolveFile_of_failingOn {q : Path} {t : FileTree} (p : Path) (symbols : SymbolTable)
    (analysis : FileAnalysis) (h : failingOn q t p symbols = .ok analysis) :
    resolveFile t p symbols = .ok analysis := by
  rw [failingOn] at h
  split at h
  · cases h
  · exact h

/-- All five files declare `A`, the second one twice. The third one fails, and the run stops before
the last one. -/
def repeated : Visit where
  tree := tree [file "a.dart" "class A \x7b\x7d\n" 1,
    file "b.dart" "class A \x7b\x7d\nmixin A \x7b\x7d\n" 1, file "c.dart" "class A \x7b\x7d\n" 1,
    file "d.dart" "class A \x7b\x7d\n" 1, file "e.dart" "class A \x7b\x7d\n" 1]
  resolve := failingOn (path "c.dart")
  stops done := done.length == 4
  now

theorem repeated_spec :
    (setting.run repeated Store.memory).toOption.any (fun o => decide (
      o.analysis.cancelled = true ∧ o.analysis.failures.map (·.1) = [path "c.dart"] ∧
      (declaring "A" o.analysis.resultsInOrder).map (·.path) =
        [path "a.dart", path "b.dart", path "d.dart"])) = true := by
  decide +kernel

end Sample

theorem duplicates_reported_repeated :
    ∃ o, Sample.setting.run Sample.repeated Store.memory = .ok o ∧ o.analysis.cancelled = true ∧
      o.analysis.failures.map (·.1) = [Sample.path "c.dart"] ∧
      (declaring "A" o.analysis.resultsInOrder).map (·.path) =
        [Sample.path "a.dart", Sample.path "b.dart", Sample.path "d.dart"] ∧
      o.analysis.resultsInOrder.Perm o.analysis.results ∧
      (o.analysis.resultsInOrder.map (·.path)).Pairwise (fun p q => ¬ Path.Same p q) ∧
      ∀ name, o.analysis.ReportsDuplicates name := by
  obtain ⟨o, hrun, hcancelled, hfailures, hdeclaring⟩ := exists_ok_of_any Sample.repeated_spec
  exact ⟨o, hrun, hcancelled, hfailures, hdeclaring,
    duplicates_reported Sample.resolveFile_of_failingOn hrun⟩

end Recheck
