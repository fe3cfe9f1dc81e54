import Recheck.Proofs.Graph.Schedule
import Recheck.Proofs.Run.History
import Recheck.Proofs.Warnings

/-!
# Which inherited types are found

A declaration may inherit from types that its file declares and from types that a file attempted
before declares; a warning is given for every other one, and for no more
(`unresolved_supertype_iff`). So what counts is which files are attempted before. These are all that
the file reaches through needs that are not part of a cycle; a file on no cycle also finds what it
reaches through a cycle, unless that lies in a later layer. `unresolved_supertype_across_cycle` is a
project in which it does.
-/

namespace Recheck

/-! ## Symbols -/

/-- The result declares a name. -/
def FileResult.Declares (r : FileResult) (name : String) : Prop :=
  ∃ d ∈ r.declarations, d.name = name

instance (r : FileResult) (name : String) : Decidable (r.Declares name) :=
  inferInstanceAs (Decidable (∃ d ∈ r.declarations, d.name = name))

namespace Progress

variable {ctx : RunContext} {t : FileTree} {changes : Changes}

/-- The names that are known are those that a result declares. -/
def Registered (s : Progress) : Prop :=
  ∀ name, s.symbols.contains name = true ↔ ∃ r ∈ s.results, r.Declares name

theorem Registered.attempt {s : Progress} (h : s.Registered) (p : Path) :
    (s.attempt ctx t changes p).Registered := by
  intro name
  cases hr : ctx.resolve t p s.symbols with
  | error e => rw [attempt_of_error hr]; exact h name
  | ok analysis =>
    rw [attempt_of_ok hr]
    simp only [SymbolTable.contains_registerFile, h name, List.mem_append, List.mem_singleton,
      or_and_right, exists_or, exists_eq_left, FileResult.Declares]

theorem Registered.foldl {s : Progress} (h : s.Registered) (ps : List Path) :
    (ps.foldl (Progress.attempt ctx t changes) s).Registered := by
  induction ps generalizing s with
  | nil => exact h
  | cons p ps ih => exact ih (h.attempt p)

theorem registered_empty : Registered {} := fun name => by
  simp [SymbolTable.contains, SymbolTable.empty, Table.contains_eq_isSome]

/-! ## Results -/

theorem results_subset_foldl (s : Progress) (ps : List Path) :
    s.results ⊆ (ps.foldl (attempt ctx t changes) s).results := by
  induction ps generalizing s with
  | nil => exact fun _ hr => hr
  | cons p ps ih =>
    refine fun r hr => ih _ ?_
    cases h : ctx.resolve t p s.symbols with
    | error e => rw [attempt_of_error h]; exact hr
    | ok analysis => rw [attempt_of_ok h]; exact List.mem_append_left _ hr

/-- A new result comes from resolving its file against what was known before it. -/
theorem exists_resolve_of_mem_results {s : Progress} {ps : List Path} {r : FileResult}
    (hr : r ∈ (ps.foldl (attempt ctx t changes) s).results) :
    r ∈ s.results ∨ ∃ before after analysis, ps = before ++ r.path :: after ∧
      ctx.resolve t r.path (before.foldl (attempt ctx t changes) s).symbols = .ok analysis ∧
      r.declarations = analysis.declarations ∧
      ∃ shadowed : List (String × Path), r.diagnostics = analysis.diagnostics ++
        shadowed.map fun (name, q) => Diagnostic.alsoDeclared name q := by
  induction ps generalizing s with
  | nil => exact .inl hr
  | cons p ps ih =>
    rw [List.foldl_cons] at hr
    rcases ih hr with hs | ⟨before, after, analysis, rfl, h⟩
    · cases hres : ctx.resolve t p s.symbols with
      | error e =>
        rw [attempt_of_error hres] at hs
        exact .inl hs
      | ok analysis =>
        rw [attempt_of_ok hres] at hs
        rcases List.mem_append.mp hs with hs | hs
        · exact .inl hs
        · obtain rfl := List.mem_singleton.mp hs
          exact .inr ⟨[], ps, analysis, rfl, hres, rfl, _, rfl⟩
    · exact .inr ⟨p :: before, after, analysis, rfl, h⟩

end Progress

/-! ## Warnings -/

section Warnings

variable {ctx : RunContext} {config : Config} {excludes : List Glob} {t : FileTree}
  {project : Project} {store : Store} {o : RunOutcome} {plan : RunPlan} {taken rest : List Path}

theorem Attempted.schedule_eq
    (h : Attempted .one ctx config excludes t project store o plan taken rest) :
    o.analysis.layers.flatten = taken ++ rest := by
  rw [← h.schedule, plan.scheduleFor_one, h.analysis]
  rfl

/-- The names known when a file is attempted are those that the results before it declare. -/
theorem Attempted.contains_symbols_iff
    (h : Attempted .one ctx config excludes t project store o plan taken rest)
    {before after : List Path} {p : Path} (htaken : taken = before ++ p :: after) (name : String) :
    (before.foldl (Progress.attempt ctx t plan.changes) {}).symbols.contains name = true ↔
      ∃ q ∈ o.analysis.results, Precedes o.analysis.layers.flatten q.path p ∧ q.Declares name := by
  have hschedule : o.analysis.layers.flatten = before ++ p :: (after ++ rest) := by
    rw [h.schedule_eq, htaken, List.append_assoc, List.cons_append]
  have hnodup : (before ++ p :: (after ++ rest)).Nodup := by
    have := h.made.nodup_scheduleFor .one
    rwa [h.schedule, ← h.schedule_eq, hschedule] at this
  have hresults : ∀ q, q ∈ o.analysis.results ↔
      q ∈ ((p :: after).foldl (Progress.attempt ctx t plan.changes)
        (before.foldl (Progress.attempt ctx t plan.changes) {})).results := by
    intro q
    rw [← List.foldl_append, ← htaken, h.analysis, Progress.analysis, mem_sortBy]
  rw [Progress.registered_empty.foldl before name, hschedule]
  simp only [precedes_iff_mem hnodup, hresults]
  constructor
  · rintro ⟨q, hq, hname⟩
    refine ⟨q, Progress.results_subset_foldl _ _ hq, ?_, hname⟩
    refine (resolvable_sublist (ctx.resolve t) SymbolTable.empty before).subset ?_
    rw [← Progress.map_path_results ctx t plan.changes]
    exact List.mem_map_of_mem hq
  · rintro ⟨q, hq, hbefore, hname⟩
    refine ⟨q, (Progress.exists_resolve_of_mem_results hq).resolve_right ?_, hname⟩
    rintro ⟨before', after', -, heq, -⟩
    have hlater : q.path ∈ p :: (after ++ rest) := by
      rw [← List.cons_append, heq]
      simp
    exact (List.nodup_append.mp hnodup).2.2 q.path hbefore q.path hlater rfl

/-- A warning for a type stands for a declaration exactly if a declaration of that name and line
inherits from the type, and the type is declared neither in the file nor in a result before it. -/
theorem Attempted.warns_iff
    (h : Attempted .one ctx config excludes t project store o plan taken rest)
    (hresolve : ctx.resolve = resolveFile) {r : FileResult} (hr : r ∈ o.analysis.results)
    {d : Declaration} (hd : d ∈ r.declarations) (type : String) :
    Diagnostic.unresolvedSupertype type d ∈ r.diagnostics ↔
      (∃ d' ∈ r.declarations, d'.name = d.name ∧ d'.line = d.line ∧ type ∈ d'.supertypes) ∧
        ¬ r.Declares type ∧
        ∀ q ∈ o.analysis.results, Precedes o.analysis.layers.flatten q.path r.path →
          ¬ q.Declares type := by
  have hr' : r ∈ (taken.foldl (Progress.attempt ctx t plan.changes) {}).results := by
    rwa [h.analysis, Progress.analysis, mem_sortBy] at hr
  obtain ⟨before, after, analysis, htaken, hok, hdecl, shadowed, hdiag⟩ :=
    (Progress.exists_resolve_of_mem_results hr').resolve_left (by simp)
  rw [hresolve] at hok
  obtain ⟨hwarnings, hscanned⟩ := resolveFile_eq_ok hok
  have hknown := h.contains_symbols_iff htaken type
  rw [hdiag, List.mem_append, hwarnings, mem_unresolvedSupertypes, ← hdecl]
  rw [← hdecl] at hscanned
  constructor
  · rintro (⟨d', hd', type', ht, hhere, hbefore, heq⟩ | halso)
    · obtain ⟨rfl, hname, hline⟩ :=
        Diagnostic.unresolvedSupertype_inj (hscanned d hd).name (hscanned d' hd').name heq
      refine ⟨⟨d', hd', hname.symm, hline.symm, ht⟩, ?_, fun q hq hprec hname => ?_⟩
      · rintro ⟨e, he, hname⟩
        exact hhere e he hname
      · rw [hknown.mpr ⟨q, hq, hprec, hname⟩] at hbefore
        cases hbefore
    · obtain ⟨⟨name, q⟩, -, heq⟩ := List.mem_map.mp halso
      exact absurd heq (Diagnostic.alsoDeclared_ne_unresolvedSupertype name q type d)
  · rintro ⟨⟨d', hd', hname, hline, ht⟩, hhere, hbefore⟩
    refine .inl ⟨d', hd', type, ht, fun e he hname => hhere ⟨e, he, hname⟩, ?_, ?_⟩
    · refine Bool.eq_false_iff.mpr fun hyes => ?_
      obtain ⟨q, hq, hprec, hdeclares⟩ := hknown.mp hyes
      exact hbefore q hq hprec hdeclares
    · simp only [Diagnostic.unresolvedSupertype, hname, hline]

end Warnings

/-- For every result: a warning about an inherited type is given exactly if the type is declared
neither in the file nor in a result before it. Before a file comes all that it reaches through needs
that are not part of a cycle. What a file on no cycle reaches in another way comes before it unless
it lies in a later layer. -/
theorem unresolved_supertype_iff {ctx : RunContext} {config : Config} {excludes : List Glob}
    {t : FileTree} {project : Project} {store : Store} {o : RunOutcome}
    (hrun : analyzeProject ctx config excludes t project store = .ok o)
    (hresolve : ctx.resolve = resolveFile) {r : FileResult} (hr : r ∈ o.analysis.results)
    {d : Declaration} (hd : d ∈ r.declarations) (type : String) :
    (Diagnostic.unresolvedSupertype type d ∈ r.diagnostics ↔
      (∃ d' ∈ r.declarations, d'.name = d.name ∧ d'.line = d.line ∧ type ∈ d'.supertypes) ∧
        ¬ r.Declares type ∧
        ∀ q ∈ o.analysis.results, Precedes o.analysis.layers.flatten q.path r.path →
          ¬ q.Declares type) ∧
      (∀ g, Relation.TransGen o.analysis.graph.NeedsOneWay r.path g →
        Precedes o.analysis.layers.flatten g r.path) ∧
      (¬ o.analysis.graph.DependsOn r.path r.path → ∀ g, o.analysis.graph.DependsOn r.path g →
        (Precedes o.analysis.layers.flatten g r.path ↔
          ¬ Graph.EarlierLayer o.analysis.layers r.path g)) := by
  obtain ⟨plan, taken, rest, h, -⟩ := exists_attempted hrun
  have hlayers : o.analysis.layers = plan.graph.layers plan.order := by
    rw [h.analysis]
    rfl
  refine ⟨h.warns_iff hresolve hr hd type, ?_, ?_⟩
  · intro g hg
    rw [h.graph_eq] at hg
    rw [hlayers]
    exact Graph.precedes_of_needsOneWay h.made.order hg
  · intro hacyclic g hg
    rw [h.graph_eq] at hacyclic hg
    rw [hlayers]
    exact Graph.precedes_iff_of_dependsOn h.made.order hacyclic hg

/-! ## A cycle in between -/

namespace Sample

/-- The file `z.dart` needs `a.dart` through `b.dart`; these two need each other. -/
def barrel : FileTree :=
  tree [file "a.dart" "import 'b.dart';\nimport 'c.dart';\nclass A \x7b\x7d\n" 1,
    file "b.dart" "export 'a.dart';\n" 1,
    file "c.dart" "import 'b.dart';\n" 1,
    file "z.dart" "import 'b.dart';\nclass Z extends A \x7b\x7d\n" 1]

theorem barrel_spec :
    (setting.run { tree := barrel, now } Store.memory).toOption.any (fun o => decide (
      (∃ r ∈ o.analysis.results, r.path = ⟨"/p/lib/z.dart"⟩ ∧ ∃ d ∈ r.declarations,
        Diagnostic.unresolvedSupertype "A" d ∈ r.diagnostics) ∧
      (∃ q ∈ o.analysis.results, q.path = ⟨"/p/lib/a.dart"⟩ ∧ ∃ e ∈ q.declarations, e.name = "A") ∧
      o.analysis.cancelled = false ∧
      (⟨"/p/lib/z.dart"⟩, ⟨"/p/lib/b.dart"⟩) ∈ o.analysis.graph.edges ∧
      (⟨"/p/lib/b.dart"⟩, ⟨"/p/lib/a.dart"⟩) ∈ o.analysis.graph.edges ∧
      ⟨"/p/lib/z.dart"⟩ ∉ o.analysis.graph.transitiveDependents ⟨"/p/lib/z.dart"⟩)) = true := by
  decide +kernel

theorem exists_barrel_run :
    ∃ o, setting.run { tree := barrel, now } Store.memory = .ok o ∧ o.analysis.cancelled = false ∧
      ∃ r ∈ o.analysis.results, ∃ d ∈ r.declarations, ∃ q ∈ o.analysis.results,
        Diagnostic.unresolvedSupertype "A" d ∈ r.diagnostics ∧ q.Declares "A" ∧
        ¬ o.analysis.graph.DependsOn r.path r.path ∧ o.analysis.graph.DependsOn r.path q.path := by
  obtain ⟨o, hrun, ⟨r, hr, hz, d, hd, hwarns⟩, ⟨q, hq, ha, hdeclares⟩, hc, hzb, hba, hacyclic⟩ :=
    exists_ok_of_any barrel_spec
  have hneeds : o.analysis.graph.Needs r.path ⟨"/p/lib/b.dart"⟩ := hz ▸ hzb
  rw [← hz] at hacyclic
  refine ⟨o, hrun, hc, r, hr, d, hd, q, hq, hwarns, hdeclares, fun hcycle => hacyclic ?_, ?_⟩
  · exact (Graph.mem_transitiveDependents_of_mem hneeds.left_mem).mpr hcycle
  · exact .tail (.single hneeds) (ha ▸ hba)

end Sample

theorem unresolved_supertype_iff_barrel :
    ∃ o, Sample.setting.run { tree := Sample.barrel, now := Sample.now } Store.memory = .ok o ∧
      ∃ r ∈ o.analysis.results, ∃ d ∈ r.declarations,
        (Diagnostic.unresolvedSupertype "A" d ∈ r.diagnostics ↔
          (∃ d' ∈ r.declarations, d'.name = d.name ∧ d'.line = d.line ∧ "A" ∈ d'.supertypes) ∧
            ¬ r.Declares "A" ∧
            ∀ q ∈ o.analysis.results, Precedes o.analysis.layers.flatten q.path r.path →
              ¬ q.Declares "A") ∧
          (∀ g, Relation.TransGen o.analysis.graph.NeedsOneWay r.path g →
            Precedes o.analysis.layers.flatten g r.path) ∧
          (¬ o.analysis.graph.DependsOn r.path r.path → ∀ g, o.analysis.graph.DependsOn r.path g →
            (Precedes o.analysis.layers.flatten g r.path ↔
              ¬ Graph.EarlierLayer o.analysis.layers r.path g)) := by
  obtain ⟨o, hrun, -, r, hr, d, hd, -⟩ := Sample.exists_barrel_run
  exact ⟨o, hrun, r, hr, d, hd, unresolved_supertype_iff hrun rfl hr hd "A"⟩

/-- A file on no cycle can get a warning about a type that a file with a result declares, although
it depends on that file. -/
theorem unresolved_supertype_across_cycle :
    ∃ o, Sample.setting.run { tree := Sample.barrel, now := Sample.now } Store.memory = .ok o ∧
      o.analysis.cancelled = false ∧
      ∃ r ∈ o.analysis.results, ∃ d ∈ r.declarations, ∃ q ∈ o.analysis.results,
        ¬ o.analysis.graph.DependsOn r.path r.path ∧ o.analysis.graph.DependsOn r.path q.path ∧
        q.Declares "A" ∧ Diagnostic.unresolvedSupertype "A" d ∈ r.diagnostics := by
  obtain ⟨o, hrun, hc, r, hr, d, hd, q, hq, hwarns, hdeclares, hacyclic, hdepends⟩ :=
    Sample.exists_barrel_run
  exact ⟨o, hrun, hc, r, hr, d, hd, q, hq, hacyclic, hdepends, hdeclares, hwarns⟩

end Recheck
