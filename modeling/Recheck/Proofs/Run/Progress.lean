import Recheck.Analysis.Progress
import Mathlib.Data.List.Perm.Basic

/-!
# The progress of a run

A run attempts a part of its schedule from the start, and all of it unless it is told to stop
(`attemptAll_eq`, `StopsAfter`). Each file attempted resolves or fails (`paths_foldl_attempt`).
Which files resolve depends on the files before them and on how files resolve, not on what has
changed (`results_foldl_attempt`, where `resolvable` lists them). So the files that resolve in the
first part of a schedule are those of it that resolve in all of it (`mem_resolvable_append_left`),
and if the files before a file have no say in whether it resolves, the order of the schedule has
none either (`mem_resolvable_iff`).
-/

namespace Recheck

/-! ## Files that resolve -/

/-- The files that resolve when they are attempted one after the other. -/
def resolvable (resolve : Path → SymbolTable → Except FileError FileAnalysis) :
    SymbolTable → List Path → List Path
  | _, [] => []
  | symbols, p :: ps =>
    match resolve p symbols with
    | .error _ => resolvable resolve symbols ps
    | .ok analysis =>
      p :: resolvable resolve (symbols.registerFile analysis.declarations).1 ps

section Resolvable

variable {resolve resolve' : Path → SymbolTable → Except FileError FileAnalysis}

variable (resolve) in
theorem resolvable_sublist (symbols : SymbolTable) (ps : List Path) :
    (resolvable resolve symbols ps).Sublist ps := by
  induction ps generalizing symbols with
  | nil => exact .slnil
  | cons p ps ih =>
    rw [resolvable]
    split
    · exact (ih symbols).cons p
    · exact (ih _).cons_cons p

theorem resolvable_congr {ps : List Path}
    (h : ∀ p ∈ ps, ∀ symbols, resolve p symbols = resolve' p symbols) (symbols : SymbolTable) :
    resolvable resolve symbols ps = resolvable resolve' symbols ps := by
  induction ps generalizing symbols with
  | nil => rfl
  | cons p ps ih =>
    have hps := ih fun q hq => h q (List.mem_cons_of_mem _ hq)
    simp only [resolvable, h p List.mem_cons_self symbols, hps]

variable (resolve) in
theorem resolvable_append (symbols : SymbolTable) (ps qs : List Path) :
    ∃ symbols', resolvable resolve symbols (ps ++ qs) =
      resolvable resolve symbols ps ++ resolvable resolve symbols' qs := by
  induction ps generalizing symbols with
  | nil => exact ⟨symbols, rfl⟩
  | cons p ps ih =>
    simp only [List.cons_append, resolvable]
    split
    · exact ih symbols
    · obtain ⟨symbols', h⟩ := ih _
      exact ⟨symbols', by rw [h, List.cons_append]⟩

/-- A file of the first part of a schedule resolves in it if it resolves in the whole. -/
theorem mem_resolvable_append_left {symbols : SymbolTable} {ps qs : List Path} {p : Path}
    (hd : (ps ++ qs).Nodup) (hp : p ∈ ps) :
    p ∈ resolvable resolve symbols (ps ++ qs) ↔ p ∈ resolvable resolve symbols ps := by
  obtain ⟨symbols', h⟩ := resolvable_append resolve symbols ps qs
  rw [h, List.mem_append]
  refine or_iff_left fun hq => ?_
  have hqs : p ∈ qs := (resolvable_sublist resolve symbols' qs).subset hq
  exact (List.nodup_append.mp hd).2.2 p hp p hqs rfl

/-- If the files before a file have no say in whether it resolves, the files that resolve are those
that do so by themselves. -/
theorem mem_resolvable_iff {P : Path → Prop} {ps : List Path}
    (h : ∀ p ∈ ps, ∀ symbols, (∃ analysis, resolve p symbols = .ok analysis) ↔ P p)
    {symbols : SymbolTable} {p : Path} : p ∈ resolvable resolve symbols ps ↔ p ∈ ps ∧ P p := by
  induction ps generalizing symbols with
  | nil => simp [resolvable]
  | cons q ps ih =>
    have hq := h q List.mem_cons_self symbols
    have hps := @ih fun p hp => h p (List.mem_cons_of_mem _ hp)
    rw [resolvable]
    cases hr : resolve q symbols with
    | error e =>
      have hne : ¬ P q := fun hP => by
        obtain ⟨analysis, hok⟩ := hq.mpr hP
        rw [hr] at hok
        cases hok
      simp only [hps, List.mem_cons]
      constructor
      · exact fun ⟨hp, hP⟩ => ⟨.inr hp, hP⟩
      · rintro ⟨rfl | hp, hP⟩
        · exact absurd hP hne
        · exact ⟨hp, hP⟩
    | ok analysis =>
      have hP : P q := hq.mp ⟨analysis, hr⟩
      simp only [hps, List.mem_cons, or_and_right]
      refine or_congr_left ⟨?_, And.left⟩
      rintro rfl
      exact ⟨rfl, hP⟩

end Resolvable

/-! ## Where a run stops -/

/-- A run that asks before each file whether it is to stop, given the files attempted so far, the
latest first, attempts the files `taken` and leaves the files `rest`. -/
structure StopsAfter (stops : List Path → Bool) (taken rest : List Path) : Prop where
  goesOn : ∀ before p after, taken = before ++ p :: after → stops before.reverse = false
  stopped : rest ≠ [] → stops taken.reverse = true

theorem StopsAfter.cons {stops : List Path → Bool} {done taken rest : List Path} {p : Path}
    (h : StopsAfter (fun more => stops (more ++ p :: done)) taken rest)
    (hp : stops done = false) :
    StopsAfter (fun more => stops (more ++ done)) (p :: taken) rest where
  goesOn before q after heq := by
    cases before with
    | nil => exact hp
    | cons _ before =>
      obtain ⟨rfl, htaken⟩ := List.cons.inj heq
      simpa using h.goesOn before q after htaken
  stopped hrest := by simpa using h.stopped hrest

/-- A run that is never told to stop leaves no file. -/
theorem StopsAfter.rest_eq_nil {stops : List Path → Bool} {taken rest : List Path}
    (h : StopsAfter stops taken rest) (hstops : ∀ done, stops done = false) : rest = [] := by
  by_contra hrest
  exact Bool.false_ne_true ((hstops _).symm.trans (h.stopped hrest))

/-- A run that goes on through all files leaves none. -/
theorem StopsAfter.rest_eq_nil_of_goesOn {stops : List Path → Bool} {taken rest : List Path}
    (h : StopsAfter stops taken rest) (hall : StopsAfter stops (taken ++ rest) []) : rest = [] := by
  cases rest with
  | nil => rfl
  | cons p rest =>
    have hgoes := hall.goesOn taken p rest rfl
    exact absurd (hgoes.symm.trans (h.stopped (List.cons_ne_nil p rest))) Bool.false_ne_true

namespace Progress

variable {ctx : RunContext} {t : FileTree} {changes : Changes}

/-! ## Attempting files -/

theorem attempt_of_error {s : Progress} {p : Path} {e : FileError}
    (h : ctx.resolve t p s.symbols = .error e) :
    s.attempt ctx t changes p =
      { s with attempted := p :: s.attempted, failures := s.failures ++ [(p, e.message)] } := by
  simp only [attempt, h]

theorem attempt_of_ok {s : Progress} {p : Path} {analysis : FileAnalysis}
    (h : ctx.resolve t p s.symbols = .ok analysis) :
    s.attempt ctx t changes p =
      { s with
        symbols := (s.symbols.registerFile analysis.declarations).1
        attempted := p :: s.attempted
        results := s.results ++
          [{ path := p
             declarations := analysis.declarations
             diagnostics := analysis.diagnostics ++
              (s.symbols.registerFile analysis.declarations).2.map fun (name, q) =>
                Diagnostic.alsoDeclared name q
             changed := changes.contains p }] } := by
  simp only [attempt, h]

variable (ctx t changes)

theorem attempted_attempt (s : Progress) (p : Path) :
    (s.attempt ctx t changes p).attempted = p :: s.attempted := by
  cases h : ctx.resolve t p s.symbols with
  | error e => rw [attempt_of_error h]
  | ok analysis => rw [attempt_of_ok h]

/-- A run attempts a part of its schedule from the start, up to the point where it is told to stop,
and it is stopped if a file is left. -/
theorem attemptAll_eq (s : Progress) (ps : List Path) :
    ∃ taken rest, ps = taken ++ rest ∧
      attemptAll ctx t changes s ps = (taken.foldl (attempt ctx t changes) s, !rest.isEmpty) ∧
      StopsAfter (fun done => ctx.stops (done ++ s.attempted)) taken rest := by
  induction ps generalizing s with
  | nil => exact ⟨[], [], rfl, rfl, ⟨by simp, by simp⟩⟩
  | cons p ps ih =>
    rw [attemptAll]
    split
    · next hstop => exact ⟨[], p :: ps, rfl, rfl, ⟨by simp, fun _ => hstop⟩⟩
    · next hstop =>
      obtain ⟨taken, rest, rfl, h, hstops⟩ := ih (s.attempt ctx t changes p)
      refine ⟨p :: taken, rest, rfl, h, ?_⟩
      rw [attempted_attempt] at hstops
      exact hstops.cons (Bool.eq_false_iff.mpr hstop)

theorem results_foldl_attempt (s : Progress) (ps : List Path) :
    (ps.foldl (attempt ctx t changes) s).results.map (·.path) =
      s.results.map (·.path) ++ resolvable (ctx.resolve t) s.symbols ps := by
  induction ps generalizing s with
  | nil => simp [resolvable]
  | cons p ps ih =>
    rw [List.foldl_cons, ih, resolvable]
    cases h : ctx.resolve t p s.symbols with
    | error e => rw [attempt_of_error h]
    | ok analysis => simp [attempt_of_ok h]

theorem map_path_results (ps : List Path) :
    (ps.foldl (attempt ctx t changes) {}).results.map (·.path) =
      resolvable (ctx.resolve t) SymbolTable.empty ps := by
  rw [results_foldl_attempt]
  rfl

/-- Every file attempted has a result or a failure. -/
theorem paths_foldl_attempt (s : Progress) (ps : List Path) :
    ((ps.foldl (attempt ctx t changes) s).results.map (·.path) ++
      (ps.foldl (attempt ctx t changes) s).failures.map (·.1)).Perm
      (s.results.map (·.path) ++ s.failures.map (·.1) ++ ps) := by
  induction ps generalizing s with
  | nil => simp
  | cons p ps ih =>
    rw [List.foldl_cons]
    refine (ih _).trans ?_
    cases h : ctx.resolve t p s.symbols with
    | error e => simp [attempt_of_error h]
    | ok analysis =>
      simp only [attempt_of_ok h, List.map_append, List.map_cons, List.map_nil, List.append_assoc,
        List.cons_append, List.nil_append]
      exact (List.perm_middle.symm).append_left _

/-- The files attempted are those that resolve and those that fail. -/
theorem resolvable_append_failures_perm (ps : List Path) :
    (resolvable (ctx.resolve t) SymbolTable.empty ps ++
      (ps.foldl (attempt ctx t changes) {}).failures.map (·.1)).Perm ps := by
  have hperm := paths_foldl_attempt ctx t changes {} ps
  rw [map_path_results] at hperm
  exact hperm

variable {ctx t changes}

/-- A result says whether its file is in the change set. -/
theorem changed_foldl_attempt {s : Progress} {ps : List Path} {r : FileResult}
    (hr : r ∈ (ps.foldl (attempt ctx t changes) s).results) :
    r ∈ s.results ∨ r.changed = changes.contains r.path := by
  induction ps generalizing s with
  | nil => exact .inl hr
  | cons p ps ih =>
    rw [List.foldl_cons] at hr
    refine (ih hr).elim (fun hs => ?_) .inr
    cases h : ctx.resolve t p s.symbols with
    | error e =>
      rw [attempt_of_error h] at hs
      exact .inl hs
    | ok analysis =>
      rw [attempt_of_ok h] at hs
      rcases List.mem_append.mp hs with hs | hs
      · exact .inl hs
      · obtain rfl := List.mem_singleton.mp hs
        exact .inr rfl

end Progress

end Recheck
