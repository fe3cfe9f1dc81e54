import Mathlib.Data.List.Basic
import Recheck.Proofs.Path.Names
import Recheck.Proofs.References

/-!
# Canonical spellings

An absolute path through names that a directory can hold has one canonical spelling, with a slash
before each name (`Path.Canonical`). Source files are spelled in this way (`canonical_sourceFiles`),
and a reference that leads to one is spelled like it (`RefersTo.eq_of_same`). What a file refers to
is a text if its own path and that of the source directory are (`RefersTo.isText`).
-/

namespace Recheck

/-! ## Splitting -/

namespace Text

theorem not_mem_of_mem_splitOn {α : Type} [DecidableEq α] {sep : α} {cs piece : List α}
    (h : piece ∈ splitOn sep cs) : sep ∉ piece := by
  induction cs generalizing piece with
  | nil =>
    obtain rfl : piece = [] := by simpa [splitOn] using h
    simp
  | cons c cs ih =>
    rw [splitOn] at h
    split at h
    · rcases List.mem_cons.mp h with rfl | h
      · simp
      · exact ih h
    · next hc =>
      split at h
      · obtain rfl : piece = [c] := by simpa using h
        simp [Ne.symm hc]
      · next first pieces hsplit =>
        rw [hsplit] at ih
        rcases List.mem_cons.mp h with rfl | h
        · simp [ih List.mem_cons_self, Ne.symm hc]
        · exact ih (List.mem_cons_of_mem _ h)

end Text

/-! ## Names -/

/-- A name that a directory can hold. -/
structure ProperName (name : String) : Prop where
  ne_empty : name ≠ ""
  ne_here : name ≠ "."
  ne_up : name ≠ ".."
  no_slash : '/' ∉ name.toList

instance (name : String) : Decidable (ProperName name) :=
  decidable_of_iff (name ≠ "" ∧ name ≠ "." ∧ name ≠ ".." ∧ '/' ∉ name.toList)
    ⟨fun ⟨h, hhere, hup, hslash⟩ => ⟨h, hhere, hup, hslash⟩,
      fun ⟨h, hhere, hup, hslash⟩ => ⟨h, hhere, hup, hslash⟩⟩

namespace Path

theorem stepOf_toList {name : String} (h : ProperName name) : stepOf name.toList = .name name := by
  have hup : name.toList ≠ ['.', '.'] := fun heq => h.ne_up (String.toList_inj.mp heq)
  rw [stepOf, if_neg hup, String.ofList_toList]

theorem isStep_toList {name : String} (h : ProperName name) : isStep name.toList = true := by
  have hempty : name.toList ≠ [] := fun heq => h.ne_empty (String.toList_inj.mp heq)
  have hhere : name.toList ≠ ['.'] := fun heq => h.ne_here (String.toList_inj.mp heq)
  simp [isStep, hempty, hhere]

theorem not_mem_body (p : Path) : ∀ piece ∈ p.layout.body, '/' ∉ piece := by
  intro piece hpiece
  rw [layout] at hpiece
  split at hpiece
  · exact Text.not_mem_of_mem_splitOn hpiece
  · split at hpiece
    · next hsplit =>
      have hmem : piece ∈ Text.splitOn '/' p.text.toList := hsplit ▸ List.mem_cons_of_mem _ hpiece
      exact Text.not_mem_of_mem_splitOn hmem
    · exact Text.not_mem_of_mem_splitOn hpiece

theorem name_not_mem_anchor (p : Path) (name : String) : .name name ∉ p.layout.anchor.toList := by
  rw [layout]
  split
  · simp
  · split <;> simp

theorem properName_of_mem_components {p : Path} {name : String} (h : .name name ∈ p.components) :
    ProperName name := by
  rw [components, List.mem_append] at h
  obtain ⟨piece, hpiece, heq⟩ := List.mem_map.mp (h.resolve_left (p.name_not_mem_anchor name))
  obtain ⟨hbody, hstep⟩ := List.mem_filter.mp hpiece
  rw [stepOf] at heq
  split at heq
  · cases heq
  · next hup =>
    obtain rfl : String.ofList piece = name := by simpa using heq
    simp only [isStep, Bool.and_eq_true, Bool.not_eq_true', bne_iff_ne] at hstep
    refine ⟨fun heq => ?_, fun heq => ?_, fun heq => ?_, ?_⟩
    · have : piece = [] := by simpa using congrArg String.toList heq
      simp [this] at hstep
    · exact hstep.2 (by simpa using congrArg String.toList heq)
    · exact hup (by simpa using congrArg String.toList heq)
    · rw [String.toList_ofList]
      exact p.not_mem_body piece hbody

theorem head?_of_root_mem {p : Path} (h : .root ∈ p.components) :
    p.text.toList.head? = some '/' := by
  rw [components, List.mem_append] at h
  rcases h with h | h
  · rw [layout] at h
    split at h
    · next hcs => rw [hcs, List.head?_cons]
    · split at h <;> simp at h
  · obtain ⟨piece, -, heq⟩ := List.mem_map.mp h
    rw [stepOf] at heq
    split at heq <;> cases heq

/-! ## Canonical paths -/

/-- An absolute path through names that directories can hold, with one slash before each. -/
def Canonical (p : Path) : Prop := ∃ names, (∀ name ∈ names, ProperName name) ∧ p = ofNames names

theorem components_ofNames {names : List String} (h : ∀ name ∈ names, ProperName name) :
    (ofNames names).components = .root :: names.map .name := by
  have htext : (ofNames names).text.toList =
      '/' :: List.intercalate ['/'] (names.map String.toList) := by
    rw [ofNames, String.toList_append, String.toList_intercalate]
    rfl
  have hbody : ((Text.splitOn '/' (List.intercalate ['/'] (names.map String.toList))).filter
      isStep).map stepOf = names.map .name := by
    cases names with
    | nil => rfl
    | cons name names =>
      have hslash : ∀ piece ∈ (name :: names).map String.toList, '/' ∉ piece := by
        simpa using fun n hn => (h n hn).no_slash
      rw [Text.splitOn_eq, List.splitOn_intercalate '/' hslash (by simp), List.filter_eq_self.mpr,
        List.map_map]
      · exact List.map_congr_left fun n hn => stepOf_toList (h n hn)
      · intro piece hpiece
        obtain ⟨n, hn, rfl⟩ := List.mem_map.mp hpiece
        exact isStep_toList (h n hn)
  rw [components, layout, htext]
  exact congrArg (Component.root :: ·) hbody

theorem Canonical.eq_of_same {p q : Path} (hp : Canonical p) (hq : Canonical q) (h : Same p q) :
    p = q := by
  obtain ⟨names, hn, rfl⟩ := hp
  obtain ⟨names', hn', rfl⟩ := hq
  rw [Same, components_ofNames hn, components_ofNames hn', List.cons.injEq] at h
  have hinj : Function.Injective Component.name := fun a b hab => by simpa using hab
  rw [hinj.list_map h.2]

/-! ## Normalized paths -/

/-- Follows a component from the directory that the names lead to, the last name first. -/
def follow (stack : List String) : Component → List String
  | .name s => s :: stack
  | .up => stack.tail
  | _ => stack

/-- The names that a normalized path is made of. -/
def normalNames (p : Path) : List String := (p.components.foldl follow []).reverse

theorem normalize_eq (p : Path) :
    p.normalize =
      if p.components.head? = some .root then ofNames p.normalNames
      else ⟨"/".intercalate p.normalNames⟩ := rfl

theorem mem_foldl_follow {steps : List Component} {stack : List String} {name : String}
    (h : name ∈ steps.foldl follow stack) : name ∈ stack ∨ .name name ∈ steps := by
  induction steps generalizing stack with
  | nil => exact .inl h
  | cons step steps ih =>
    rcases ih h with hstack | hsteps
    · cases step with
      | root => exact .inl hstack
      | here => exact .inl hstack
      | up => exact .inl (List.mem_of_mem_tail hstack)
      | name s =>
        rcases List.mem_cons.mp hstack with rfl | hstack
        · exact .inr List.mem_cons_self
        · exact .inl hstack
    · exact .inr (List.mem_cons_of_mem _ hsteps)

theorem properName_of_mem_normalNames {p : Path} {name : String} (h : name ∈ p.normalNames) :
    ProperName name := by
  rw [normalNames, List.mem_reverse] at h
  exact properName_of_mem_components ((mem_foldl_follow h).resolve_left List.not_mem_nil)

/-- Names put together do not begin with a slash. -/
theorem head?_intercalate_ne {names : List String} (h : ∀ name ∈ names, ProperName name) :
    ("/".intercalate names).toList.head? ≠ some '/' := by
  cases names with
  | nil => simp
  | cons name names =>
    obtain ⟨hempty, -, -, hslash⟩ := h name List.mem_cons_self
    cases htext : name.toList with
    | nil => exact absurd (String.toList_inj.mp htext) hempty
    | cons c cs =>
      have hhead : ("/".intercalate (name :: names)).toList.head? = some c := by
        cases names with
        | nil => rw [String.intercalate_singleton, htext, List.head?_cons]
        | cons name' names =>
          rw [String.intercalate_cons_cons]
          simp [htext]
      rw [hhead]
      intro hc
      exact hslash (htext ▸ Option.some.inj hc ▸ List.mem_cons_self)

/-- A normalized path is spelled like the canonical path that it names. -/
theorem normalize_eq_of_same {p f : Path} (hf : Canonical f) (h : Same p.normalize f) :
    p.normalize = f := by
  have hproper : ∀ name ∈ p.normalNames, ProperName name := fun _ => properName_of_mem_normalNames
  rw [normalize_eq] at h ⊢
  split at h
  · next hroot =>
    rw [if_pos hroot]
    exact Canonical.eq_of_same ⟨p.normalNames, hproper, rfl⟩ hf h
  · -- A relative path has no root.
    obtain ⟨names, hn, rfl⟩ := hf
    have hmem : .root ∈ (⟨"/".intercalate p.normalNames⟩ : Path).components := by
      rw [show Path.components _ = _ from h, components_ofNames hn]
      exact List.mem_cons_self
    exact absurd (head?_of_root_mem hmem) (head?_intercalate_ne hproper)

theorem isEncoding_intercalate {names : List String}
    (h : ∀ name ∈ names, Text.IsEncoding name.toList) :
    Text.IsEncoding ("/".intercalate names).toList := by
  have hjoin : ("/".intercalate names).toList = Text.join '/' (names.map String.toList) := by
    rw [String.toList_intercalate]
    rfl
  rw [hjoin]
  refine .join fun piece hpiece => ?_
  obtain ⟨name, hname, rfl⟩ := List.mem_map.mp hpiece
  exact h name hname

theorem IsText.normalize {p : Path} (h : p.IsText) : p.normalize.IsText := by
  have hnames : Text.IsEncoding ("/".intercalate p.normalNames).toList := by
    refine isEncoding_intercalate fun name hname => h.isEncoding_of_name_mem ?_
    rw [normalNames, List.mem_reverse] at hname
    exact (mem_foldl_follow hname).resolve_left List.not_mem_nil
  rw [normalize_eq, isText_iff_isEncoding]
  split
  · rw [ofNames, String.toList_append]
    exact hnames.slash_cons
  · exact hnames

end Path

/-! ## Source files and references -/

/-- All names in the tree are names that directories can hold. -/
def FileTree.ProperNames (t : FileTree) : Prop := ∀ e ∈ t.entries, ∀ name ∈ e.1, ProperName name

instance (t : FileTree) : Decidable t.ProperNames :=
  inferInstanceAs (Decidable (∀ e ∈ t.entries, ∀ name ∈ e.1, ProperName name))

theorem canonical_sourceFiles {t : FileTree} {project : Project} {extensions : List String}
    {excludes : List Glob} {files : List Path} (ht : t.ProperNames)
    (h : sourceFiles t project extensions excludes = .ok files) : ∀ f ∈ files, f.Canonical := by
  intro f hf
  rw [sourceFiles] at h
  split at h
  · obtain rfl := Except.ok.inj h
    have hmem := Path.mem_of_mem_distinct hf
    rw [Path.mem_sort] at hmem
    obtain ⟨location, hloc, rfl⟩ := List.mem_map.mp hmem
    obtain ⟨e, he, heq⟩ := List.mem_filterMap.mp (List.mem_of_mem_filter hloc)
    have hlocation : e.1 = location := by
      dsimp only at heq
      split at heq
      · exact Option.some.inj heq
      · cases heq
    exact ⟨location, hlocation ▸ ht e he, rfl⟩
  · cases h

theorem exists_normalize_of_target? {project : Project} {u target : Path} {reference : List Char}
    (h : target? project u reference = some target) : ∃ p : Path, target = p.normalize := by
  rw [target?] at h
  split at h
  · obtain ⟨inner, -, rfl⟩ := Option.map_eq_some_iff.mp h
    exact ⟨_, rfl⟩
  · split at h
    · cases h
    · obtain ⟨dir, -, rfl⟩ := Option.map_eq_some_iff.mp h
      exact ⟨_, rfl⟩

/-- A reference to a file with a canonical spelling is spelled in this way. -/
theorem RefersTo.eq_of_same {t : FileTree} {project : Project} {u target f : Path}
    (h : RefersTo t project u target) (hf : f.Canonical) (hs : Path.Same target f) :
    target = f := by
  obtain ⟨text, -, reference, -, ht⟩ := h
  obtain ⟨p, rfl⟩ := exists_normalize_of_target? ht
  exact Path.normalize_eq_of_same hf hs

/-- A reference is a text, so it leads from texts to a text. -/
theorem RefersTo.isText {t : FileTree} {project : Project} {u target : Path}
    (h : RefersTo t project u target) (hu : u.IsText) (hsource : project.sourceDir.IsText) :
    target.IsText := by
  obtain ⟨text, -, reference, -, ht⟩ := h
  rw [target?] at ht
  split at ht
  · obtain ⟨inner, -, rfl⟩ := Option.map_eq_some_iff.mp ht
    exact (hsource.join (Path.isText_ofText _)).normalize
  · split at ht
    · cases ht
    · obtain ⟨dir, hdir, rfl⟩ := Option.map_eq_some_iff.mp ht
      exact ((hu.of_parent? hdir).join (Path.isText_ofText _)).normalize

end Recheck
