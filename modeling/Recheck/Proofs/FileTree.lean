import Mathlib.Data.List.Induction
import Recheck.FileTree.Edit
import Recheck.Proofs.Path.Pieces

/-!
# Resolving paths in a tree

A path is followed from directory to directory, and each component says where to go next
(`follow_cons_iff`). What it leads to is an entry of the tree (`get?_of_follow`) or a name that is
missing in a directory (`follow_vacant`), at a location that the components of the path alone decide
(`FileTree.target`). Along names this is the location with these names (`follow_names`).

What a tree holds at a location, but for the time of the last change, is `FileTree.bare`. Where
every entry lies in a directory (`Rooted`), a name in a directory leads to what is at its target if
every `..` on the way is taken in a directory (`Rooted.stat_eq_ok_iff`).
-/

namespace Recheck.FileTree

variable {t : FileTree} {location found : Location} {entry : Entry}

/-! ## Entries -/

theorem mem_entries_of_get? (h : t.get? location = some entry) (hne : location ≠ []) :
    (location, entry) ∈ t.entries := by
  rw [get?, if_neg hne, Option.map_eq_some_iff] at h
  obtain ⟨e, he, rfl⟩ := h
  have hloc : e.1 = location := by simpa using List.find?_some he
  rw [← hloc]
  exact List.mem_of_find?_eq_some he

theorem ProperNames.of_get? (ht : t.ProperNames) (h : t.get? location = some entry) :
    ∀ name ∈ location, ProperName name := by
  by_cases hne : location = []
  · simp [hne]
  · exact ht _ (mem_entries_of_get? h hne)

/-! ## Entries without their times -/

/-- What is at a location, with zero as the time of the last change. -/
def bare (t : FileTree) (location : Location) : Option Entry :=
  (t.get? location).map (Entry.withModified 0)

@[simp] theorem bare_nil (t : FileTree) : t.bare [] = some (.dir 0) := rfl

theorem bare_eq_dir_iff :
    t.bare location = some (.dir 0) ↔ ∃ time, t.get? location = some (.dir time) := by
  rw [bare]
  cases t.get? location with
  | none => simp
  | some e => cases e <;> simp [Entry.withModified]

theorem bare_eq_file_iff {content : List UInt8} {readable : Bool} :
    t.bare location = some (.file content 0 readable) ↔
      ∃ time, t.get? location = some (.file content time readable) := by
  rw [bare]
  cases t.get? location with
  | none => simp
  | some e => cases e <;> simp [Entry.withModified]

theorem isSome_bare (h : t.get? location = some entry) : (t.bare location).isSome = true := by
  rw [bare, h]
  rfl

theorem bare_eq_none_iff : t.bare location = none ↔ t.get? location = none := Option.map_eq_none_iff

/-! ## Following components -/

/-- Where a component leads from a directory. -/
def stepFrom (location : Location) : Component → Location
  | .root => location
  | .here => location
  | .up => location.dropLast
  | .name name => location ++ [name]

/-- A component is no name that is too long. -/
def Fits : Component → Prop
  | .name name => name.length ≤ maxName
  | _ => True

theorem get?_isSome_of_follow {steps : List Component}
    (h : t.follow location steps = .ok (.entry found entry)) :
    (t.get? location).isSome = true := by
  cases hget : t.get? location with
  | some e => rfl
  | none => cases steps <;> simp [follow.eq_def, hget] at h

theorem follow_cons_iff {step : Component} {steps : List Component} :
    t.follow location (step :: steps) = .ok (.entry found entry) ↔
      (∃ time, t.get? location = some (.dir time)) ∧ Fits step ∧
        t.follow (stepFrom location step) steps = .ok (.entry found entry) := by
  rw [follow.eq_def]
  cases hget : t.get? location with
  | none => simp
  | some e =>
    cases e with
    | file => simp
    | dir time =>
      cases step with
      | root => simp [Fits, stepFrom]
      | here => simp [Fits, stepFrom]
      | up => simp [Fits, stepFrom]
      | name name =>
        simp only [Fits, stepFrom, Option.some.injEq, Entry.dir.injEq, exists_eq', true_and]
        by_cases hlong : name.length > maxName
        · simp [hlong, Nat.not_le.mpr hlong]
        · rw [if_neg hlong]
          simp only [Nat.not_lt.mp hlong, true_and]
          cases hnext : t.get? (location ++ [name]) with
          | some e => rfl
          | none =>
            constructor
            · intro h
              dsimp only at h
              split at h <;> cases h
            · intro h
              have hsome := get?_isSome_of_follow h
              simp [hnext] at hsome

theorem follow_nil_iff :
    t.follow location [] = .ok (.entry found entry) ↔
      location = found ∧ t.get? location = some entry := by
  rw [follow.eq_def]
  cases t.get? location <;> simp

theorem get?_of_follow {steps : List Component}
    (h : t.follow location steps = .ok (.entry found entry)) : t.get? found = some entry := by
  induction steps generalizing location with
  | nil =>
    obtain ⟨rfl, hget⟩ := follow_nil_iff.mp h
    exact hget
  | cons step steps ih => exact ih (follow_cons_iff.mp h).2.2

theorem follow_names {names : List String}
    (h : t.follow location (names.map .name) = .ok (.entry found entry)) :
    found = location ++ names := by
  induction names generalizing location with
  | nil =>
    obtain ⟨rfl, -⟩ := follow_nil_iff.mp h
    rw [List.append_nil]
  | cons name names ih =>
    rw [ih (follow_cons_iff.mp h).2.2, stepFrom, List.append_assoc, List.singleton_append]

/-- A step of a path that leads somewhere starts in a directory; it goes on, or ends at a name that
the directory does not have. -/
theorem follow_cons_eq_ok {step : Component} {steps : List Component} {place : Place}
    (h : t.follow location (step :: steps) = .ok place) :
    t.bare location = some (.dir 0) ∧ Fits step ∧
      (t.follow (stepFrom location step) steps = .ok place ∨
        ∃ name, step = .name name ∧ steps = [] ∧ place = .vacant location name ∧
          t.bare (location ++ [name]) = none) := by
  rw [follow.eq_def] at h
  cases hget : t.get? location with
  | none => simp [hget] at h
  | some e =>
    cases e with
    | file => simp [hget] at h
    | dir time =>
      simp only [hget] at h
      refine ⟨bare_eq_dir_iff.mpr ⟨time, hget⟩, ?_⟩
      cases step with
      | root => exact ⟨trivial, .inl h⟩
      | here => exact ⟨trivial, .inl h⟩
      | up => exact ⟨trivial, .inl h⟩
      | name name =>
        dsimp only at h
        split at h
        · cases h
        · next hfits =>
          refine ⟨Nat.not_lt.mp hfits, ?_⟩
          split at h
          · exact .inl h
          · next hnone =>
            split at h
            · next hsteps =>
              exact .inr ⟨name, rfl, List.isEmpty_iff.mp hsteps, (Except.ok.inj h).symm,
                bare_eq_none_iff.mpr hnone⟩
            · cases h

theorem fits_of_follow {steps : List Component} {place : Place}
    (h : t.follow location steps = .ok place) : ∀ step ∈ steps, Fits step := by
  induction steps generalizing location with
  | nil => simp
  | cons step steps ih =>
    obtain ⟨-, hfits, hnext⟩ := follow_cons_eq_ok h
    intro step' hstep'
    rcases List.mem_cons.mp hstep' with rfl | hmem
    · exact hfits
    · rcases hnext with hnext | ⟨name, -, rfl, -⟩
      · exact ih hnext step' hmem
      · cases hmem

/-- A vacant place is a name that is missing in a directory. -/
theorem follow_vacant {steps : List Component} {dir : Location} {name : String}
    (h : t.follow location steps = .ok (.vacant dir name)) :
    t.bare dir = some (.dir 0) ∧ t.bare (dir ++ [name]) = none ∧
      dir ++ [name] = steps.foldl stepFrom location := by
  induction steps generalizing location with
  | nil =>
    rw [follow.eq_def] at h
    cases hget : t.get? location <;> simp [hget] at h
  | cons step steps ih =>
    obtain ⟨hdir, -, hnext | ⟨name', rfl, rfl, heq, hnone⟩⟩ := follow_cons_eq_ok h
    · exact ih hnext
    · obtain ⟨rfl, rfl⟩ := Place.vacant.inj heq
      exact ⟨hdir, hnone, rfl⟩

theorem follow_entry {steps : List Component}
    (h : t.follow location steps = .ok (.entry found entry)) :
    found = steps.foldl stepFrom location := by
  induction steps generalizing location with
  | nil => exact (follow_nil_iff.mp h).1.symm
  | cons step steps ih => exact ih (follow_cons_iff.mp h).2.2

/-! ## Resolving -/

/-- The system accepts the text of a path. -/
structure Accepted (p : Path) : Prop where
  no_zero : p.text.toList.contains '\x00' = false
  ne_empty : p.text.isEmpty = false
  size_le : p.text.length ≤ maxPath
  fits : ∀ step ∈ p.components, Fits step

/-- Where a path starts. -/
def startOf (t : FileTree) (p : Path) : Location := if p.isAbsolute then [] else t.workDir

theorem startOf_congr {t' : FileTree} (h : t'.workDir = t.workDir) (p : Path) :
    t'.startOf p = t.startOf p := by
  rw [startOf, startOf, h]

theorem resolve_eq_ok {p : Path} {place : Place} (h : t.resolve p = .ok place) :
    Accepted p ∧ t.follow (t.startOf p) p.components = .ok place := by
  rw [resolve] at h
  split at h
  · cases h
  next hzero =>
  split at h
  · cases h
  next hempty =>
  split at h
  · cases h
  next hsize =>
  have hfollow : t.follow (t.startOf p) p.components = .ok place := by
    split at h
    · next hentry =>
      split at h
      · cases h
      · rw [← h]
        exact hentry
    · exact h
  exact ⟨⟨Bool.eq_false_iff.mpr hzero, Bool.eq_false_iff.mpr hempty, Nat.not_lt.mp hsize,
    fits_of_follow hfollow⟩, hfollow⟩

/-- The location that a path leads to, whatever is there. -/
def target (t : FileTree) (p : Path) : Location := p.components.foldl stepFrom (t.startOf p)

theorem target_congr {t' : FileTree} (h : t'.workDir = t.workDir) (p : Path) :
    t'.target p = t.target p := by
  rw [target, target, startOf_congr h]

theorem resolve_entry {p : Path} (h : t.resolve p = .ok (.entry found entry)) :
    found = t.target p ∧ t.get? found = some entry :=
  ⟨follow_entry (resolve_eq_ok h).2, get?_of_follow (resolve_eq_ok h).2⟩

theorem resolve_vacant {p : Path} {dir : Location} {name : String}
    (h : t.resolve p = .ok (.vacant dir name)) :
    t.bare dir = some (.dir 0) ∧ t.bare (dir ++ [name]) = none ∧ dir ++ [name] = t.target p :=
  follow_vacant (resolve_eq_ok h).2

theorem resolve_of_isDir {p : Path} (h : t.isDir p = true) :
    ∃ found time, t.resolve p = .ok (.entry found (.dir time)) := by
  rw [isDir, stat] at h
  cases hresolve : t.resolve p with
  | error e => simp [hresolve] at h
  | ok place =>
    cases place with
    | vacant dir name => simp [hresolve] at h
    | entry found e =>
      cases e with
      | file => simp [hresolve, Entry.isDir] at h
      | dir time => exact ⟨found, time, rfl⟩

/-- An absolute path through names leads to the location with these names. -/
theorem eq_of_resolve_names {p : Path} {names : List String} (habs : p.isAbsolute = true)
    (hp : p.components = .root :: names.map .name) (h : t.resolve p = .ok (.entry found entry)) :
    found = names := by
  have hfollow := (resolve_eq_ok h).2
  rw [startOf, if_pos habs, hp] at hfollow
  exact follow_names (follow_cons_iff.mp hfollow).2.2

/-! ## Trees as systems have them -/

/-- Every entry lies in a directory. -/
def Rooted (t : FileTree) : Prop :=
  ∀ l, (t.bare l).isSome = true → t.bare l.dropLast = some (.dir 0)

theorem isSome_bare_of_mem {e : Location × Entry} (h : e ∈ t.entries) :
    (t.bare e.1).isSome = true := by
  rw [bare, get?]
  split
  · rfl
  · rw [Option.isSome_map, Option.isSome_map, List.find?_isSome]
    exact ⟨e, h, by simp⟩

theorem rooted_iff :
    t.Rooted ↔ ∀ e ∈ t.entries, (t.get? e.1.dropLast).any Entry.isDir = true := by
  have hdir : ∀ l, (t.get? l).any Entry.isDir = true ↔ t.bare l = some (.dir 0) := by
    intro l
    rw [bare]
    cases t.get? l with
    | none => simp
    | some e => cases e <;> simp [Entry.isDir, Entry.withModified]
  simp only [hdir]
  constructor
  · exact fun ht e he => ht e.1 (isSome_bare_of_mem he)
  · intro h l hl
    by_cases hne : l = []
    · rw [hne]
      rfl
    · obtain ⟨e, hget⟩ := Option.isSome_iff_exists.mp ((Option.isSome_map ..).symm.trans hl)
      exact h (l, e) (mem_entries_of_get? hget hne)

instance (t : FileTree) : Decidable t.Rooted := decidable_of_iff _ rooted_iff.symm

theorem Rooted.congr {t' : FileTree} (ht : t.Rooted) (h : ∀ l, t'.bare l = t.bare l) :
    t'.Rooted := by
  intro l hl
  rw [h] at hl ⊢
  exact ht l hl

/-- What lies above an entry is a directory. -/
theorem Rooted.above (ht : t.Rooted) {rest : Location} (hne : rest ≠ [])
    (h : (t.bare (location ++ rest)).isSome = true) : t.bare location = some (.dir 0) := by
  induction rest using List.reverseRecOn with
  | nil => exact absurd rfl hne
  | append_singleton rest name ih =>
    have hparent := ht _ h
    rw [← List.append_assoc, List.dropLast_concat] at hparent
    by_cases hrest : rest = []
    · rwa [hrest, List.append_nil] at hparent
    · exact ih hrest (by rw [hparent]; rfl)

/-! ## Ways back -/

/-- What holds wherever a component `..` is taken. -/
def AtBacks (P : Location → Prop) (location : Location) : List Component → Prop
  | [] => True
  | step :: steps => (step = .up → P location) ∧ AtBacks P (stepFrom location step) steps

instance AtBacks.instDecidable (P : Location → Prop) [DecidablePred P] :
    (location : Location) → (steps : List Component) → Decidable (AtBacks P location steps)
  | _, [] => inferInstanceAs (Decidable True)
  | location, step :: steps =>
    have := instDecidable P (stepFrom location step) steps
    inferInstanceAs (Decidable ((step = .up → P location) ∧ _))

section AtBacks

variable {P Q R : Location → Prop} {steps : List Component}

theorem AtBacks.imp₂ (h : ∀ l, P l → Q l → R l) (hp : AtBacks P location steps)
    (hq : AtBacks Q location steps) : AtBacks R location steps := by
  induction steps generalizing location with
  | nil => trivial
  | cons step steps ih => exact ⟨fun hup => h location (hp.1 hup) (hq.1 hup), ih hp.2 hq.2⟩

theorem AtBacks.imp (h : ∀ l, P l → Q l) (hp : AtBacks P location steps) :
    AtBacks Q location steps :=
  hp.imp₂ (fun l hl _ => h l hl) hp

end AtBacks

/-- Every `..` of a path is taken in a directory. -/
def Passable (t : FileTree) (p : Path) : Prop :=
  AtBacks (fun l => t.bare l = some (.dir 0)) (t.startOf p) p.components

/-- Every `..` of a path is taken from something that is there, so that no new directory can change
what the path leads to. -/
def Settled (t : FileTree) (p : Path) : Prop :=
  AtBacks (fun l => (t.bare l).isSome = true) (t.startOf p) p.components

instance (t : FileTree) (p : Path) : Decidable (t.Settled p) :=
  inferInstanceAs (Decidable (AtBacks ..))

theorem Passable.settled {p : Path} (h : t.Passable p) : t.Settled p :=
  AtBacks.imp (fun l hl => by rw [hl]; rfl) h

/-- What is passable stays so while the directories are there. -/
theorem Passable.mono {t' : FileTree} {p : Path} (h : t.Passable p) (hdir : t'.workDir = t.workDir)
    (hl : ∀ l, t.bare l = some (.dir 0) → t'.bare l = some (.dir 0)) : t'.Passable p := by
  rw [Passable, startOf_congr hdir]
  exact AtBacks.imp hl h

/-! ## Paths that end with a name -/

section Names

variable {steps : List Component} {name : String}

theorem atBacks_of_follow {place : Place}
    (h : t.follow location (steps ++ [.name name]) = .ok place) :
    AtBacks (fun l => t.bare l = some (.dir 0)) location steps := by
  induction steps generalizing location with
  | nil => trivial
  | cons step steps ih =>
    obtain ⟨hdir, -, hnext | ⟨-, -, hnil, -⟩⟩ := follow_cons_eq_ok h
    · exact ⟨fun _ => hdir, ih hnext⟩
    · simp at hnil

/-- In a rooted tree, a passable way to an entry starts in a directory. -/
theorem Rooted.dir_of_atBacks (ht : t.Rooted)
    (hpass : AtBacks (fun l => t.bare l = some (.dir 0)) location steps)
    (h : (t.bare (steps.foldl stepFrom location ++ [name])).isSome = true) :
    t.bare location = some (.dir 0) := by
  induction steps generalizing location with
  | nil => simpa using ht _ h
  | cons step steps ih =>
    have hnext := ih hpass.2 h
    cases step with
    | root => exact hnext
    | here => exact hnext
    | up => exact hpass.1 rfl
    | name first =>
      rw [stepFrom] at hnext
      have hparent := ht (location ++ [first]) (by rw [hnext]; rfl)
      rwa [List.dropLast_concat] at hparent

theorem Rooted.follow_of_atBacks (ht : t.Rooted)
    (hpass : AtBacks (fun l => t.bare l = some (.dir 0)) location steps)
    (hfits : ∀ step ∈ steps ++ [.name name], Fits step)
    (h : t.get? (steps.foldl stepFrom location ++ [name]) = some entry) :
    t.follow location (steps ++ [.name name]) =
      .ok (.entry (steps.foldl stepFrom location ++ [name]) entry) := by
  have hdir := bare_eq_dir_iff.mp (ht.dir_of_atBacks hpass (isSome_bare h))
  induction steps generalizing location with
  | nil =>
    exact follow_cons_iff.mpr ⟨hdir, hfits _ List.mem_cons_self, follow_nil_iff.mpr ⟨rfl, h⟩⟩
  | cons step steps ih =>
    have hnext := bare_eq_dir_iff.mp (ht.dir_of_atBacks hpass.2 (isSome_bare h))
    have hfits' : ∀ step' ∈ steps ++ [.name name], Fits step' := fun step' hstep' =>
      hfits step' (List.mem_cons_of_mem step hstep')
    exact follow_cons_iff.mpr ⟨hdir, hfits step List.mem_cons_self, ih hpass.2 hfits' h hnext⟩

end Names

/-- The path `p` ends with a name that is looked up in the directory `dir`. -/
structure NameIn (dir : Path) (name : String) (p : Path) : Prop where
  absolute_eq : p.isAbsolute = dir.isAbsolute
  steps : p.components = dir.components ++ [.name name]
  no_dir : spellsDir p = false

section NameIn

variable {dir p : Path} {name : String} (hp : NameIn dir name p)
include hp

theorem NameIn.startOf_eq (t : FileTree) : t.startOf p = t.startOf dir := by
  rw [startOf, startOf, hp.absolute_eq]

theorem NameIn.target_eq (t : FileTree) : t.target p = t.target dir ++ [name] := by
  rw [target, target, hp.startOf_eq, hp.steps, List.foldl_append]
  rfl

theorem NameIn.passable_of_resolve {place : Place} (h : t.resolve p = .ok place) :
    t.Passable dir := by
  have hfollow := (resolve_eq_ok h).2
  rw [hp.steps, hp.startOf_eq] at hfollow
  exact atBacks_of_follow hfollow

/-- In a rooted tree, a name in a passable directory leads to what is at its target. -/
theorem Rooted.resolve_eq (ht : t.Rooted) (hpass : t.Passable dir) (hok : Accepted p)
    (h : t.get? (t.target p) = some entry) : t.resolve p = .ok (.entry (t.target p) entry) := by
  have hfollow : t.follow (t.startOf p) p.components = .ok (.entry (t.target p) entry) := by
    have hfits := hok.fits
    rw [hp.target_eq, target] at h ⊢
    rw [hp.startOf_eq, hp.steps] at *
    exact ht.follow_of_atBacks hpass hfits h
  rw [startOf] at hfollow
  rw [resolve, hok.no_zero, hok.ne_empty, if_neg (Nat.not_lt.mpr hok.size_le), hfollow]
  simp [hp.no_dir]

theorem Rooted.stat_eq_ok_iff (ht : t.Rooted) :
    t.stat p = .ok entry ↔ Accepted p ∧ t.Passable dir ∧ t.get? (t.target p) = some entry := by
  constructor
  · intro h
    rw [stat] at h
    split at h
    · next found e hresolve =>
      obtain rfl := Except.ok.inj h
      obtain ⟨hfound, hget⟩ := resolve_entry hresolve
      exact ⟨(resolve_eq_ok hresolve).1, hp.passable_of_resolve hresolve, hfound ▸ hget⟩
    · cases h
    · cases h
  · rintro ⟨hok, hpass, hget⟩
    rw [stat, ht.resolve_eq hp hpass hok hget]

/-- The content of a file that can be read. -/
theorem Rooted.read_eq_ok_iff (ht : t.Rooted) {content : List UInt8} :
    t.read p = .ok content ↔
      Accepted p ∧ t.Passable dir ∧ t.bare (t.target p) = some (.file content 0 true) := by
  have hread : t.read p = .ok content ↔ ∃ time, t.stat p = .ok (.file content time true) := by
    rw [read]
    cases t.stat p with
    | error e => simp
    | ok e =>
      cases e with
      | dir => simp
      | file content' time readable => cases readable <;> simp [and_comm]
  rw [hread, bare_eq_file_iff]
  simp only [ht.stat_eq_ok_iff hp, exists_and_left]

end NameIn

end Recheck.FileTree
