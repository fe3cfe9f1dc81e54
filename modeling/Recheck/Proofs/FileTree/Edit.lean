import Recheck.Proofs.FileTree

/-!
# Changed trees

Each operation on a tree is described by its effect on the entries at all locations, and in a rooted
tree it leaves a rooted one. Making directories keeps all files as they are (`grows_makeDirs`).
Writing a file concerns no location but the target of its path (`Rooted.placed_write`), and moving
it this and its old one (`Rooted.placed_moveFile`).
-/

namespace Recheck.FileTree

variable {t t' : FileTree} {l l' : Location}

/-! ## Effects on entries -/

@[simp] theorem bare_stamp (t : FileTree) (place : Location) (time : Int) (l : Location) :
    (t.stamp place time).bare l = t.bare l := by
  have hkey : ((fun e : Location × Entry => decide (e.1 = l)) ∘ fun e =>
      if e.1 = place then (e.1, e.2.withModified time) else e) = fun e => decide (e.1 = l) := by
    funext e
    simp only [Function.comp]
    split <;> rfl
  rw [bare, bare, get?, get?]
  split
  · rfl
  · simp only [stamp]
    rw [List.find?_map, hkey, Option.map_map, Option.map_map, Option.map_map]
    refine congrArg (Option.map · _) (funext fun e => ?_)
    simp only [Function.comp]
    split
    · cases e.2 <;> rfl
    · rfl

theorem bare_put (t : FileTree) {l : Location} (hl : l ≠ []) (e : Entry) (l' : Location) :
    (t.put l e).bare l' = if l' = l then some (e.withModified 0) else t.bare l' := by
  by_cases h : l' = l
  · subst h
    have hnone : ((t.entries.filter fun e => e.1 ≠ l').find? fun e => e.1 = l') = none := by
      rw [List.find?_filter, List.find?_eq_none]
      simp
    rw [if_pos rfl, bare, get?, if_neg hl]
    simp only [put, List.find?_append, hnone]
    simp
  · have hsame : ((t.entries.filter fun e => e.1 ≠ l).find? fun e => e.1 = l') =
        t.entries.find? fun e => e.1 = l' := by
      rw [List.find?_filter]
      refine congrArg (List.find? · _) (funext fun e => ?_)
      by_cases he : e.1 = l'
      · simp [he, h]
      · simp [he]
    rw [if_neg h, bare, bare, get?, get?]
    simp only [put, List.find?_append, hsame]
    simp [Ne.symm h]

theorem bare_enter (t : FileTree) (dir : Location) (name : String) (e : Entry) (l' : Location) :
    (t.enter dir name e).bare l' =
      if l' = dir ++ [name] then some (e.withModified 0) else t.bare l' := by
  rw [enter, bare_stamp, bare_put t (by simp)]

theorem bare_drop (t : FileTree) {l : Location} (hl : l ≠ []) (l' : Location) :
    (t.drop l).bare l' = if l <+: l' then none else t.bare l' := by
  rw [drop, bare_stamp]
  by_cases h : l <+: l'
  · have hne : l' ≠ [] := fun heq => hl (List.prefix_nil.mp (heq ▸ h))
    rw [if_pos h, bare, get?, if_neg hne, List.find?_filter, Option.map_eq_none_iff,
      Option.map_eq_none_iff, List.find?_eq_none]
    rintro e - he
    simp only [decide_eq_true_eq, Bool.not_eq_true'] at he
    rw [he.2, Bool.eq_false_iff] at he
    exact he.1 (List.isPrefixOf_iff_prefix.mpr h)
  · have hkept : l.isPrefixOf l' = false := by
      rw [Bool.eq_false_iff]
      exact fun h' => h (List.isPrefixOf_iff_prefix.mp h')
    have hsame : (t.entries.filter fun e => !l.isPrefixOf e.1).find? (fun e => e.1 = l') =
        t.entries.find? fun e => e.1 = l' := by
      rw [List.find?_filter]
      refine congrArg (List.find? · _) (funext fun e => ?_)
      by_cases he : e.1 = l'
      · simp [he, hkept]
      · simp [he]
    rw [if_neg h, bare, bare, get?, get?, hsame]

/-! ## Entries lie in directories -/

/-- An entry that is no directory can be replaced, and a new one be put into a directory. -/
theorem Rooted.put (ht : t.Rooted) (hl : l ≠ []) (hparent : t.bare l.dropLast = some (.dir 0))
    (hleaf : t.bare l ≠ some (.dir 0)) (e : Entry) : (t.put l e).Rooted := by
  intro l' hl'
  rw [bare_put t hl] at hl' ⊢
  by_cases h : l' = l
  · subst h
    have hne : l'.dropLast ≠ l' := fun heq => hleaf (heq ▸ hparent)
    rw [if_neg hne]
    exact hparent
  · rw [if_neg h] at hl'
    have hdir := ht l' hl'
    have hne : l'.dropLast ≠ l := fun heq => hleaf (heq ▸ hdir)
    rw [if_neg hne]
    exact hdir

theorem Rooted.enter (ht : t.Rooted) {dir : Location} {name : String}
    (hparent : t.bare dir = some (.dir 0)) (hleaf : t.bare (dir ++ [name]) ≠ some (.dir 0))
    (e : Entry) : (t.enter dir name e).Rooted := by
  have hput : (t.put (dir ++ [name]) e).Rooted :=
    ht.put (by simp) (by rwa [List.dropLast_concat]) hleaf e
  exact hput.congr fun l => bare_stamp ..

theorem Rooted.drop (ht : t.Rooted) (hl : l ≠ []) : (t.drop l).Rooted := by
  intro l' hl'
  rw [bare_drop t hl] at hl' ⊢
  split at hl'
  · cases hl'
  · next h =>
    rw [if_neg fun hparent => h (hparent.trans (List.dropLast_prefix l'))]
    exact ht l' hl'

/-! ## Making directories -/

/-- The second tree has the entries of the first, and more directories at most. -/
structure Grows (t t' : FileTree) : Prop where
  rooted : t.Rooted → t'.Rooted
  workDir_eq : t'.workDir = t.workDir
  bare_eq : ∀ l, t'.bare l = t.bare l ∨ (t.bare l = none ∧ t'.bare l = some (.dir 0))

theorem Grows.refl (t : FileTree) : Grows t t := ⟨id, rfl, fun _ => .inl rfl⟩

theorem Grows.trans {t₁ t₂ t₃ : FileTree} (h : Grows t₁ t₂) (h' : Grows t₂ t₃) : Grows t₁ t₃ := by
  refine ⟨h'.rooted ∘ h.rooted, h'.workDir_eq.trans h.workDir_eq, fun l => ?_⟩
  rcases h.bare_eq l with h₁ | ⟨hnone, hdir⟩
  · rw [← h₁]
    exact h'.bare_eq l
  · rcases h'.bare_eq l with h₂ | ⟨hnone', -⟩
    · exact .inr ⟨hnone, h₂.trans hdir⟩
    · rw [hdir] at hnone'
      cases hnone'

/-- Every file stays as it is, and there are no new ones. -/
theorem Grows.bare_eq_file_iff (h : Grows t t') {content : List UInt8} {readable : Bool} :
    t'.bare l = some (.file content 0 readable) ↔ t.bare l = some (.file content 0 readable) := by
  rcases h.bare_eq l with heq | ⟨hnone, hdir⟩
  · rw [heq]
  · rw [hnone, hdir]
    simp

theorem Grows.dir (h : Grows t t') (hl : t.bare l = some (.dir 0)) : t'.bare l = some (.dir 0) := by
  rcases h.bare_eq l with heq | ⟨-, hdir⟩
  · rw [heq, hl]
  · exact hdir

/-- A settled path leads through the same directories as before. -/
theorem Grows.passable_iff (h : Grows t t') {p : Path} (hp : t.Settled p) :
    t'.Passable p ↔ t.Passable p := by
  constructor
  · intro hpass
    rw [Passable, startOf_congr h.workDir_eq] at hpass
    refine hp.imp₂ (fun l hl hdir => ?_) hpass
    rcases h.bare_eq l with heq | ⟨hnone, -⟩
    · rw [← heq]
      exact hdir
    · rw [hnone] at hl
      cases hl
  · exact fun hpass => hpass.mono h.workDir_eq fun _ => h.dir

theorem Grows.settled (h : Grows t t') {p : Path} (hp : t.Settled p) : t'.Settled p := by
  rw [Settled, startOf_congr h.workDir_eq]
  refine hp.imp fun l hl => ?_
  rcases h.bare_eq l with heq | ⟨-, hdir⟩
  · rw [heq]
    exact hl
  · rw [hdir]
    rfl

theorem grows_makeDir {p : Path} (h : t.makeDir p = .ok t') : Grows t t' := by
  rw [makeDir] at h
  split at h
  · cases h
  · next dir name hresolve =>
    obtain rfl := Except.ok.inj h
    obtain ⟨hdir, hnone, -⟩ := resolve_vacant hresolve
    refine ⟨fun ht => ht.enter hdir (by simp [hnone]) _, rfl, fun l => ?_⟩
    rw [bare_enter]
    split
    · next hl => exact .inr ⟨hl ▸ hnone, rfl⟩
    · exact .inl rfl
  · cases h

theorem grows_makeDirsFuel (fuel : Nat) (t : FileTree) (p : Path) :
    Grows t (makeDirsFuel fuel t p).1 := by
  fun_induction makeDirsFuel fuel t p with
  | case1 => exact .refl _
  | case2 => exact .refl _
  | case3 fuel t p hempty t' hmade => exact grows_makeDir hmade
  | case4 => exact .refl _
  | case5 fuel t p hempty hmissing parent hparent t' e hdirs ih => simpa [hdirs] using ih
  | case6 fuel t p hempty hmissing parent hparent t' hdirs t'' hmade ih =>
    rw [hdirs] at ih
    exact ih.trans (grows_makeDir hmade)
  | case7 fuel t p hempty hmissing parent hparent t' hdirs e hmade ih => simpa [hdirs] using ih
  | case8 => exact .refl _

/-- Making directories leaves all files as they are. -/
theorem grows_makeDirs (t : FileTree) (p : Path) : Grows t (t.makeDirs p).1 :=
  grows_makeDirsFuel _ t p

/-! ## Writing and moving files -/

/-- The second tree is the first with a file at a location, which was no directory. -/
structure Placed (t : FileTree) (l : Location) (content : List UInt8) (readable : Bool)
    (t' : FileTree) : Prop where
  rooted : t'.Rooted
  workDir_eq : t'.workDir = t.workDir
  no_dir : t.bare l ≠ some (.dir 0)
  bare_self : t'.bare l = some (.file content 0 readable)
  bare_other : ∀ l' ≠ l, t'.bare l' = t.bare l'

theorem Placed.stamp {content : List UInt8} {readable : Bool} (h : Placed t l content readable t')
    (place : Location) (time : Int) : Placed t l content readable (t'.stamp place time) :=
  ⟨h.rooted.congr fun _ => bare_stamp .., h.workDir_eq, h.no_dir,
    (bare_stamp ..).trans h.bare_self, fun l' hl' => (bare_stamp ..).trans (h.bare_other l' hl')⟩

theorem Placed.dir {content : List UInt8} {readable : Bool} (h : Placed t l content readable t')
    (hl : t.bare l' = some (.dir 0)) : t'.bare l' = some (.dir 0) := by
  have hne : l' ≠ l := fun heq => h.no_dir (heq ▸ hl)
  rw [h.bare_other l' hne, hl]

/-- Without a file, all directories are still there. -/
theorem Rooted.dir_drop (ht : t.Rooted) {content : List UInt8} {readable : Bool}
    (hfile : t.bare l = some (.file content 0 readable)) (hl : t.bare l' = some (.dir 0)) :
    (t.drop l).bare l' = some (.dir 0) := by
  have hne : l ≠ [] := by
    rintro rfl
    simp at hfile
  have hapart : ¬ l <+: l' := by
    rintro ⟨rest, rfl⟩
    have habove : t.bare l = some (.dir 0) := by
      by_cases hrest : rest = []
      · rwa [hrest, List.append_nil] at hl
      · exact ht.above hrest (by rw [hl]; rfl)
    rw [hfile] at habove
    cases habove
  rw [bare_drop t hne, if_neg hapart, hl]

theorem Rooted.placed_put (ht : t.Rooted) {old content : List UInt8} {time time' : Int}
    {readable readable' : Bool} (h : t.get? l = some (.file old time readable)) :
    Placed t l content readable' (t.put l (.file content time' readable')) := by
  have hbare := bare_eq_file_iff.mpr ⟨time, h⟩
  have hl : l ≠ [] := by
    rintro rfl
    simp at hbare
  have hno : t.bare l ≠ some (.dir 0) := by simp [hbare]
  refine ⟨ht.put hl (ht l (isSome_bare h)) hno _, rfl, hno, ?_, fun l' hl' => ?_⟩
  · rw [bare_put t hl, if_pos rfl]
    rfl
  · rw [bare_put t hl, if_neg hl']

theorem Rooted.placed_enter (ht : t.Rooted) {dir : Location} {name : String}
    (hdir : t.bare dir = some (.dir 0)) (hnone : t.bare (dir ++ [name]) = none)
    (content : List UInt8) (time : Int) (readable : Bool) :
    Placed t (dir ++ [name]) content readable
      (t.enter dir name (.file content time readable)) := by
  have hno : t.bare (dir ++ [name]) ≠ some (.dir 0) := by simp [hnone]
  refine ⟨ht.enter hdir hno _, rfl, hno, ?_, fun l' hl' => ?_⟩
  · rw [bare_enter, if_pos rfl]
    rfl
  · rw [bare_enter, if_neg hl']

/-- A written file is at the target of its path. It can be read, unless it replaces a file that
cannot. -/
theorem Rooted.placed_write (ht : t.Rooted) {p : Path} {content : List UInt8}
    (h : t.write p content = .ok t') :
    (∃ place, t.resolve p = .ok place) ∧
      ∃ readable, Placed t (t.target p) content readable t' ∧
        (readable = true ∨ ∃ old time, t.stat p = .ok (.file old time false)) := by
  rw [write] at h
  split at h
  · next found old time readable hresolve =>
    obtain rfl := Except.ok.inj h
    obtain ⟨rfl, hget⟩ := resolve_entry hresolve
    refine ⟨⟨_, hresolve⟩, readable, ht.placed_put hget, ?_⟩
    cases readable with
    | true => exact .inl rfl
    | false => exact .inr ⟨old, time, by rw [stat, hresolve]⟩
  · cases h
  · next dir name hresolve =>
    obtain ⟨hdir, hnone, htarget⟩ := resolve_vacant hresolve
    split at h
    · cases h
    · obtain rfl := Except.ok.inj h
      exact ⟨⟨_, hresolve⟩, true, htarget ▸ ht.placed_enter hdir hnone content t.clock true,
        .inl rfl⟩
  · cases h

/-- A file that was moved is at the target of its new path, and no longer at its old one. -/
theorem Rooted.placed_moveFile (ht : t.Rooted) {source goal : Path} {content : List UInt8}
    {readable : Bool} (hsource : t.bare (t.target source) = some (.file content 0 readable))
    (hapart : ¬ t.target source <+: t.target goal) (h : t.moveFile source goal = .ok t') :
    (∃ place, t.resolve goal = .ok place) ∧
      Placed (t.drop (t.target source)) (t.target goal) content readable t' := by
  obtain ⟨time, hfile⟩ := bare_eq_file_iff.mp hsource
  have hold : t.target source ≠ [] := by
    intro heq
    simp [heq] at hsource
  have hdrop := ht.drop hold
  rw [moveFile] at h
  split at h
  · cases h
  · cases h
  · next old entry hresolve =>
    obtain ⟨rfl, hget⟩ := resolve_entry hresolve
    obtain rfl : entry = .file content time readable := Option.some.inj (hget.symm.trans hfile)
    split at h
    · cases h
    · cases h
    · next new content' time' readable' hgoal =>
      refine ⟨⟨_, hgoal⟩, ?_⟩
      obtain ⟨rfl, hnew⟩ := resolve_entry hgoal
      have hne : t.target source ≠ t.target goal := fun heq => hapart (heq ▸ List.prefix_rfl)
      rw [if_neg hne] at h
      obtain rfl := Except.ok.inj h
      have hleft : (t.drop (t.target source)).bare (t.target goal) =
          some (.file content' 0 readable') := by
        rw [bare_drop t hold, if_neg hapart, bare_eq_file_iff]
        exact ⟨time', hnew⟩
      obtain ⟨time'', hleft⟩ := bare_eq_file_iff.mp hleft
      exact (hdrop.placed_put hleft).stamp _ _
    · next dir name hgoal =>
      refine ⟨⟨_, hgoal⟩, ?_⟩
      obtain ⟨hdir, hnone, htarget⟩ := resolve_vacant hgoal
      split at h
      · cases h
      · obtain rfl := Except.ok.inj h
        rw [← htarget] at hapart ⊢
        have habove : ¬ t.target source <+: dir := fun hbelow =>
          hapart (hbelow.trans (List.prefix_append dir [name]))
        refine hdrop.placed_enter ?_ ?_ content time readable
        · rw [bare_drop t hold, if_neg habove, hdir]
        · rw [bare_drop t hold, if_neg hapart, hnone]

end Recheck.FileTree
