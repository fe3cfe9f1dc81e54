import Mathlib.Data.Finset.Card
import Recheck.Graph.Dependents
import Recheck.Proofs.Graph.Edges

/-!
# Transitive dependents are reverse reachability

The search behind `Graph.transitiveDependents` only ever adds files that depend on its start
(`Collected.sound`) and leaves no dependent of an added file out (`Collected.closed`), provided its
depth exceeds the number of files it has not seen. `mem_transitiveDependents` is the outcome.
-/

namespace Recheck.Graph

/-- A search from `u` that knew the files `seen` has found `result`. -/
structure Collected (g : Graph) (u : Path) (seen result : List Path) : Prop where
  grows : seen ⊆ result
  sound : ∀ w ∈ result, w ∉ seen → g.DependsOn w u
  closed : ∀ w ∈ result, w ∉ seen → ∀ x, g.Needs x w → x ∈ result

/-- The number of files that are not in `seen`. -/
def unseen (g : Graph) (seen : List Path) : Nat := (g.files.toFinset \ seen.toFinset).card

theorem unseen_lt {g : Graph} {v : Path} {seen seen' : List Path} (hv : v ∈ g.files)
    (hn : v ∉ seen') (hs : seen ⊆ seen') : g.unseen (v :: seen') < g.unseen seen := by
  refine Finset.card_lt_card (Finset.ssubset_iff_of_subset ?_ |>.mpr ⟨v, ?_, ?_⟩)
  · intro w hw
    simp only [Finset.mem_sdiff, List.mem_toFinset, List.mem_cons, not_or] at hw ⊢
    exact ⟨hw.1, fun h => hw.2.2 (hs h)⟩
  · simp only [Finset.mem_sdiff, List.mem_toFinset]
    exact ⟨hv, fun h => hn (hs h)⟩
  · simp

/-- One step of the search: a dependent `v` of `u` is passed over if it is known, and searched from
otherwise. -/
theorem Collected.step {g : Graph} {u v : Path} {seen found next : List Path}
    (h : Collected g u seen found) (hv : g.Needs v u) (hnext : Collected g v (v :: found) next)
    (hdirect : ∀ x, g.Needs x v → x ∈ next) : Collected g u seen next := by
  have hmono : found ⊆ next := fun w hw => hnext.grows (List.mem_cons_of_mem _ hw)
  refine ⟨fun w hw => hmono (h.grows hw), fun w hw hns => ?_, fun w hw hns => ?_⟩
  · by_cases hwf : w ∈ found
    · exact h.sound w hwf hns
    by_cases hwv : w = v
    · exact hwv ▸ .single hv
    · exact (hnext.sound w hw (by simp [hwv, hwf])).tail hv
  · by_cases hwf : w ∈ found
    · exact fun x hx => hmono (h.closed w hwf hns x hx)
    by_cases hwv : w = v
    · exact hwv ▸ hdirect
    · exact hnext.closed w hw (by simp [hwv, hwf])

theorem collectDependents_spec (g : Graph) (depth : Nat) (u : Path) (seen : List Path)
    (hdepth : g.unseen seen < depth) :
    Collected g u seen (collectDependents g depth u seen) ∧
      ∀ x, g.Needs x u → x ∈ collectDependents g depth u seen := by
  induction depth generalizing u seen with
  | zero => omega
  | succ depth ih =>
    rw [collectDependents]
    -- The fold over the direct dependents keeps `Collected` and has found those it has passed.
    suffices hfold : ∀ (vs found : List Path), (∀ v ∈ vs, g.Needs v u) → Collected g u seen found →
        Collected g u seen (vs.foldl
          (fun found v =>
            if v ∈ found then found else collectDependents g depth v (v :: found)) found) ∧
        found ⊆ vs.foldl
          (fun found v =>
            if v ∈ found then found else collectDependents g depth v (v :: found)) found ∧
        vs ⊆ vs.foldl
          (fun found v =>
            if v ∈ found then found else collectDependents g depth v (v :: found)) found by
      have hstart : Collected g u seen seen :=
        ⟨fun _ h => h, fun _ h hn => absurd h hn, fun _ h hn => absurd h hn⟩
      obtain ⟨hc, -, hvs⟩ := hfold (g.neededBy u) seen (fun v hv => mem_neededBy.mp hv) hstart
      exact ⟨hc, fun x hx => hvs (mem_neededBy.mpr hx)⟩
    intro vs
    induction vs with
    | nil => exact fun found _ h => ⟨h, fun _ h => h, List.nil_subset _⟩
    | cons v vs ihvs =>
      intro found hvs h
      have hv := hvs v (List.mem_cons_self ..)
      have hrest : ∀ v ∈ vs, g.Needs v u := fun w hw => hvs w (List.mem_cons_of_mem _ hw)
      rw [List.foldl_cons]
      split
      · next hmem =>
        obtain ⟨hc, hgrow, hsub⟩ := ihvs found hrest h
        exact ⟨hc, hgrow, List.cons_subset.mpr ⟨hgrow hmem, hsub⟩⟩
      · next hmem =>
        have hlt := unseen_lt hv.left_mem hmem h.grows
        obtain ⟨hnext, hdirect⟩ := ih v (v :: found) (by omega)
        obtain ⟨hc, hgrow, hsub⟩ := ihvs _ hrest (h.step hv hnext hdirect)
        refine ⟨hc, fun w hw => hgrow (hnext.grows (List.mem_cons_of_mem _ hw)),
          List.cons_subset.mpr ⟨hgrow (hnext.grows (List.mem_cons_self ..)), hsub⟩⟩

/-- Files that are closed under what needs them, with all that need `u`, are all that depend on
it. -/
theorem mem_of_dependsOn {g : Graph} {u v : Path} {found : List Path}
    (hdirect : ∀ x, g.Needs x u → x ∈ found)
    (hclosed : ∀ w ∈ found, ∀ x, g.Needs x w → x ∈ found) (h : g.DependsOn v u) : v ∈ found := by
  -- The chain is followed from its end at `u`; each file on it is found because the next one is.
  induction h using Relation.TransGen.head_induction_on with
  | single h => exact hdirect _ h
  | head h _ ih => exact hclosed _ ih _ h

/-- The transitive dependents of a file are the files that reach it along edges. -/
theorem mem_transitiveDependents_of_mem {g : Graph} {u v : Path} (hu : u ∈ g.files) :
    v ∈ g.transitiveDependents u ↔ g.DependsOn v u := by
  have hdepth : g.unseen [] < g.files.length + 1 := by
    have := List.toFinset_card_le g.files
    simp only [unseen, List.toFinset_nil, Finset.sdiff_empty]
    omega
  rw [transitiveDependents, find?_of_mem hu]
  obtain ⟨hc, hdirect⟩ := collectDependents_spec g (g.files.length + 1) u [] hdepth
  exact ⟨fun h => hc.sound v h List.not_mem_nil,
    mem_of_dependsOn hdirect fun w hw => hc.closed w hw List.not_mem_nil⟩

/-- A file is added to those seen only if it is not among them. -/
theorem nodup_collectDependents (g : Graph) (depth : Nat) (u : Path) {seen : List Path}
    (h : seen.Nodup) : (collectDependents g depth u seen).Nodup := by
  induction depth generalizing u seen with
  | zero => exact h
  | succ depth ih =>
    rw [collectDependents]
    refine List.foldlRecOn _ _ h fun found hfound v _ => ?_
    split
    · exact hfound
    · next hv => exact ih v (hfound.cons hv)

theorem nodup_transitiveDependents (g : Graph) (p : Path) : (g.transitiveDependents p).Nodup := by
  rw [transitiveDependents]
  split
  · exact nodup_collectDependents g _ _ .nil
  · exact .nil

theorem transitiveDependents_of_find? {g : Graph} {p u : Path} (h : g.find? p = some u) :
    g.transitiveDependents p = g.transitiveDependents u := by
  rw [transitiveDependents, transitiveDependents, h, find?_of_mem (mem_of_find?_eq_some h)]

/-- The transitive dependents of a path are those of the file that it spells. -/
theorem mem_transitiveDependents {g : Graph} {p v : Path} :
    v ∈ g.transitiveDependents p ↔ ∃ u ∈ g.files, Path.Same u p ∧ g.DependsOn v u := by
  cases h : g.find? p with
  | none =>
    have hnone := not_same_of_find?_eq_none h
    simp only [transitiveDependents, h, List.not_mem_nil, false_iff, not_exists, not_and]
    exact fun u hu hs => absurd hs (hnone u hu)
  | some u =>
    obtain ⟨hu, hs⟩ := Path.find?_spec h
    rw [transitiveDependents_of_find? h, mem_transitiveDependents_of_mem hu]
    refine ⟨fun hv => ⟨u, hu, hs, hv⟩, ?_⟩
    rintro ⟨w, hw, hws, hv⟩
    rwa [Path.eq_of_same g.files_distinct hu hw (hs.trans hws.symm)]

end Recheck.Graph
