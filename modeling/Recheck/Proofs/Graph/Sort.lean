import Recheck.Proofs.Graph.Schedule

/-!
# Strict and tolerant sorting

The strict sort differs from the tolerant one in a single place: where a file needs an open one, it
fails instead of going on. So as long as it does not fail the two agree
(`topologicalSort_tolerant_of_strict`). The open files depend on the one being finished, which gives
a cycle where it fails (`dependsOn_self_of_strict_error`), and where it does not, each file comes
after all that it needs (`Grounded`), which leaves no room for a cycle. Both sorts are put together
in `tolerant_and_strict_sort`.
-/

namespace Recheck.Graph

/-! ## Files that are open -/

/-- The file `u` is about to be finished, up to the given depth, while the files `opened` are
open. -/
structure OnTrail (g : Graph) (depth : Nat) (opened : List Path) (u : Path) : Prop where
  mem : u ∈ g.files
  not_mem : u ∉ opened
  nodup : opened.Nodup
  subset : opened ⊆ g.files
  dependsOn : ∀ o ∈ opened, g.DependsOn o u
  depth : g.files.length ≤ depth + opened.length

namespace OnTrail

variable {g : Graph} {depth : Nat} {opened : List Path} {u v : Path}

theorem start (hu : u ∈ g.files) : OnTrail g g.files.length [] u where
  mem := hu
  not_mem := List.not_mem_nil
  nodup := .nil
  subset := List.nil_subset _
  dependsOn := by simp
  depth := by simp

/-- The open files and the one to be finished are different files of the graph, so there is some
depth left. -/
theorem depth_pos (h : OnTrail g depth opened u) : 0 < depth := by
  have hnodup : (u :: opened).Nodup := List.nodup_cons.mpr ⟨h.not_mem, h.nodup⟩
  have hsub : u :: opened ⊆ g.files := List.cons_subset.mpr ⟨h.mem, h.subset⟩
  have hle := (List.subperm_of_subset hnodup hsub).length_le
  have hdepth := h.depth
  rw [List.length_cons] at hle
  omega

theorem step (h : OnTrail g (depth + 1) opened u) (hneed : g.Needs u v) (hv : v ∉ u :: opened) :
    OnTrail g depth (u :: opened) v where
  mem := hneed.right_mem
  not_mem := hv
  nodup := List.nodup_cons.mpr ⟨h.not_mem, h.nodup⟩
  subset := List.cons_subset.mpr ⟨h.mem, h.subset⟩
  dependsOn o ho := by
    rcases List.mem_cons.mp ho with rfl | ho
    · exact .single hneed
    · exact (h.dependsOn o ho).tail hneed
  depth := by
    have hdepth := h.depth
    rw [List.length_cons]
    omega

/-- An open file that is needed again lies on a cycle. -/
theorem dependsOn_self (h : OnTrail g depth opened u) (hneed : g.Needs u v)
    (hv : v ∈ u :: opened) : g.DependsOn v v := by
  rcases List.mem_cons.mp hv with rfl | hv
  · exact .single hneed
  · exact (h.dependsOn v hv).tail hneed

end OnTrail

/-! ## Failing -/

theorem exists_error_of_foldlM {vs : List Path} {e : GraphError}
    {f : List Path → Path → Except GraphError (List Path)} {done : List Path}
    (h : vs.foldlM f done = .error e) : ∃ v ∈ vs, ∃ before, f before v = .error e := by
  induction vs generalizing done with
  | nil => cases h
  | cons v vs ih =>
    rw [List.foldlM_cons] at h
    cases hv : f done v with
    | error e' =>
      rw [hv] at h
      obtain rfl : e' = e := Except.error.inj h
      exact ⟨v, List.mem_cons_self, done, hv⟩
    | ok next =>
      rw [hv] at h
      obtain ⟨w, hw, before, hb⟩ := ih h
      exact ⟨w, List.mem_cons_of_mem v hw, before, hb⟩

theorem finish_error {g : Graph} {strict : Bool} {depth : Nat} {opened done : List Path} {u : Path}
    {e : GraphError} (he : finish g strict depth opened u done = .error e)
    (h : OnTrail g depth opened u) : ∃ w, e = .cycle w ∧ g.DependsOn w w := by
  induction depth generalizing opened u done with
  | zero => exact absurd h.depth_pos (Nat.lt_irrefl 0)
  | succ depth ih =>
    rw [finish] at he
    split at he
    · next e' hfold =>
      obtain rfl : e' = e := Except.error.inj he
      obtain ⟨v, hv, before, hstep⟩ := exists_error_of_foldlM hfold
      have hneed : g.Needs u v := mem_needs.mp hv
      split at hstep
      · next hopen =>
        split at hstep
        · exact ⟨v, (Except.error.inj hstep).symm, h.dependsOn_self hneed hopen⟩
        · cases hstep
      · next hopen =>
        split at hstep
        · cases hstep
        · exact ih hstep (h.step hneed hopen)
    · cases he

/-- A sort that fails names a file on a cycle. -/
theorem dependsOn_self_of_strict_error {g : Graph} {strict : Bool} {e : GraphError}
    (he : g.topologicalSort strict = .error e) : ∃ w, e = .cycle w ∧ g.DependsOn w w := by
  obtain ⟨u, hu, before, hstep⟩ := exists_error_of_foldlM he
  split at hstep
  · cases hstep
  · exact finish_error hstep (.start hu)

/-! ## Not failing -/

theorem foldlM_ok_mono {vs : List Path} {f f' : List Path → Path → Except GraphError (List Path)}
    (hstep : ∀ before v after, f before v = .ok after → f' before v = .ok after)
    {before after : List Path} (h : vs.foldlM f before = .ok after) :
    vs.foldlM f' before = .ok after := by
  induction vs generalizing before with
  | nil => exact h
  | cons v vs ih =>
    rw [List.foldlM_cons] at h ⊢
    cases hv : f before v with
    | error e =>
      rw [hv] at h
      cases h
    | ok next =>
      rw [hv] at h
      rw [hstep before v next hv]
      exact ih h

theorem finish_tolerant_of_strict {g : Graph} {depth : Nat} {opened done done' : List Path}
    {u : Path} (h : finish g true depth opened u done = .ok done') :
    finish g false depth opened u done = .ok done' := by
  induction depth generalizing opened u done done' with
  | zero => exact h
  | succ depth ih =>
    rw [finish] at h ⊢
    split at h
    · cases h
    · next after hfold =>
      rw [foldlM_ok_mono (fun before v after hv => ?_) hfold]
      · exact h
      · split at hv
        · cases hv
        · next hopen =>
          rw [if_neg hopen]
          split at hv
          · next hdone =>
            rw [if_pos hdone]
            exact hv
          · next hdone =>
            rw [if_neg hdone]
            exact ih hv

/-- Where the strict sort does not fail, the tolerant one gives the same order. -/
theorem topologicalSort_tolerant_of_strict {g : Graph} {order : List Path}
    (h : g.topologicalSort true = .ok order) : g.topologicalSort false = .ok order := by
  refine foldlM_ok_mono (fun before u after hu => ?_) h
  split at hu
  · next hdone =>
    rw [if_pos hdone]
    exact hu
  · next hdone =>
    rw [if_neg hdone]
    exact finish_tolerant_of_strict hu

/-- What each listed file needs is listed before it. -/
def Grounded (g : Graph) (done : List Path) : Prop :=
  ∀ before w after, done = before ++ w :: after → ∀ v, g.Needs w v → v ∈ before

namespace Grounded

variable {g : Graph} {done : List Path} {u : Path}

theorem append (h : Grounded g done) (hneeds : ∀ v, g.Needs u v → v ∈ done) :
    Grounded g (done ++ [u]) := by
  intro before w after heq v hv
  rcases after.eq_nil_or_concat with rfl | ⟨rest, last, rfl⟩
  · obtain ⟨rfl, hw⟩ := List.append_inj' heq rfl
    obtain rfl : u = w := by simpa using hw
    exact hneeds v hv
  · rw [List.concat_eq_append, ← List.cons_append, ← List.append_assoc] at heq
    obtain ⟨hdone, -⟩ := List.append_inj' heq rfl
    exact h before w rest hdone v hv

/-- What a listed file depends on is listed before it as well. -/
theorem mem_of_dependsOn (h : Grounded g done) {before after : List Path}
    (heq : done = before ++ u :: after) {x : Path} (hx : g.DependsOn u x) : x ∈ before := by
  induction hx with
  | single hv => exact h before u after heq _ hv
  | @tail w v _ hv ih =>
    obtain ⟨first, second, rfl⟩ := List.append_of_mem ih
    have hsplit : done = first ++ w :: (second ++ u :: after) := by rw [heq]; simp
    exact List.mem_append_left _ (h first w _ hsplit v hv)

theorem not_dependsOn_self (h : Grounded g done) (hnodup : done.Nodup) (hu : u ∈ done) :
    ¬ g.DependsOn u u := by
  intro hcycle
  obtain ⟨before, after, rfl⟩ := List.append_of_mem hu
  have hmem : u ∈ before := h.mem_of_dependsOn rfl hcycle
  exact (List.nodup_append.mp hnodup).2.2 u hmem u List.mem_cons_self rfl

end Grounded

theorem finish_grounded {g : Graph} {depth : Nat} {opened done done' : List Path} {u : Path}
    (hok : finish g true depth opened u done = .ok done') (ht : OnTrail g depth opened u)
    (hg : Grounded g done) : Grounded g done' ∧ done ⊆ done' ∧ u ∈ done' := by
  induction depth generalizing opened u done done' with
  | zero => exact absurd ht.depth_pos (Nat.lt_irrefl 0)
  | succ depth ih =>
    rw [finish] at hok
    split at hok
    · cases hok
    next after hfold =>
    obtain rfl : after ++ [u] = done' := Except.ok.inj hok
    have hloop := foldlM_collects (Grounded g) []
      (fun v hv before after hb hstep => ?_) done after hg hfold
    · obtain ⟨ha, hsub, hall⟩ := hloop
      have hneeds : ∀ v, g.Needs u v → v ∈ after := fun v hv =>
        (hall v (mem_needs.mpr hv)).resolve_right List.not_mem_nil
      exact ⟨ha.append hneeds, fun w hw => List.mem_append_left _ (hsub hw), by simp⟩
    split at hstep
    · cases hstep
    next hopen =>
    split at hstep
    · next hdone =>
      obtain rfl : before = after := Except.ok.inj hstep
      exact ⟨hb, fun _ h => h, .inl hdone⟩
    · obtain ⟨ha, hsub, hmem⟩ := ih hstep (ht.step (mem_needs.mp hv) hopen) hb
      exact ⟨ha, hsub, .inl hmem⟩

/-- In the order of the strict sort each file follows all that it needs. -/
theorem grounded_of_strict {g : Graph} {order : List Path}
    (hok : g.topologicalSort true = .ok order) : Grounded g order := by
  have hempty : Grounded g [] := fun before w after heq => by simp at heq
  refine (foldlM_collects (Grounded g) []
    (fun u hu before after hb hstep => ?_) [] order hempty hok).1
  split at hstep
  · next hdone =>
    obtain rfl : before = after := Except.ok.inj hstep
    exact ⟨hb, fun _ h => h, .inl hdone⟩
  · obtain ⟨ha, hsub, hmem⟩ := finish_grounded hstep (.start hu) hb
    exact ⟨ha, hsub, .inl hmem⟩

/-- The strict sort fails exactly if there is a cycle. -/
theorem topologicalSort_strict_ok_iff {g : Graph} :
    (∃ order, g.topologicalSort true = .ok order) ↔ ∀ u, ¬ g.DependsOn u u := by
  constructor
  · rintro ⟨order, hok⟩ u hcycle
    have hu : u ∈ order := (mem_topologicalSort hok).mpr hcycle.left_mem
    exact (grounded_of_strict hok).not_dependsOn_self (nodup_topologicalSort hok) hu hcycle
  · intro hacyclic
    cases hsort : g.topologicalSort true with
    | ok order => exact ⟨order, rfl⟩
    | error e =>
      obtain ⟨w, -, hcycle⟩ := dependsOn_self_of_strict_error hsort
      exact absurd hcycle (hacyclic w)

/-- The tolerant sort gives an order of all files for every graph. In it a file follows what it
needs, unless that depends on the file in turn, and a file on no cycle follows all that it depends
on. The strict sort gives the same order if no file depends on itself, and otherwise it fails and
names a file that does. -/
theorem tolerant_and_strict_sort (g : Graph) :
    ∃ order, g.topologicalSort false = .ok order ∧
      (order.Nodup ∧ ∀ u, u ∈ order ↔ u ∈ g.files) ∧
      (∀ u v, g.Needs u v → ¬ g.DependsOn v u → Precedes order v u) ∧
      (∀ u, ¬ g.DependsOn u u → ∀ x, g.DependsOn u x → Precedes order x u) ∧
      ((∃ order', g.topologicalSort true = .ok order') ↔ ∀ u, ¬ g.DependsOn u u) ∧
      (∀ order', g.topologicalSort true = .ok order' → order' = order) ∧
      ∀ e, g.topologicalSort true = .error e → ∃ w, e = .cycle w ∧ g.DependsOn w w := by
  obtain ⟨order, hok⟩ := topologicalSort_tolerant g
  have hmem : ∀ u, u ∈ order ↔ u ∈ g.files := fun u => mem_topologicalSort hok
  refine ⟨order, hok, ⟨nodup_topologicalSort hok, hmem⟩, fun u v hneed hback => ?_,
    fun u hacyclic x hx => ?_, topologicalSort_strict_ok_iff, fun order' hok' => ?_,
    fun e => dependsOn_self_of_strict_error⟩
  · obtain ⟨before, after, rfl⟩ := List.append_of_mem ((hmem u).mpr hneed.left_mem)
    exact ⟨before, after, rfl, mem_before_of_needsOneWay hok ⟨hneed, hback⟩⟩
  · obtain ⟨before, after, rfl⟩ := List.append_of_mem ((hmem u).mpr hx.left_mem)
    exact ⟨before, after, rfl, mem_before_of_dependsOn hok hacyclic hx⟩
  · exact Except.ok.inj ((topologicalSort_tolerant_of_strict hok').symm.trans hok)

end Recheck.Graph
