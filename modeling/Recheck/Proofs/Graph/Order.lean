import Mathlib.Data.List.Perm.Subperm
import Recheck.Graph.Order
import Recheck.Proofs.Graph.Edges

/-!
# The resolution order

The depth-first search behind `Graph.topologicalSort` keeps an invariant between the files it has
finished and those it has open (`Finished`): what a finished file needs is finished or open. An open
file depends on every file finished under it, so a file on no cycle finds all that it depends on
finished when its turn comes. At the end no file is open:

* `nodup_topologicalSort`, `mem_topologicalSort`: the order lists every file once;
* `mem_before_of_dependsOn`: what a file on no cycle depends on comes before it;
* `mem_before_of_needsOneWay`: what a file needs comes before it, unless it depends on the file in
  turn;
* `topologicalSort_tolerant`: the tolerant sort always gives an order.
-/

namespace Recheck.Graph

/-- The file `u` needs `v`, and `v` does not depend on it in turn. -/
def NeedsOneWay (g : Graph) (u v : Path) : Prop := g.Needs u v ∧ ¬ g.DependsOn v u

/-- What is finished before the file `u`: all that it depends on if it is on no cycle, and in any
case what it needs one way. -/
inductive Settles (g : Graph) (u x : Path) : Prop where
  | dependency (hx : g.DependsOn u x) (hacyclic : ¬ g.DependsOn u u)
  | need (hx : g.NeedsOneWay u x)

/-- `done` lists the files finished so far, in order, while the files `opened` are open. -/
structure Finished (g : Graph) (opened done : List Path) : Prop where
  nodup : done.Nodup
  mem : ∀ w ∈ done, w ∈ g.files
  apart : ∀ w ∈ done, w ∉ opened
  /-- What a finished file needs is finished or open. -/
  reached : ∀ w ∈ done, ∀ v, g.Needs w v → v ∈ done ∨ v ∈ opened
  settled : ∀ before w after, done = before ++ w :: after → ∀ x, g.Settles w x → x ∈ before

theorem Finished.nil (g : Graph) (opened : List Path) : Finished g opened [] where
  nodup := .nil
  mem := by simp
  apart := by simp
  reached := by simp
  settled := by simp

/-- Opening a file that is not finished keeps the invariant. -/
theorem Finished.open {g : Graph} {opened done : List Path} {u : Path} (h : Finished g opened done)
    (hu : u ∉ done) : Finished g (u :: opened) done where
  nodup := h.nodup
  mem := h.mem
  apart w hw := by
    rw [List.mem_cons, not_or]
    exact ⟨fun heq => hu (heq ▸ hw), h.apart w hw⟩
  reached w hw v hv := (h.reached w hw v hv).imp_right (List.mem_cons_of_mem u)
  settled := h.settled

/-- A chain from a file on no cycle never leaves the finished files: it would come back to the file
through an open one. -/
theorem Finished.mem_of_dependsOn {g : Graph} {opened done : List Path} {u x : Path}
    (h : Finished g (u :: opened) done) (hopened : ∀ o ∈ opened, g.DependsOn o u)
    (hneeds : ∀ v, g.Needs u v → v ∈ done ∨ v ∈ u :: opened) (hacyclic : ¬ g.DependsOn u u)
    (hx : g.DependsOn u x) : x ∈ done := by
  have hstep : ∀ x, g.DependsOn u x → x ∈ done ∨ x ∈ u :: opened → x ∈ done := by
    intro x hx hor
    refine hor.resolve_right fun hmem => ?_
    rcases List.mem_cons.mp hmem with rfl | hmem
    · exact hacyclic hx
    · exact hacyclic (hx.trans (hopened x hmem))
  induction hx with
  | single h' => exact hstep _ (.single h') (hneeds _ h')
  | tail hb hc ih => exact hstep _ (hb.tail hc) (h.reached _ ih _ hc)

/-- What an open file needs one way is finished: the open files depend on it. -/
theorem Finished.mem_of_needsOneWay {g : Graph} {opened done : List Path} {u x : Path}
    (hopened : ∀ o ∈ opened, g.DependsOn o u)
    (hneeds : ∀ v, g.Needs u v → v ∈ done ∨ v ∈ u :: opened) (hx : g.NeedsOneWay u x) :
    x ∈ done := by
  refine (hneeds x hx.1).resolve_right fun hmem => ?_
  rcases List.mem_cons.mp hmem with rfl | hmem
  · exact hx.2 (.single hx.1)
  · exact hx.2 (hopened x hmem)

/-- When all that an open file needs is finished or open, the file is finished next. -/
theorem Finished.close {g : Graph} {opened done : List Path} {u : Path}
    (h : Finished g (u :: opened) done) (hu : u ∈ g.files) (hn : u ∉ opened)
    (hopened : ∀ o ∈ opened, g.DependsOn o u)
    (hneeds : ∀ v, g.Needs u v → v ∈ done ∨ v ∈ u :: opened) : Finished g opened (done ++ [u]) where
  nodup := by
    have hud : u ∉ done := fun hu => h.apart u hu (List.mem_cons_self ..)
    refine List.nodup_append.mpr ⟨h.nodup, by simp, fun w hw x hx heq => hud ?_⟩
    rwa [← List.mem_singleton.mp hx, ← heq]
  mem w hw := by
    rcases List.mem_append.mp hw with hw | hw
    · exact h.mem w hw
    · rwa [List.mem_singleton.mp hw]
  apart w hw := by
    rcases List.mem_append.mp hw with hw | hw
    · exact fun ho => h.apart w hw (List.mem_cons_of_mem _ ho)
    · rwa [List.mem_singleton.mp hw]
  reached w hw v hv := by
    have hor : v ∈ done ∨ v ∈ u :: opened := by
      rcases List.mem_append.mp hw with hw | hw
      · exact h.reached w hw v hv
      · exact hneeds v (List.mem_singleton.mp hw ▸ hv)
    rcases hor with hor | hor
    · exact .inl (List.mem_append_left _ hor)
    · rcases List.mem_cons.mp hor with rfl | hor
      · exact .inl (by simp)
      · exact .inr hor
  settled before w after heq x hx := by
    rcases after.eq_nil_or_concat with rfl | ⟨rest, last, rfl⟩
    · obtain ⟨rfl, hw⟩ := List.append_inj' heq rfl
      obtain rfl : u = w := by simpa using hw
      rcases hx with ⟨hx, hacyclic⟩ | hx
      · exact h.mem_of_dependsOn hopened hneeds hacyclic hx
      · exact Finished.mem_of_needsOneWay hopened hneeds hx
    · rw [List.concat_eq_append, ← List.cons_append, ← List.append_assoc] at heq
      obtain ⟨hdone, -⟩ := List.append_inj' heq rfl
      exact h.settled before w rest hdone x hx

/-! ## The search -/

/-- A loop each step of which keeps `inv`, drops nothing and collects its element, unless that is
among `rest`, does so as a whole. -/
theorem foldlM_collects (inv : List Path → Prop) (rest : List Path) {vs : List Path}
    {f : List Path → Path → Except GraphError (List Path)}
    (hstep : ∀ v ∈ vs, ∀ before after, inv before → f before v = .ok after →
      inv after ∧ before ⊆ after ∧ (v ∈ after ∨ v ∈ rest)) :
    ∀ before after, inv before → vs.foldlM f before = .ok after →
      inv after ∧ before ⊆ after ∧ ∀ v ∈ vs, v ∈ after ∨ v ∈ rest := by
  induction vs with
  | nil =>
    intro before after hb hfold
    obtain rfl : before = after := by simpa [pure, Except.pure] using hfold
    exact ⟨hb, fun _ h => h, by simp⟩
  | cons v vs ih =>
    intro before after hb hfold
    rw [List.foldlM_cons] at hfold
    cases hv : f before v with
    | error e => simp [hv, bind, Except.bind] at hfold
    | ok mid =>
      simp only [hv, bind, Except.bind] at hfold
      obtain ⟨hm, hbm, hvm⟩ := hstep v (List.mem_cons_self ..) before mid hb hv
      obtain ⟨ha, hma, hall⟩ :=
        ih (fun w hw => hstep w (List.mem_cons_of_mem _ hw)) mid after hm hfold
      refine ⟨ha, fun w hw => hma (hbm hw), fun w hw => ?_⟩
      rcases List.mem_cons.mp hw with rfl | hw
      · exact hvm.imp_left fun h => hma h
      · exact hall w hw

theorem finish_spec {g : Graph} {strict : Bool} {depth : Nat} {opened done done' : List Path}
    {u : Path} (hok : finish g strict depth opened u done = .ok done')
    (h : Finished g opened done) (hu : u ∈ g.files) (huo : u ∉ opened) (hud : u ∉ done)
    (hnodup : opened.Nodup) (hmem : opened ⊆ g.files) (hopened : ∀ o ∈ opened, g.DependsOn o u)
    (hdepth : g.files.length ≤ depth + opened.length) :
    Finished g opened done' ∧ done ⊆ done' ∧ u ∈ done' := by
  induction depth generalizing opened u done done' with
  | zero =>
    -- All files are open, and `u` is one more.
    have hsub : u :: opened ⊆ g.files := List.cons_subset.mpr ⟨hu, hmem⟩
    have hle := (List.subperm_of_subset (List.nodup_cons.mpr ⟨huo, hnodup⟩) hsub).length_le
    simp only [List.length_cons] at hle
    omega
  | succ depth ih =>
    rw [finish] at hok
    split at hok
    · cases hok
    next after hfold =>
    obtain rfl : after ++ [u] = done' := by simpa using hok
    have hloop := foldlM_collects (Finished g (u :: opened)) (u :: opened)
      (fun v hv before after hb hv' => ?_) done after (h.open hud) hfold
    · obtain ⟨ha, hsub, hall⟩ := hloop
      exact ⟨ha.close hu huo hopened fun v hv => hall v (mem_needs.mpr hv),
        fun w hw => List.mem_append_left _ (hsub hw), by simp⟩
    have hneed : g.Needs u v := mem_needs.mp hv
    by_cases hvo : v ∈ u :: opened
    · rw [if_pos hvo] at hv'
      split at hv'
      · cases hv'
      · obtain rfl : before = after := by simpa using hv'
        exact ⟨hb, fun _ h => h, .inr hvo⟩
    rw [if_neg hvo] at hv'
    by_cases hvd : v ∈ before
    · rw [if_pos hvd] at hv'
      obtain rfl : before = after := by simpa using hv'
      exact ⟨hb, fun _ h => h, .inl hvd⟩
    · rw [if_neg hvd] at hv'
      have hchain : ∀ o ∈ u :: opened, g.DependsOn o v := by
        intro o ho
        rcases List.mem_cons.mp ho with rfl | ho
        · exact .single hneed
        · exact (hopened o ho).tail hneed
      obtain ⟨ha, hsub, hmem'⟩ := ih hv' hb hneed.right_mem hvo hvd
        (List.nodup_cons.mpr ⟨huo, hnodup⟩) (List.cons_subset.mpr ⟨hu, hmem⟩) hchain
        (by simp only [List.length_cons]; omega)
      exact ⟨ha, hsub, .inl hmem'⟩

/-- At the end of the search every file is finished and none is open. -/
theorem finished_topologicalSort {g : Graph} {strict : Bool} {order : List Path}
    (hok : g.topologicalSort strict = .ok order) :
    Finished g [] order ∧ ∀ u ∈ g.files, u ∈ order := by
  have hloop := foldlM_collects (Finished g []) []
    (fun u hu before after hb hstep => ?_) [] order (Finished.nil g []) hok
  · obtain ⟨ha, -, hall⟩ := hloop
    exact ⟨ha, fun u hu => (hall u hu).resolve_right List.not_mem_nil⟩
  by_cases hud : u ∈ before
  · rw [if_pos hud] at hstep
    obtain rfl : before = after := by simpa using hstep
    exact ⟨hb, fun _ h => h, .inl hud⟩
  · rw [if_neg hud] at hstep
    obtain ⟨ha, hsub, hmem⟩ := finish_spec hstep hb hu List.not_mem_nil hud .nil
      (List.nil_subset _) (by simp) (by simp)
    exact ⟨ha, hsub, .inl hmem⟩

theorem nodup_topologicalSort {g : Graph} {strict : Bool} {order : List Path}
    (hok : g.topologicalSort strict = .ok order) : order.Nodup :=
  (finished_topologicalSort hok).1.nodup

theorem mem_topologicalSort {g : Graph} {strict : Bool} {order : List Path}
    (hok : g.topologicalSort strict = .ok order) {u : Path} : u ∈ order ↔ u ∈ g.files :=
  ⟨(finished_topologicalSort hok).1.mem u, (finished_topologicalSort hok).2 u⟩

/-- All that a file on no cycle depends on precedes it in the order. -/
theorem mem_before_of_dependsOn {g : Graph} {strict : Bool} {before after : List Path} {u x : Path}
    (hok : g.topologicalSort strict = .ok (before ++ u :: after)) (hacyclic : ¬ g.DependsOn u u)
    (hx : g.DependsOn u x) : x ∈ before :=
  (finished_topologicalSort hok).1.settled before u after rfl x (.dependency hx hacyclic)

/-- What a file needs precedes it in the order, unless it depends on the file in turn. -/
theorem mem_before_of_needsOneWay {g : Graph} {strict : Bool} {before after : List Path}
    {u x : Path} (hok : g.topologicalSort strict = .ok (before ++ u :: after))
    (hx : g.NeedsOneWay u x) :
    x ∈ before :=
  (finished_topologicalSort hok).1.settled before u after rfl x (.need hx)

/-! ## The tolerant sort -/

theorem foldlM_ok {α : Type} {f : List Path → α → Except GraphError (List Path)}
    (hf : ∀ done a, ∃ done', f done a = .ok done') (as : List α) (done : List Path) :
    ∃ done', as.foldlM f done = .ok done' := by
  induction as generalizing done with
  | nil => exact ⟨done, rfl⟩
  | cons a as ih =>
    obtain ⟨mid, hmid⟩ := hf done a
    obtain ⟨done', hdone'⟩ := ih mid
    exact ⟨done', by rw [List.foldlM_cons, hmid]; exact hdone'⟩

theorem finish_tolerant (g : Graph) (depth : Nat) (opened : List Path) (u : Path)
    (done : List Path) : ∃ done', finish g false depth opened u done = .ok done' := by
  induction depth generalizing opened u done with
  | zero => exact ⟨done, rfl⟩
  | succ depth ih =>
    have hstep : ∀ (done : List Path) (v : Path), ∃ done',
        (if v ∈ u :: opened then if false then .error (.cycle v) else .ok done
          else if v ∈ done then .ok done
          else finish g false depth (u :: opened) v done) = .ok done' := by
      intro done v
      split
      · exact ⟨done, rfl⟩
      split
      · exact ⟨done, rfl⟩
      · exact ih ..
    obtain ⟨done', hdone'⟩ := foldlM_ok hstep (g.needs u) done
    exact ⟨done' ++ [u], by rw [finish, hdone']⟩

/-- The tolerant sort gives an order for every graph. -/
theorem topologicalSort_tolerant (g : Graph) : ∃ order, g.topologicalSort false = .ok order := by
  refine foldlM_ok (fun done u => ?_) g.files []
  split
  · exact ⟨done, rfl⟩
  · exact finish_tolerant ..

end Recheck.Graph
