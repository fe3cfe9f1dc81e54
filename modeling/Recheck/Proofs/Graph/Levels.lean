import Mathlib.Order.Bounds.Defs
import Recheck.Proofs.Graph.Sort

/-!
# Layers of the tolerant order

An edge that runs with the tolerant order leads to an earlier layer, since layers are made so. An
edge that runs against it closes a cycle of the depth-first search: the file it leads to was open
when the edge was met, and everything finished while a file is open is reached from it along edges
that run with the order (`Descends`). These lead down from layer to layer, so the edge leads to a
later layer (`layer_ne_of_needs`). In a graph without cycles every edge runs with the order,
and the layers count the longest chains (`isGreatest_chainLengths`).
-/

namespace Recheck.Graph

/-- The file `u` needs `v`, and `v` precedes it in the list. -/
def Descends (g : Graph) (done : List Path) (u v : Path) : Prop :=
  g.Needs u v ∧ Precedes done v u

/-- A chain of descents stays one when the list grows. -/
theorem descends_extend {g : Graph} {done done' : List Path} (hinit : done <+: done') {u v : Path}
    (h : Relation.ReflTransGen (g.Descends done) u v) :
    Relation.ReflTransGen (g.Descends done') u v := by
  obtain ⟨rest, rfl⟩ := hinit
  exact h.lift id fun a b hab => ⟨hab.1, hab.2.append [] rest⟩

/-! ## What is finished under an open file -/

theorem foldlM_inv {vs : List Path} {f : List Path → Path → Except GraphError (List Path)}
    (inv : List Path → Prop)
    (hstep : ∀ v ∈ vs, ∀ before after, inv before → f before v = .ok after → inv after)
    {before after : List Path} (hb : inv before) (h : vs.foldlM f before = .ok after) :
    inv after := by
  induction vs generalizing before with
  | nil =>
    obtain rfl : before = after := by simpa [pure, Except.pure] using h
    exact hb
  | cons v vs ih =>
    rw [List.foldlM_cons] at h
    cases hv : f before v with
    | error e => simp [hv, bind, Except.bind] at h
    | ok mid =>
      simp only [hv, bind, Except.bind] at h
      exact ih (fun w hw => hstep w (List.mem_cons_of_mem v hw))
        (hstep v List.mem_cons_self before mid hb hv) h

theorem finish_extends {g : Graph} {strict : Bool} {depth : Nat} {opened done done' : List Path}
    {u : Path} (hok : finish g strict depth opened u done = .ok done') : done <+: done' := by
  induction depth generalizing opened u done done' with
  | zero =>
    obtain rfl : done = done' := Except.ok.inj hok
    exact List.prefix_rfl
  | succ depth ih =>
    rw [finish] at hok
    split at hok
    · cases hok
    next after hfold =>
    obtain rfl : after ++ [u] = done' := Except.ok.inj hok
    refine (foldlM_inv (done <+: ·) (fun v _ before after hb hstep => ?_) List.prefix_rfl
      hfold).trans
      (List.prefix_append ..)
    split at hstep
    · split at hstep
      · cases hstep
      · exact Except.ok.inj hstep ▸ hb
    · split at hstep
      · exact Except.ok.inj hstep ▸ hb
      · exact hb.trans (ih hstep)

/-- An edge between listed files that runs against the list leads to a file from which edges with
the list lead back. -/
def Unwound (g : Graph) (done : List Path) : Prop :=
  ∀ before v after, done = before ++ v :: after → ∀ u ∈ before, g.Needs u v →
    Relation.ReflTransGen (g.Descends done) v u

/-- The file `u` is open since the files `done` were finished. What was finished under it is reached
from it along edges with the list. -/
def Under (g : Graph) (done : List Path) (u : Path) (now : List Path) : Prop :=
  ∀ w ∈ now, w ∈ done ∨ ∃ v ∈ now, g.Needs u v ∧ Relation.ReflTransGen (g.Descends now) v w

/-- When an open file is finished, it is listed after what was finished under it. -/
theorem Under.close {g : Graph} {done now : List Path} {u : Path} (h : Under g done u now) :
    ∀ w ∈ now ++ [u], w ∈ done ∨ Relation.ReflTransGen (g.Descends (now ++ [u])) u w := by
  intro w hw
  rcases List.mem_append.mp hw with hw | hw
  · refine (h w hw).imp_right ?_
    rintro ⟨v, hv, hneed, hchain⟩
    have hfirst : g.Descends (now ++ [u]) u v := ⟨hneed, now, [], rfl, hv⟩
    exact .head hfirst (descends_extend (List.prefix_append ..) hchain)
  · obtain rfl := List.mem_singleton.mp hw
    exact .inr .refl

theorem Unwound.close {g : Graph} {done now : List Path} {u : Path} (h : Unwound g now)
    (hunder : Under g done u now) (hdone : ∀ w ∈ done, ¬ g.Needs w u) :
    Unwound g (now ++ [u]) := by
  intro before v after heq w hw hneed
  rcases after.eq_nil_or_concat with rfl | ⟨rest, last, rfl⟩
  · obtain ⟨rfl, hv⟩ := List.append_inj' heq rfl
    obtain rfl : u = v := by simpa using hv
    exact (hunder.close w (List.mem_append_left _ hw)).resolve_left fun hw => hdone w hw hneed
  · rw [List.concat_eq_append, ← List.cons_append, ← List.append_assoc] at heq
    obtain ⟨hnow, -⟩ := List.append_inj' heq rfl
    exact descends_extend (List.prefix_append ..) (h before v rest hnow w hw hneed)

theorem finish_unwound {g : Graph} {strict : Bool} {depth : Nat} {opened done done' : List Path}
    {u : Path} (hok : finish g strict depth opened u done = .ok done')
    (ht : OnTrail g depth opened u) (hud : u ∉ done) (hf : Finished g opened done)
    (h : Unwound g done) :
    Unwound g done' ∧ ∀ w ∈ done', w ∈ done ∨ Relation.ReflTransGen (g.Descends done') u w := by
  induction depth generalizing opened u done done' with
  | zero => exact absurd ht.depth_pos (Nat.lt_irrefl 0)
  | succ depth ih =>
    have hdone : ∀ w ∈ done, ¬ g.Needs w u := fun w hw hneed =>
      (hf.reached w hw u hneed).elim hud ht.not_mem
    rw [finish] at hok
    split at hok
    · cases hok
    next now hfold =>
    obtain rfl : now ++ [u] = done' := Except.ok.inj hok
    have hloop := foldlM_inv
      (fun now => Finished g (u :: opened) now ∧ Unwound g now ∧ Under g done u now)
      (fun v hv before after hb hstep => ?_) ⟨hf.open hud, h, fun w hw => .inl hw⟩ hfold
    · obtain ⟨-, hunwound, hunder⟩ := hloop
      exact ⟨hunwound.close hunder hdone, hunder.close⟩
    obtain ⟨hfin, hunwound, hunder⟩ := hb
    have hneed : g.Needs u v := mem_needs.mp hv
    split at hstep
    · split at hstep
      · cases hstep
      · exact Except.ok.inj hstep ▸ ⟨hfin, hunwound, hunder⟩
    next hvo =>
    split at hstep
    · exact Except.ok.inj hstep ▸ ⟨hfin, hunwound, hunder⟩
    next hvd =>
    have ht' := ht.step hneed hvo
    obtain ⟨hfin', -, hmem⟩ := finish_spec hstep hfin ht'.mem hvo hvd ht'.nodup ht'.subset
      ht'.dependsOn ht'.depth
    obtain ⟨hunwound', hreach⟩ := ih hstep ht' hvd hfin hunwound
    have hinit := finish_extends hstep
    refine ⟨hfin', hunwound', fun w hw => ?_⟩
    rcases hreach w hw with hw | hw
    · refine (hunder w hw).imp_right ?_
      rintro ⟨x, hx, hneed', hchain⟩
      exact ⟨x, hinit.subset hx, hneed', descends_extend hinit hchain⟩
    · exact .inr ⟨v, hmem, hneed, hw⟩

/-- In the order of a sort, an edge against the order leads to a file from which edges with the
order lead back. -/
theorem unwound_topologicalSort {g : Graph} {strict : Bool} {order : List Path}
    (hok : g.topologicalSort strict = .ok order) : Unwound g order := by
  have hempty : Unwound g [] := fun before v after heq => by simp at heq
  refine (foldlM_inv (fun now => Finished g [] now ∧ Unwound g now)
    (fun u hu before after hb hstep => ?_) ⟨Finished.nil g [], hempty⟩ hok).2
  split at hstep
  · exact Except.ok.inj hstep ▸ hb
  next hud =>
  have ht := OnTrail.start hu
  exact ⟨(finish_spec hstep hb.1 hu ht.not_mem hud ht.nodup ht.subset ht.dependsOn ht.depth).1,
    (finish_unwound hstep ht hud hb.1 hb.2).1⟩

/-! ## Edges and layers -/

section Edges

variable {g : Graph} {strict : Bool} {order : List Path}
  (hok : g.topologicalSort strict = .ok order)
include hok

theorem existsUnique_inLayer {u : Path} (hu : u ∈ g.files) :
    ∃! k, InLayer (g.layers order) k u := by
  have hperm := layers_perm (nodup_topologicalSort hok) fun _ hp => (mem_topologicalSort hok).mp hp
  obtain ⟨k, hk⟩ := exists_inLayer (hperm.mem_iff.mpr ((mem_topologicalSort hok).mpr hu))
  exact ⟨k, hk, fun l hl => InLayer.unique (nodup_flatten_layers hok) hl hk⟩

theorem layer_lt_of_descends {u v : Path} (h : g.Descends order u v) {k l : Nat}
    (hk : InLayer (g.layers order) k u) (hl : InLayer (g.layers order) l v) : l < k := by
  obtain ⟨hneed, before, after, heq, hv⟩ := h
  obtain ⟨k', l', hlt, hk', hl'⟩ := exists_layer_lt (nodup_topologicalSort hok)
    (fun _ hp => (mem_topologicalSort hok).mp hp) heq hv hneed
  rwa [InLayer.unique (nodup_flatten_layers hok) hk hk',
    InLayer.unique (nodup_flatten_layers hok) hl hl']

theorem layer_le_of_descends {u v : Path} (h : Relation.ReflTransGen (g.Descends order) u v)
    {k l : Nat} (hk : InLayer (g.layers order) k u) (hl : InLayer (g.layers order) l v) :
    l ≤ k ∧ (u ≠ v → l < k) := by
  induction h generalizing l with
  | refl =>
    rw [InLayer.unique (nodup_flatten_layers hok) hl hk]
    exact ⟨Nat.le_refl k, fun h => absurd rfl h⟩
  | tail _ hlast ih =>
    obtain ⟨m, hm, -⟩ := existsUnique_inLayer hok hlast.1.left_mem
    have hlt := layer_lt_of_descends hok hlast hm hl
    have hle := (ih hm).1
    exact ⟨by omega, fun _ => by omega⟩

/-- The ends of an edge lie in different layers, and the layers stand as the files do in the
order. -/
theorem layer_ne_of_needs {u v : Path} (hneed : g.Needs u v) (hne : u ≠ v) {k l : Nat}
    (hk : InLayer (g.layers order) k u) (hl : InLayer (g.layers order) l v) :
    k ≠ l ∧ (l < k ↔ Precedes order v u) := by
  have hnodup := nodup_topologicalSort hok
  by_cases hprec : Precedes order v u
  · have hlt := layer_lt_of_descends hok ⟨hneed, hprec⟩ hk hl
    exact ⟨by omega, fun _ => hprec, fun _ => hlt⟩
  · -- The edge runs against the order, so `u` comes before `v` and is reached from it.
    obtain ⟨before, after, heq⟩ :=
      List.append_of_mem ((mem_topologicalSort hok).mpr hneed.right_mem)
    have hu : u ∈ before := by
      have hmem : u ∈ order := (mem_topologicalSort hok).mpr hneed.left_mem
      rw [heq] at hmem hprec hnodup
      rcases List.mem_append.mp hmem with hu | hu
      · exact hu
      · rcases List.mem_cons.mp hu with rfl | hu
        · exact absurd rfl hne
        · obtain ⟨middle, rest, rfl⟩ := List.append_of_mem hu
          exact absurd ⟨before ++ v :: middle, rest, by simp, by simp⟩ hprec
    have hback := unwound_topologicalSort hok before v after heq u hu hneed
    have hlt := (layer_le_of_descends hok hback hl hk).2 (Ne.symm hne)
    exact ⟨by omega, fun h => by omega, fun h => absurd h hprec⟩

end Edges

/-! ## Longest chains -/

/-- The lengths of the chains of needs that start at a file. -/
def chainLengths (g : Graph) (u : Path) : Set Nat :=
  {n | ∃ chain : List Path, (u :: chain).IsChain g.Needs ∧ chain.length = n}

section Acyclic

variable {g : Graph} {order : List Path} (hok : g.topologicalSort false = .ok order)
  (hacyclic : ∀ u, ¬ g.DependsOn u u)
include hok hacyclic

theorem length_chain_le {u : Path} {chain : List Path} (hchain : (u :: chain).IsChain g.Needs)
    {k : Nat} (hk : InLayer (g.layers order) k u) : chain.length ≤ k := by
  induction chain generalizing u k with
  | nil => exact Nat.zero_le k
  | cons v chain ih =>
    obtain ⟨hneed, hrest⟩ := List.isChain_cons_cons.mp hchain
    obtain ⟨l, hl, -⟩ := existsUnique_inLayer hok hneed.right_mem
    obtain ⟨before, after, heq⟩ := List.append_of_mem ((mem_topologicalSort hok).mpr hneed.left_mem)
    have hprec : Precedes order v u := by
      refine ⟨before, after, heq, ?_⟩
      subst heq
      exact mem_before_of_dependsOn hok (hacyclic u) (.single hneed)
    have hlt := layer_lt_of_descends hok ⟨hneed, hprec⟩ hk hl
    have hle := ih hrest hl
    rw [List.length_cons]
    omega

omit hacyclic in
theorem exists_chain_of_layer {u : Path} {k : Nat} (hk : InLayer (g.layers order) k u)
    (hu : u ∈ g.files) : ∃ chain : List Path, (u :: chain).IsChain g.Needs ∧ chain.length = k := by
  induction k generalizing u with
  | zero => exact ⟨[], .singleton u, rfl⟩
  | succ k ih =>
    obtain ⟨before, after, heq⟩ := List.append_of_mem ((mem_topologicalSort hok).mpr hu)
    obtain ⟨k', hk', htight⟩ := exists_layer_tight (nodup_topologicalSort hok)
      (fun _ hp => (mem_topologicalSort hok).mp hp) heq
    obtain rfl := InLayer.unique (nodup_flatten_layers hok) hk hk'
    obtain ⟨v, -, hneed, l, hl, hlayer⟩ := htight.resolve_left (Nat.succ_ne_zero k)
    obtain rfl : k = l := Nat.succ.inj hl
    obtain ⟨chain, hchain, hlength⟩ := ih hlayer hneed.right_mem
    exact ⟨v :: chain, .cons_cons hneed hchain, by rw [List.length_cons, hlength]⟩

theorem isGreatest_chainLengths {u : Path} (hu : u ∈ g.files) {k : Nat}
    (hk : InLayer (g.layers order) k u) : IsGreatest (g.chainLengths u) k := by
  refine ⟨exists_chain_of_layer hok hk hu, ?_⟩
  rintro n ⟨chain, hchain, rfl⟩
  exact length_chain_le hok hacyclic hchain hk

end Acyclic

/-- Each file lies in one layer of the tolerant order. The ends of an edge between different files
lie in different layers: what is needed lies in the earlier one exactly if it comes first in the
order, which it does unless it depends on the other file in turn. Without cycles, the layer of a
file is the length of its longest chain of needs. -/
theorem layers_separate_edges (g : Graph) :
    ∃ order, g.topologicalSort false = .ok order ∧
      (∀ u ∈ g.files, ∃! k, InLayer (g.layers order) k u) ∧
      (∀ u v, g.Needs u v → u ≠ v → ∀ k l, InLayer (g.layers order) k u →
        InLayer (g.layers order) l v →
          k ≠ l ∧ (l < k ↔ Precedes order v u) ∧ (¬ g.DependsOn v u → l < k)) ∧
      ((∀ u, ¬ g.DependsOn u u) → ∀ u ∈ g.files, ∀ k, InLayer (g.layers order) k u →
        IsGreatest (g.chainLengths u) k) := by
  obtain ⟨order, hok⟩ := topologicalSort_tolerant g
  refine ⟨order, hok, fun u hu => existsUnique_inLayer hok hu, fun u v hneed hne k l hk hl => ?_,
    fun hacyclic u hu k hk => isGreatest_chainLengths hok hacyclic hu hk⟩
  obtain ⟨hdiff, hiff⟩ := layer_ne_of_needs hok hneed hne hk hl
  refine ⟨hdiff, hiff, fun hback => hiff.mpr ?_⟩
  obtain ⟨before, after, heq⟩ := List.append_of_mem ((mem_topologicalSort hok).mpr hneed.left_mem)
  refine ⟨before, after, heq, ?_⟩
  subst heq
  exact mem_before_of_needsOneWay hok ⟨hneed, hback⟩

end Recheck.Graph
