import Recheck.Proofs.Graph.Cycles
import Recheck.Proofs.Graph.Dependents

/-!
# Dependents found with a queue

The files that depend on a file can also be found with a queue of files that wait to be looked at
(`dependentsByQueue`). A file may wait several times; it counts when it is first taken. The loop
ends on every graph, since each file that counts is new, and each other makes the queue shorter.
What it finds are the files that reach the start (`Searching`), which are those of
`Graph.transitiveDependents`.

A file that reaches itself lies on a closed walk without repetitions
(`dependsOn_self_iff_exists_closedWalk`): a chain that comes by a file twice can be cut short.
-/

namespace Recheck.Graph

/-! ## The loop -/

/-- The files that need the file `u`, as the edges list them. -/
def needers (g : Graph) (u : Path) : List Path := (g.edges.filter fun e => e.2 = u).map (·.1)

theorem mem_needers {g : Graph} {u v : Path} : v ∈ g.needers u ↔ g.Needs v u := by
  simp [needers, Needs]

theorem needers_of_not_mem {g : Graph} {u : Path} (hu : u ∉ g.files) : g.needers u = [] :=
  List.eq_nil_iff_forall_not_mem.mpr fun _ hv => hu (mem_needers.mp hv).right_mem

theorem unseen_cons_of_not_mem {g : Graph} {u : Path} (hu : u ∉ g.files) (found : List Path) :
    g.unseen (u :: found) = g.unseen found := by
  refine congrArg Finset.card (Finset.ext fun w => ?_)
  simp only [Finset.mem_sdiff, List.mem_toFinset, List.mem_cons, not_or]
  refine and_congr_right fun hw => and_iff_right ?_
  rintro rfl
  exact hu hw

/-- Takes the files of a queue one by one. One that is found already is passed over. Any other is
found, and the files that need it wait behind the rest, save those found. -/
def searchQueue (g : Graph) : (queue found : List Path) → List Path
  | [], found => found
  | u :: queue, found =>
    if u ∈ found then searchQueue g queue found
    else searchQueue g (queue ++ (g.needers u).filter (· ∉ u :: found)) (u :: found)
termination_by queue found => (g.unseen found, queue.length)
decreasing_by
  · exact .right _ (Nat.lt_succ_self _)
  · next hfound =>
    by_cases hu : u ∈ g.files
    · exact .left _ _ (unseen_lt hu hfound (List.Subset.refl found))
    · rw [unseen_cons_of_not_mem hu, needers_of_not_mem hu, List.filter_nil, List.append_nil]
      exact .right _ (Nat.lt_succ_self _)

/-- All files that depend on the file that `p` spells. -/
def dependentsByQueue (g : Graph) (p : Path) : List Path :=
  match g.find? p with
  | some u => searchQueue g (g.needers u) []
  | none => []

/-! ## What it finds -/

/-- A search for what depends on `u` has found files, and others wait in the queue. -/
structure Searching (g : Graph) (u : Path) (queue found : List Path) : Prop where
  nodup : found.Nodup
  sound : ∀ w, w ∈ queue ∨ w ∈ found → g.DependsOn w u
  /-- Nothing that needs `u` is left out. -/
  direct : ∀ x, g.Needs x u → x ∈ queue ∨ x ∈ found
  /-- Nothing that needs a file found is left out. -/
  closed : ∀ w ∈ found, ∀ x, g.Needs x w → x ∈ queue ∨ x ∈ found

namespace Searching

variable {g : Graph} {u v : Path} {queue found : List Path}

theorem start (g : Graph) (u : Path) : Searching g u (g.needers u) [] where
  nodup := .nil
  sound _ hw := .single (mem_needers.mp (hw.resolve_right List.not_mem_nil))
  direct _ hx := .inl (mem_needers.mpr hx)
  closed _ hw := absurd hw List.not_mem_nil

theorem pass (h : Searching g u (v :: queue) found) (hv : v ∈ found) :
    Searching g u queue found := by
  have hkeep : ∀ {x}, x ∈ v :: queue ∨ x ∈ found → x ∈ queue ∨ x ∈ found := by
    rintro x (hx | hx)
    · rcases List.mem_cons.mp hx with rfl | hx
      · exact .inr hv
      · exact .inl hx
    · exact .inr hx
  exact ⟨h.nodup, fun w hw => h.sound w (hw.imp_left (List.mem_cons_of_mem v)),
    fun x hx => hkeep (h.direct x hx), fun w hw x hx => hkeep (h.closed w hw x hx)⟩

theorem find (h : Searching g u (v :: queue) found) (hv : v ∉ found) :
    Searching g u (queue ++ (g.needers v).filter (· ∉ v :: found)) (v :: found) := by
  have hvu : g.DependsOn v u := h.sound v (.inl List.mem_cons_self)
  have hkeep : ∀ {x}, x ∈ v :: queue ∨ x ∈ found →
      x ∈ queue ++ (g.needers v).filter (· ∉ v :: found) ∨ x ∈ v :: found := by
    rintro x (hx | hx)
    · rcases List.mem_cons.mp hx with rfl | hx
      · exact .inr List.mem_cons_self
      · exact .inl (List.mem_append_left _ hx)
    · exact .inr (List.mem_cons_of_mem v hx)
  refine ⟨h.nodup.cons hv, fun w hw => ?_, fun x hx => hkeep (h.direct x hx), fun w hw x hx => ?_⟩
  · rcases hw with hw | hw
    · rcases List.mem_append.mp hw with hw | hw
      · exact h.sound w (.inl (List.mem_cons_of_mem v hw))
      · exact .head (mem_needers.mp (List.mem_filter.mp hw).1) hvu
    · rcases List.mem_cons.mp hw with rfl | hw
      · exact hvu
      · exact h.sound w (.inr hw)
  · rcases List.mem_cons.mp hw with rfl | hw
    · by_cases hfound : x ∈ w :: found
      · exact .inr hfound
      · have hnew : x ∈ (g.needers w).filter (· ∉ w :: found) :=
          List.mem_filter.mpr ⟨mem_needers.mpr hx, decide_eq_true hfound⟩
        exact .inl (List.mem_append_right _ hnew)
    · exact hkeep (h.closed w hw x hx)

/-- The loop keeps what is known of the search, to the empty queue. -/
theorem run (h : Searching g u queue found) : Searching g u [] (searchQueue g queue found) := by
  fun_induction searchQueue g queue found with
  | case1 => exact h
  | case2 _ _ _ hv ih => exact ih (h.pass hv)
  | case3 _ _ _ hv ih => exact ih (h.find hv)

/-- When the queue is empty, all that depends on the start is found. -/
theorem mem_iff (h : Searching g u [] found) : v ∈ found ↔ g.DependsOn v u :=
  ⟨fun hv => h.sound v (.inr hv),
    mem_of_dependsOn (fun x hx => (h.direct x hx).resolve_left List.not_mem_nil)
      fun w hw x hx => (h.closed w hw x hx).resolve_left List.not_mem_nil⟩

end Searching

theorem dependentsByQueue_perm (g : Graph) (p : Path) :
    (g.dependentsByQueue p).Perm (g.transitiveDependents p) := by
  have hnodup := nodup_transitiveDependents g p
  cases hp : g.find? p with
  | none => simp [dependentsByQueue, transitiveDependents, hp]
  | some u =>
    have hend := (Searching.start g u).run
    simp only [dependentsByQueue, hp]
    refine (List.perm_ext_iff_of_nodup hend.nodup hnodup).mpr fun v => ?_
    rw [hend.mem_iff, transitiveDependents_of_find? hp,
      mem_transitiveDependents_of_mem (mem_of_find?_eq_some hp)]

/-! ## Files on cycles -/

/-- A chain can be cut short so that it comes by no file twice. -/
theorem exists_nodup_chain {g : Graph} {u v : Path} (h : Relation.ReflTransGen g.Needs u v) :
    ∃ chain : List Path, chain.IsChain g.Needs ∧ chain.Nodup ∧ chain.head? = some u ∧
      chain.getLast? = some v := by
  induction h using Relation.ReflTransGen.head_induction_on with
  | refl => exact ⟨[v], .singleton v, List.nodup_singleton v, rfl, rfl⟩
  | @head u w huw _ ih =>
    obtain ⟨chain, hchain, hnodup, hhead, hlast⟩ := ih
    by_cases hu : u ∈ chain
    · -- The chain comes by `u` later on, and starts there instead.
      obtain ⟨skipped, rest, rfl⟩ := List.append_of_mem hu
      refine ⟨u :: rest, hchain.right_of_append, (List.nodup_append.mp hnodup).2.1, rfl, ?_⟩
      rwa [List.getLast?_append_of_ne_nil _ (List.cons_ne_nil u rest)] at hlast
    · obtain ⟨rest, rfl⟩ := List.head?_eq_some_iff.mp hhead
      refine ⟨u :: w :: rest, .cons_cons huw hchain, hnodup.cons hu, rfl, ?_⟩
      rwa [List.getLast?_cons_cons]

theorem dependsOn_of_chain {g : Graph} {u v : Path} {rest : List Path}
    (hchain : (u :: rest).IsChain g.Needs) (hv : v ∈ rest) : g.DependsOn u v := by
  induction rest generalizing u with
  | nil => cases hv
  | cons w rest ih =>
    obtain ⟨hneed, hrest⟩ := List.isChain_cons_cons.mp hchain
    rcases List.mem_cons.mp hv with rfl | hv
    · exact .single hneed
    · exact .head hneed (ih hrest hv)

/-- A file reaches itself exactly if it lies on a closed walk. -/
theorem dependsOn_self_iff_exists_closedWalk {g : Graph} {u : Path} :
    g.DependsOn u u ↔ ∃ walk, ClosedWalk g walk ∧ u ∈ walk := by
  constructor
  · intro h
    obtain ⟨v, huv, hvu⟩ := Relation.TransGen.head'_iff.mp h
    obtain ⟨chain, hchain, hnodup, hhead, hlast⟩ := exists_nodup_chain hvu
    obtain ⟨rest, rfl⟩ := List.head?_eq_some_iff.mp hhead
    refine ⟨u :: v :: rest, ⟨.cons_cons huv hchain, by simp, ?_, ?_⟩, List.mem_cons_self⟩
    · rw [List.getLast?_cons_cons, hlast]
      rfl
    · -- The chain from `v` has `u` at its end only.
      obtain ⟨before, hbefore⟩ := List.getLast?_eq_some_iff.mp hlast
      rw [hbefore] at hnodup ⊢
      rw [← List.cons_append, List.dropLast_concat]
      exact (List.perm_append_singleton u before).nodup_iff.mp hnodup
  · rintro ⟨walk, hwalk, hu⟩
    obtain ⟨before, after, rfl⟩ := List.append_of_mem hu
    have hclosed := hwalk.closed
    rw [List.getLast?_append_of_ne_nil _ (List.cons_ne_nil u after)] at hclosed
    cases before with
    | nil =>
      -- The walk starts at `u`, and its end is another place of `u`.
      obtain ⟨w, rest, rfl⟩ := List.exists_cons_of_length_pos (Nat.le_of_succ_le_succ hwalk.two_le)
      rw [List.getLast?_cons_cons] at hclosed
      exact dependsOn_of_chain hwalk.chain (List.mem_of_getLast? hclosed.symm)
    | cons x before =>
      have hxu : g.DependsOn x u := dependsOn_of_chain hwalk.chain (by simp)
      rcases List.mem_cons.mp (List.mem_of_getLast? hclosed.symm) with rfl | hx
      · exact hxu
      · exact (dependsOn_of_chain hwalk.chain.right_of_append hx).trans hxu

/-! ## Reverse reachability -/

/-- The transitive dependents of a path are the files from which a chain of edges leads to the file
that it spells, each once. The search with a queue finds the same on every graph. A file is among
its own dependents exactly if it lies on a cycle, and a path that spells no file has none. -/
theorem transitiveDependents_reverse_reachability (g : Graph) (p : Path) :
    (g.dependentsByQueue p).Perm (g.transitiveDependents p) ∧
      (g.transitiveDependents p).Pairwise (fun v w => ¬ Path.Same v w) ∧
      (∀ v, v ∈ g.transitiveDependents p ↔
        ∃ u ∈ g.files, Path.Same u p ∧ g.DependsOn v u) ∧
      (Path.memSame p (g.transitiveDependents p) = true ↔
        ∃ walk, ClosedWalk g walk ∧ Path.memSame p walk = true) ∧
      (g.contains p = false → g.transitiveDependents p = []) := by
  have hfiles : g.transitiveDependents p ⊆ g.files := fun v hv => by
    obtain ⟨u, -, -, hvu⟩ := mem_transitiveDependents.mp hv
    exact hvu.left_mem
  refine ⟨dependentsByQueue_perm g p, ?_, fun v => mem_transitiveDependents, ?_, fun hp => ?_⟩
  · refine (nodup_transitiveDependents g p).imp_of_mem fun hv hw hne hs => hne ?_
    exact Path.eq_of_same g.files_distinct (hfiles hv) (hfiles hw) hs
  · simp only [Path.memSame_iff]
    constructor
    · rintro ⟨v, hv, hvp⟩
      obtain ⟨u, hu, hup, hvu⟩ := mem_transitiveDependents.mp hv
      obtain rfl := Path.eq_of_same g.files_distinct hu (hfiles hv) (hup.trans hvp.symm)
      obtain ⟨walk, hwalk, hmem⟩ := dependsOn_self_iff_exists_closedWalk.mp hvu
      exact ⟨walk, hwalk, u, hmem, hvp⟩
    · rintro ⟨walk, hwalk, u, hmem, hup⟩
      have hself := dependsOn_self_iff_exists_closedWalk.mpr ⟨walk, hwalk, hmem⟩
      exact ⟨u, mem_transitiveDependents.mpr ⟨u, hself.left_mem, hup, hself⟩, hup⟩
  · rw [contains, Option.isSome_eq_false_iff, Option.isNone_iff_eq_none] at hp
    rw [transitiveDependents, hp]

end Recheck.Graph
