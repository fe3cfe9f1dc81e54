import Mathlib.Data.List.Chain
import Recheck.Graph.Cycles
import Recheck.Proofs.Graph.Sort

/-!
# Reported cycles

The search for cycles and the sort are two depth-first searches that go through the graph abreast:
what the one has entered is what the other has open or finished. Where the search reports a cycle,
the tolerant sort passes over an edge and the strict sort fails (`Abreast`). So each reported cycle
is a closed walk (`ClosedWalk`), its last edge runs against the tolerant order, and each edge that
does so is the last edge of one cycle (`Closes`). What else the cycles say of the two sorts follows
in `cycles_match_sorts`.
-/

namespace Recheck.Graph

/-! ## Closed walks -/

/-- A walk along edges that comes back to where it starts and meets no other file twice. -/
structure ClosedWalk (g : Graph) (walk : List Path) : Prop where
  chain : walk.IsChain g.Needs
  two_le : 2 ≤ walk.length
  closed : walk.head? = walk.getLast?
  nodup : walk.dropLast.Nodup

/-- The last edge of a walk. -/
def closingEdge? (walk : List Path) : Option (Path × Path) :=
  match walk.reverse with
  | v :: u :: _ => some (u, v)
  | _ => none

theorem ClosedWalk.exists_closingEdge? {g : Graph} {walk : List Path} (h : ClosedWalk g walk) :
    ∃ e, closingEdge? walk = some e := by
  have hlength := h.two_le
  rw [← List.length_reverse] at hlength
  rw [closingEdge?]
  split
  · exact ⟨_, rfl⟩
  · next hshort =>
    match hrev : walk.reverse with
    | [] => simp [hrev] at hlength
    | [_] => simp [hrev] at hlength
    | v :: u :: rest => exact absurd hrev (hshort v u rest)

/-- The open files stand in a chain of needs, the innermost first. -/
def Linked (g : Graph) (trail : List Path) : Prop := trail.IsChain fun a b => g.Needs b a

section CloseCycle

variable {g : Graph} {opened : List Path} {u v : Path}

/-- The part of the trail that a dependency on `v` closes, from `u` out to `v`. -/
theorem exists_closeCycle_eq (hv : v ∈ u :: opened) :
    ∃ inner, v :: (inner : List Path).reverse ++ [v] = closeCycle (u :: opened) v ∧
      inner ++ [v] <+: u :: opened ∧ (inner ++ [v]).head? = some u := by
  obtain ⟨inner, outer, heq, hinner⟩ := List.eq_append_cons_of_mem hv
  have htake : (u :: opened).takeWhile (· ≠ v) = inner := by
    have hne : ∀ w ∈ inner, decide (w ≠ v) = true :=
      fun w hw => decide_eq_true fun hwv : w = v => hinner (hwv ▸ hw)
    rw [heq, List.takeWhile_append_of_pos hne]
    simp
  refine ⟨inner, by rw [closeCycle, htake], ⟨outer, by rw [heq]; simp⟩, ?_⟩
  cases inner with
  | nil => simp_all
  | cons w inner => simp_all

theorem closeCycle_spec (hlinked : Linked g (u :: opened)) (hnodup : (u :: opened).Nodup)
    (hneed : g.Needs u v) (hv : v ∈ u :: opened) :
    ClosedWalk g (closeCycle (u :: opened) v) ∧
      closingEdge? (closeCycle (u :: opened) v) = some (u, v) ∧
      (closeCycle (u :: opened) v).head? = some v := by
  obtain ⟨inner, hclose, hinit, hhead⟩ := exists_closeCycle_eq hv
  have hwalk : closeCycle (u :: opened) v = (inner ++ [v]).reverse ++ [v] := by
    rw [← hclose, List.reverse_append]
    rfl
  refine ⟨⟨?_, ?_, ?_, ?_⟩, ?_, ?_⟩
  · have hpart := List.IsChain.prefix hlinked hinit
    have hchain : (inner ++ [v]).reverse.IsChain g.Needs := List.isChain_reverse.mpr hpart
    rw [hwalk]
    refine hchain.append (.singleton v) fun x hx y hy => ?_
    rw [List.getLast?_reverse, hhead] at hx
    obtain rfl : u = x := Option.some.inj hx
    obtain rfl : v = y := Option.some.inj hy
    exact hneed
  · rw [hwalk]
    simp
  · rw [hwalk, List.getLast?_concat, ← hwalk, ← hclose]
    rfl
  · rw [hwalk, List.dropLast_concat]
    exact List.nodup_reverse.mpr (hnodup.sublist hinit.sublist)
  · obtain ⟨rest, hrest⟩ := List.head?_eq_some_iff.mp hhead
    rw [closingEdge?, hwalk, List.reverse_append, List.reverse_reverse, hrest]
    rfl
  · rw [← hclose]
    rfl

end CloseCycle

/-! ## Walks that close given edges -/

/-- The walks are closed, and their last edges are the given ones, each once. -/
structure Closes (g : Graph) (walks : List (List Path)) (back : Path → Path → Prop) : Prop where
  walk : ∀ walk ∈ walks, ClosedWalk g walk
  nodup : (walks.map closingEdge?).Nodup
  mem_iff : ∀ u v, some (u, v) ∈ walks.map closingEdge? ↔ back u v

namespace Closes

variable {g : Graph} {walks walks' : List (List Path)} {back back' : Path → Path → Prop}

theorem nil (h : ∀ u v, ¬ back u v) : Closes g [] back where
  walk := by simp
  nodup := .nil
  mem_iff := by simpa using h

theorem single {walk : List Path} {u v : Path} (hwalk : ClosedWalk g walk)
    (hedge : closingEdge? walk = some (u, v)) : Closes g [walk] fun x y => x = u ∧ y = v where
  walk := by simpa using hwalk
  nodup := by simp
  mem_iff := by simp [hedge]

theorem congr (h : Closes g walks back) (hback : ∀ u v, back u v ↔ back' u v) :
    Closes g walks back' where
  walk := h.walk
  nodup := h.nodup
  mem_iff u v := (h.mem_iff u v).trans (hback u v)

theorem append (h : Closes g walks back) (h' : Closes g walks' back')
    (hdisjoint : ∀ u v, back u v → ¬ back' u v) :
    Closes g (walks ++ walks') fun u v => back u v ∨ back' u v where
  walk walk hw := (List.mem_append.mp hw).elim (h.walk walk) (h'.walk walk)
  nodup := by
    rw [List.map_append]
    refine List.nodup_append.mpr ⟨h.nodup, h'.nodup, fun e he f hf hef => ?_⟩
    subst hef
    obtain ⟨walk, hw, rfl⟩ := List.mem_map.mp he
    obtain ⟨e, hedge⟩ := (h.walk walk hw).exists_closingEdge?
    rw [hedge] at he hf
    exact hdisjoint e.1 e.2 ((h.mem_iff ..).mp he) ((h'.mem_iff ..).mp hf)
  mem_iff u v := by rw [List.map_append, List.mem_append, h.mem_iff, h'.mem_iff]

end Closes

/-! ## Edges against the order -/

/-- When the files `fresh` are finished after `done`, the edge from `u` to `v` leaves a fresh file
for one that does not precede it. -/
def Lagging (g : Graph) (done fresh : List Path) (u v : Path) : Prop :=
  u ∈ fresh ∧ g.Needs u v ∧ ¬ Precedes (done ++ fresh) v u

/-- The edge from `u` to `v`, one of the files `vs`, leads from the innermost open file back to an
open one. -/
def Returning (trail vs : List Path) (u v : Path) : Prop :=
  trail.head? = some u ∧ v ∈ vs ∧ v ∈ trail

theorem precedes_append_iff {ps qs : List Path} {p q : Path} (hd : (ps ++ qs).Nodup) (hq : q ∈ ps) :
    Precedes (ps ++ qs) p q ↔ Precedes ps p q := by
  obtain ⟨before, after, rfl⟩ := List.append_of_mem hq
  have hleft : (before ++ q :: after).Nodup := (List.nodup_append.mp hd).1
  rw [List.append_assoc, List.cons_append] at hd ⊢
  rw [precedes_iff_mem hd, precedes_iff_mem hleft]

section Lagging

variable {g : Graph} {done fresh fresh' trail : List Path} {u v : Path}

theorem lagging_append (hd : (done ++ (fresh ++ fresh')).Nodup) :
    Lagging g done (fresh ++ fresh') u v ↔
      Lagging g done fresh u v ∨ Lagging g (done ++ fresh) fresh' u v := by
  rw [← List.append_assoc] at hd
  simp only [Lagging, ← List.append_assoc, List.mem_append, or_and_right]
  refine or_congr (and_congr_right fun hu => ?_) Iff.rfl
  rw [precedes_append_iff hd (List.mem_append_right _ hu)]

/-- Of the edges of a file that is finished, those against the order lead back to open files. -/
theorem lagging_self (hf : Finished g (u :: trail) (done ++ fresh))
    (hf' : Finished g trail (done ++ fresh ++ [u])) (w : Path) :
    Lagging g (done ++ fresh) [u] w v ↔ Returning (u :: trail) (g.needs u) w v := by
  have hprecedes : Precedes (done ++ fresh ++ [u]) v u ↔ v ∈ done ++ fresh :=
    precedes_iff_mem hf'.nodup
  simp only [Lagging, Returning, List.mem_singleton, List.head?_cons, Option.some.injEq, mem_needs]
  constructor
  · rintro ⟨rfl, hneed, hback⟩
    rw [hprecedes] at hback
    refine ⟨rfl, hneed, ?_⟩
    rcases hf'.reached w (by simp) v hneed with hv | hv
    · rcases List.mem_append.mp hv with hv | hv
      · exact absurd hv hback
      · exact List.mem_cons.mpr (.inl (List.mem_singleton.mp hv))
    · exact List.mem_cons_of_mem _ hv
  · rintro ⟨rfl, hneed, hv⟩
    refine ⟨rfl, hneed, fun hp => hf.apart v (hprecedes.mp hp) hv⟩

end Lagging

/-! ## Two searches abreast -/

/-- One step of the sort: what it does about a file that is needed. -/
def visit (g : Graph) (strict : Bool) (depth : Nat) (trail done : List Path) (v : Path) :
    Except GraphError (List Path) :=
  if v ∈ trail then if strict then .error (.cycle v) else .ok done
  else if v ∈ done then .ok done
  else finish g strict depth trail v done

/-- One step of the search: what it does about a file that is needed. -/
def look (g : Graph) (depth : Nat) (trail : List Path) (s : CycleSearch) (v : Path) : CycleSearch :=
  if v ∈ trail then { s with cycles := s.cycles ++ [closeCycle trail v] }
  else if v ∈ s.entered then s
  else searchCycles g depth (v :: trail) v { s with entered := v :: s.entered }

/-- How a strict sort ends where the tolerant one comes to `done`: at the entry of the first cycle,
if one is found. -/
def strictEnd (done : List Path) (found : List (List Path)) : Except GraphError (List Path) :=
  match found.head?.bind List.head? with
  | some v => .error (.cycle v)
  | none => .ok done

theorem strictEnd_append {g : Graph} {done done' : List Path} {found found' : List (List Path)}
    (hwalk : ∀ walk ∈ found, ClosedWalk g walk) {k : List Path → Except GraphError (List Path)}
    (hk : k done = strictEnd done' found') :
    (strictEnd done found >>= k) = strictEnd done' (found ++ found') := by
  cases found with
  | nil => exact hk
  | cons walk found =>
    have hlength := (hwalk walk List.mem_cons_self).two_le
    cases walk with
    | nil => simp at hlength
    | cons v walk => rfl

/-- The search has entered the files that the sort has finished or open. -/
def Level (trail done : List Path) (s : CycleSearch) : Prop :=
  ∀ x, x ∈ s.entered ↔ x ∈ done ∨ x ∈ trail

/-- The sort finishes the files `fresh` after `done` while the search comes from `s` to `s'`. The
search reports a cycle for each of the edges `back`, and the strict sort fails at the first. -/
structure Abreast (g : Graph) (trail done fresh : List Path) (s s' : CycleSearch)
    (strict : Except GraphError (List Path)) (back : Path → Path → Prop) : Prop where
  finished : Finished g trail (done ++ fresh)
  level : Level trail (done ++ fresh) s'
  reported : ∃ found, s'.cycles = s.cycles ++ found ∧ Closes g found back ∧
    strict = strictEnd (done ++ fresh) found

namespace Abreast

variable {g : Graph} {trail done fresh fresh' : List Path} {s s' s'' : CycleSearch}
  {strict : Except GraphError (List Path)} {back back' : Path → Path → Prop}

/-- Nothing happens. -/
theorem refl (hf : Finished g trail done) (hs : Level trail done s)
    (hback : ∀ u v, ¬ back u v) : Abreast g trail done [] s s (.ok done) back where
  finished := by rwa [List.append_nil]
  level := by rwa [List.append_nil]
  reported := ⟨[], by simp, .nil hback, by rw [List.append_nil]; rfl⟩

theorem congr (h : Abreast g trail done fresh s s' strict back)
    (hback : ∀ u v, back u v ↔ back' u v) : Abreast g trail done fresh s s' strict back' := by
  obtain ⟨found, hcycles, hcloses, hstrict⟩ := h.reported
  exact ⟨h.finished, h.level, found, hcycles, hcloses.congr hback, hstrict⟩

theorem trans {k : List Path → Except GraphError (List Path)}
    (h : Abreast g trail done fresh s s' strict back)
    (h' : Abreast g trail (done ++ fresh) fresh' s' s'' (k (done ++ fresh)) back')
    (hdisjoint : ∀ u v, back u v → ¬ back' u v) :
    Abreast g trail done (fresh ++ fresh') s s'' (strict >>= k)
      fun u v => back u v ∨ back' u v := by
  obtain ⟨found, hcycles, hcloses, hstrict⟩ := h.reported
  obtain ⟨found', hcycles', hcloses', hstrict'⟩ := h'.reported
  have hassoc : done ++ (fresh ++ fresh') = done ++ fresh ++ fresh' := by simp
  refine ⟨hassoc ▸ h'.finished, hassoc ▸ h'.level, found ++ found', ?_,
    hcloses.append hcloses' hdisjoint, ?_⟩
  · rw [hcycles', hcycles, List.append_assoc]
  · rw [hstrict, hassoc]
    exact strictEnd_append hcloses.walk hstrict'

end Abreast

/-- The file `v` comes next while the files of the trail are open: it is needed by the innermost of
them, if there is one. -/
structure Next (g : Graph) (depth : Nat) (trail : List Path) (v : Path) : Prop where
  nodup : trail.Nodup
  linked : Linked g trail
  need : ∀ u, trail.head? = some u → g.Needs u v
  onTrail : v ∉ trail → OnTrail g depth trail v

/-- The two searches go through the files `vs` abreast if they do so for each of them. -/
theorem foldl_abreast {g : Graph} {depth : Nat} {trail vs : List Path} (hvs : vs.Nodup)
    (hstep : ∀ v ∈ vs, ∀ done s, Finished g trail done → Level trail done s →
      ∃ fresh, visit g false depth trail done v = .ok (done ++ fresh) ∧
        Abreast g trail done fresh s (look g depth trail s v) (visit g true depth trail done v)
          fun x y => Lagging g done fresh x y ∨ Returning trail [v] x y)
    {done : List Path} {s : CycleSearch} (hf : Finished g trail done) (hs : Level trail done s) :
    ∃ fresh, vs.foldlM (visit g false depth trail) done = .ok (done ++ fresh) ∧
      Abreast g trail done fresh s (vs.foldl (look g depth trail) s)
        (vs.foldlM (visit g true depth trail) done)
        fun x y => Lagging g done fresh x y ∨ Returning trail vs x y := by
  induction vs generalizing done s with
  | nil =>
    refine ⟨[], by rw [List.append_nil]; rfl, Abreast.refl hf hs fun x y => ?_⟩
    simp [Lagging, Returning]
  | cons v vs ih =>
    obtain ⟨hv, hvs⟩ := List.nodup_cons.mp hvs
    obtain ⟨fresh, hok, hfirst⟩ := hstep v List.mem_cons_self done s hf hs
    obtain ⟨fresh', hok', hrest⟩ := ih hvs (fun w hw => hstep w (List.mem_cons_of_mem _ hw))
      hfirst.finished hfirst.level
    have hassoc : done ++ (fresh ++ fresh') = done ++ fresh ++ fresh' := by simp
    have hnodup : (done ++ (fresh ++ fresh')).Nodup := hassoc ▸ hrest.finished.nodup
    refine ⟨fresh ++ fresh', ?_, ?_⟩
    · rw [List.foldlM_cons, hok, hassoc]
      exact hok'
    rw [List.foldlM_cons, List.foldl_cons]
    refine (hfirst.trans hrest ?_).congr fun x y => ?_
    · -- No edge is met twice: they leave different files or lead to different ones.
      have hopen : ∀ x ∈ fresh ++ fresh', trail.head? ≠ some x := fun x hx hhead =>
        hrest.finished.apart x (hassoc ▸ List.mem_append_right _ hx) (List.mem_of_head? hhead)
      rintro x y (⟨hx, -⟩ | ⟨hhead, hy, -⟩) (⟨hx', -⟩ | ⟨hhead', hy', -⟩)
      · exact (List.nodup_append.mp (List.nodup_append.mp hnodup).2.1).2.2 x hx x hx' rfl
      · exact hopen x (List.mem_append_left _ hx) hhead'
      · exact hopen x (List.mem_append_right _ hx') hhead
      · exact hv (List.mem_singleton.mp hy ▸ hy')
    · rw [lagging_append hnodup]
      simp only [Returning, List.mem_cons]
      tauto

/-- The two searches do the same about a file that comes next, if they do so in finishing it. -/
theorem visit_abreast {g : Graph} {depth : Nat} {trail done : List Path} {v : Path}
    {s : CycleSearch} (hnext : Next g depth trail v) (hf : Finished g trail done)
    (hs : Level trail done s)
    (hfinish : ∀ s, v ∉ trail → v ∉ done → Level (v :: trail) done s →
      ∃ fresh, finish g false depth trail v done = .ok (done ++ fresh) ∧
        Abreast g trail done fresh s (searchCycles g depth (v :: trail) v s)
          (finish g true depth trail v done) (Lagging g done fresh)) :
    ∃ fresh, visit g false depth trail done v = .ok (done ++ fresh) ∧
      Abreast g trail done fresh s (look g depth trail s v) (visit g true depth trail done v)
        fun x y => Lagging g done fresh x y ∨ Returning trail [v] x y := by
  by_cases hvo : v ∈ trail
  · -- A cycle is closed.
    obtain ⟨u, opened, rfl⟩ := List.exists_cons_of_ne_nil (List.ne_nil_of_mem hvo)
    obtain ⟨hwalk, hedge, hhead⟩ := closeCycle_spec hnext.linked hnext.nodup (hnext.need u rfl) hvo
    refine ⟨[], by simp [visit, hvo], by simpa using hf, ?_, [closeCycle (u :: opened) v], ?_, ?_,
      ?_⟩
    · rw [look, if_pos hvo, List.append_nil]
      exact hs
    · rw [look, if_pos hvo]
    · refine (Closes.single hwalk hedge).congr fun x y => ?_
      simp only [Lagging, Returning, List.not_mem_nil, false_and, false_or, List.head?_cons,
        Option.some.injEq, List.mem_singleton]
      constructor
      · rintro ⟨rfl, rfl⟩
        exact ⟨rfl, rfl, hvo⟩
      · rintro ⟨rfl, rfl, -⟩
        exact ⟨rfl, rfl⟩
    · rw [visit, if_pos hvo, strictEnd, List.head?_cons, Option.bind_some, hhead]
      rfl
  have hnone : ∀ x y, ¬ Returning trail [v] x y := by
    rintro x y ⟨-, hy, hyo⟩
    exact hvo (List.mem_singleton.mp hy ▸ hyo)
  by_cases hvd : v ∈ done
  · have hve : v ∈ s.entered := (hs v).mpr (.inl hvd)
    refine ⟨[], by simp [visit, hvo, hvd], ?_⟩
    rw [look, if_neg hvo, if_pos hve, visit, if_neg hvo, if_pos hvd]
    refine Abreast.refl hf hs fun x y => ?_
    rintro (⟨hx, -⟩ | hxy)
    · exact absurd hx List.not_mem_nil
    · exact hnone x y hxy
  · have hve : v ∉ s.entered := fun h => ((hs v).mp h).elim hvd hvo
    have hlevel : Level (v :: trail) done { s with entered := v :: s.entered } := by
      intro x
      simp only [List.mem_cons, hs x]
      tauto
    obtain ⟨fresh, hok, habreast⟩ := hfinish _ hvo hvd hlevel
    refine ⟨fresh, by rwa [visit, if_neg hvo, if_neg hvd], ?_⟩
    rw [look, if_neg hvo, if_neg hve, visit, if_neg hvo, if_neg hvd]
    obtain ⟨found, hcycles, hcloses, hstrict⟩ := habreast.reported
    exact ⟨habreast.finished, habreast.level, found, hcycles,
      hcloses.congr fun x y => ⟨.inl, fun h => h.resolve_right (hnone x y)⟩, hstrict⟩

theorem finish_succ (g : Graph) (strict : Bool) (depth : Nat) (opened : List Path) (u : Path)
    (done : List Path) :
    finish g strict (depth + 1) opened u done =
      ((g.needs u).foldlM (visit g strict depth (u :: opened)) done).map (· ++ [u]) := by
  rw [finish]
  unfold visit
  split
  · next e herror =>
    rw [herror]
    rfl
  · next after hok =>
    rw [hok]
    rfl

/-- The two searches go abreast through a file and all that it needs. -/
theorem finish_abreast {g : Graph} {depth : Nat} {opened done : List Path} {u : Path}
    {s : CycleSearch} (hnext : Next g depth opened u) (huo : u ∉ opened) (hud : u ∉ done)
    (hf : Finished g opened done) (hs : Level (u :: opened) done s) :
    ∃ fresh, finish g false depth opened u done = .ok (done ++ fresh) ∧
      Abreast g opened done fresh s (searchCycles g depth (u :: opened) u s)
        (finish g true depth opened u done) (Lagging g done fresh) := by
  induction depth generalizing opened done u s with
  | zero => exact absurd (hnext.onTrail huo).depth_pos (Nat.lt_irrefl 0)
  | succ depth ih =>
    have ht := hnext.onTrail huo
    have hstep : ∀ v ∈ g.needs u, Next g depth (u :: opened) v := fun v hv =>
      { nodup := List.nodup_cons.mpr ⟨huo, hnext.nodup⟩
        linked := List.isChain_cons.mpr ⟨hnext.need, hnext.linked⟩
        need := fun w hw => Option.some.inj hw ▸ mem_needs.mp hv
        onTrail := ht.step (mem_needs.mp hv) }
    obtain ⟨fresh, hok, habreast⟩ := foldl_abreast (nodup_needs g u)
      (fun v hv done s hf hs => visit_abreast (hstep v hv) hf hs fun s hvo hvd hs =>
        ih (hstep v hv) hvo hvd hf hs) (hf.open hud) hs
    have hfinish : finish g false (depth + 1) opened u done = .ok (done ++ (fresh ++ [u])) := by
      rw [finish_succ, hok, ← List.append_assoc]
      rfl
    have hfinished := (finish_spec hfinish hf ht.mem huo hud ht.nodup ht.subset ht.dependsOn
      ht.depth).1
    obtain ⟨found, hcycles, hcloses, hstrict⟩ := habreast.reported
    refine ⟨fresh ++ [u], hfinish, hfinished, fun x => ?_, found, hcycles, ?_, ?_⟩
    · refine (habreast.level x).trans ?_
      simp only [List.mem_append, List.mem_cons, List.not_mem_nil]
      tauto
    · refine hcloses.congr fun x y => ?_
      rw [lagging_append hfinished.nodup]
      exact or_congr_right (lagging_self habreast.finished (by rwa [List.append_assoc]) x).symm
    · rw [finish_succ, hstrict, strictEnd, strictEnd, ← List.append_assoc]
      cases found.head?.bind List.head? <;> rfl

/-- From the first file to the last, the two searches go through the graph abreast. -/
theorem sort_abreast (g : Graph) :
    ∃ order, g.topologicalSort false = .ok order ∧
      Closes g g.cycles (fun u v => g.Needs u v ∧ ¬ Precedes order v u) ∧
      g.topologicalSort true = strictEnd order g.cycles := by
  have hnext : ∀ u ∈ g.files, Next g g.files.length [] u := fun u hu =>
    { nodup := .nil
      linked := .nil
      need := by simp
      onTrail := fun _ => .start hu }
  have hdistinct : g.files.Nodup :=
    g.files_distinct.imp fun {p q} h (heq : p = q) => h (heq ▸ Path.Same.refl p)
  obtain ⟨order, hok, habreast⟩ := foldl_abreast hdistinct
    (fun u hu done s hf hs => visit_abreast (hnext u hu) hf hs fun s huo hud hs =>
      finish_abreast (hnext u hu) huo hud hf hs)
    (Finished.nil g []) (s := ⟨[], []⟩) (fun x => by simp)
  have hsort : ∀ strict, g.topologicalSort strict =
      g.files.foldlM (visit g strict g.files.length []) [] := fun _ => rfl
  have hcycles : g.cycles = (g.files.foldl (look g g.files.length []) ⟨[], []⟩).cycles := rfl
  obtain ⟨found, hfound, hcloses, hstrict⟩ := habreast.reported
  rw [← hcycles, List.nil_append] at hfound
  rw [← hsort, List.nil_append] at hok hstrict
  subst hfound
  refine ⟨order, hok, hcloses.congr fun u v => ?_, hstrict⟩
  have hmem : g.Needs u v → u ∈ order := fun h => (mem_topologicalSort hok).mpr h.left_mem
  simp only [Lagging, Returning, List.nil_append, List.not_mem_nil, and_false, or_false]
  exact ⟨And.right, fun h => ⟨hmem h.1, h⟩⟩

/-! ## Deleting edges -/

/-- The graph without some of its edges. -/
def deleteEdges (g : Graph) (deleted : List (Path × Path)) : Graph where
  files := g.files
  edges := g.edges.filter fun e => !deleted.contains e
  files_distinct := g.files_distinct
  edges_closed e he := g.edges_closed e (List.mem_of_mem_filter he)
  edges_nodup := g.edges_nodup.filter _

theorem needs_deleteEdges {g : Graph} {deleted : List (Path × Path)} {u v : Path} :
    (g.deleteEdges deleted).Needs u v ↔ g.Needs u v ∧ (u, v) ∉ deleted := by
  simp [deleteEdges, Needs]

/-- Without the edges against an order of all files there is no cycle. -/
theorem not_dependsOn_self_deleteEdges {g : Graph} {order : List Path}
    {deleted : List (Path × Path)} (hnodup : order.Nodup) (hmem : ∀ u ∈ g.files, u ∈ order)
    (hdeleted : ∀ u v, g.Needs u v → ¬ Precedes order v u → (u, v) ∈ deleted) (u : Path) :
    ¬ (g.deleteEdges deleted).DependsOn u u := by
  intro hcycle
  have hgrounded : Grounded (g.deleteEdges deleted) order := by
    rintro before w after rfl v hv
    obtain ⟨hneed, hkept⟩ := needs_deleteEdges.mp hv
    by_contra hback
    exact hkept (hdeleted w v hneed (mt (precedes_iff_mem hnodup).mp hback))
  exact hgrounded.not_dependsOn_self hnodup (hmem u hcycle.left_mem) hcycle

/-! ## The cycles and the two sorts -/

/-- Each reported cycle is a closed walk. Its last edge runs against the tolerant order, and each
edge that does so is the last edge of exactly one reported cycle; without these edges there is no
cycle. There is a report exactly if the graph has cycles, and the file that the strict sort names is
the entry of the first cycle reported. -/
theorem cycles_match_sorts (g : Graph) :
    ∃ order, g.topologicalSort false = .ok order ∧
      (∀ walk ∈ g.cycles, ClosedWalk g walk) ∧
      (g.cycles.map closingEdge?).Nodup ∧
      (∀ u v, some (u, v) ∈ g.cycles.map closingEdge? ↔ g.Needs u v ∧ ¬ Precedes order v u) ∧
      (∀ u, ¬ (g.deleteEdges (g.cycles.filterMap closingEdge?)).DependsOn u u) ∧
      (g.cycles ≠ [] ↔ g.hasCycles = true) ∧
      ∀ e, g.topologicalSort true = .error e →
        ∃ walk v, g.cycles.head? = some walk ∧ walk.head? = some v ∧ e = .cycle v := by
  obtain ⟨order, hok, hcloses, hstrict⟩ := sort_abreast g
  refine ⟨order, hok, hcloses.walk, hcloses.nodup, hcloses.mem_iff, fun u => ?_, ?_, fun e he => ?_⟩
  · refine not_dependsOn_self_deleteEdges (nodup_topologicalSort hok)
      (fun u hu => (mem_topologicalSort hok).mpr hu) (fun u v hneed hback => ?_) u
    obtain ⟨walk, hw, hedge⟩ := List.mem_map.mp ((hcloses.mem_iff u v).mpr ⟨hneed, hback⟩)
    exact List.mem_filterMap.mpr ⟨walk, hw, hedge⟩
  · rw [hasCycles, hstrict]
    cases hc : g.cycles with
    | nil => simp [strictEnd]
    | cons walk rest =>
      have hlength := (hcloses.walk walk (hc ▸ List.mem_cons_self)).two_le
      cases walk with
      | nil => simp at hlength
      | cons v walk => simp [strictEnd]
  · rw [hstrict, strictEnd] at he
    split at he
    · next v hv =>
      obtain ⟨walk, hwalk, hhead⟩ := Option.bind_eq_some_iff.mp hv
      exact ⟨walk, v, hwalk, hhead, (Except.error.inj he).symm⟩
    · cases he

end Recheck.Graph
