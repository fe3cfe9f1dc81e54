import Recheck.Analysis.Plan
import Recheck.Proofs.Changes
import Recheck.Proofs.Graph.Layers
import Recheck.Proofs.Graph.Order
import Recheck.Proofs.References

/-!
# The plan of a run

What is known of a plan once it is made: its graph has the source files of the project as files and
their references as edges (`needs_iff`), its order and its schedules list each file once
(`mem_order`, `mem_scheduleFor`), and with caching its change set is what the files affect with
which a change starts (`contains_changes`).
-/

namespace Recheck.RunPlan

variable {digest : Digest} {config : Config} {excludes : List Glob} {t : FileTree}
  {project : Project} {data : StoreData} {plan : RunPlan}

/-- One worker takes up the files in the order of the layers. -/
theorem scheduleFor_one (plan : RunPlan) : plan.scheduleFor .one = plan.schedule := List.flatMap_id

/-- What making a plan comes to. -/
structure Made (digest : Digest) (config : Config) (excludes : List Glob) (t : FileTree)
    (project : Project) (data : StoreData) (plan : RunPlan) : Prop where
  references : References.collect t project config.extensions excludes = .ok plan.references
  graph : plan.graph = Graph.ofEdges plan.references.files plan.references.edges
  order : plan.graph.topologicalSort config.strictCycles = .ok plan.order
  changes : plan.changes =
    changesOf digest config t plan.references plan.graph plan.order data

theorem make_eq_ok_iff :
    make digest config excludes t project data = .ok plan ↔
      Made digest config excludes t project data plan := by
  constructor
  · intro h
    rw [make] at h
    split at h
    · cases h
    · next references hr =>
      simp only at h
      split at h
      · cases h
      · next order ho =>
        obtain rfl := Except.ok.inj h
        exact ⟨hr, rfl, ho, rfl⟩
  · intro h
    obtain ⟨references, graph, order, changes⟩ := plan
    obtain ⟨hr, hg, ho, hc⟩ := h
    simp only at hr hg ho hc
    subst hg
    simp only [make, hr, ho, hc]

/-- Whether a plan can be made does not depend on the store. -/
theorem make_eq_error {e : AnalysisError} (data' : StoreData)
    (h : make digest config excludes t project data = .error e) :
    make digest config excludes t project data' = .error e := by
  simp only [make] at h ⊢
  split
  · next hr =>
    simp only [hr] at h
    exact h
  · next references hr =>
    simp only [hr] at h
    split
    · next ho =>
      simp only [ho] at h
      exact h
    · next order ho =>
      simp only [ho] at h
      cases h

namespace Made

variable (h : Made digest config excludes t project data plan)
include h

/-! ## The graph and the schedule -/

theorem files_eq : plan.graph.files = plan.references.files := by
  rw [h.graph, files_ofEdges_collect h.references]

theorem sourceFiles_eq :
    sourceFiles t project config.extensions excludes = .ok plan.graph.files := by
  rw [h.files_eq]
  exact sourceFiles_of_collect h.references

theorem needs_iff {u v : Path} :
    plan.graph.Needs u v ↔ u ∈ plan.graph.files ∧ v ∈ plan.graph.files ∧
      ∃ target, RefersTo t project u target ∧ Path.Same target v := by
  rw [h.files_eq, h.graph]
  exact needs_iff_refersTo h.references

theorem mem_order {p : Path} : p ∈ plan.order ↔ p ∈ plan.graph.files :=
  Graph.mem_topologicalSort h.order

theorem length_order : plan.order.length = plan.graph.files.length := by
  have hfiles : plan.graph.files.Nodup := by
    refine plan.graph.files_distinct.imp fun {p q} hne heq => hne ?_
    rw [heq]
    exact Path.Same.refl q
  have hperm := (List.perm_ext_iff_of_nodup (Graph.nodup_topologicalSort h.order) hfiles).mpr
    fun p => h.mem_order
  exact hperm.length_eq

theorem schedule_perm : plan.schedule.Perm plan.order :=
  Graph.layers_perm (Graph.nodup_topologicalSort h.order) fun _ hp => h.mem_order.mp hp

theorem mem_schedule {p : Path} : p ∈ plan.schedule ↔ p ∈ plan.graph.files :=
  h.schedule_perm.mem_iff.trans h.mem_order

theorem scheduleFor_perm (workers : Workers) : (plan.scheduleFor workers).Perm plan.order := by
  have hlayers : (plan.scheduleFor workers).Perm (plan.layers.flatMap id) :=
    List.Perm.flatMap_left _ fun layer _ => workers.perm layer
  rw [List.flatMap_id] at hlayers
  exact hlayers.trans h.schedule_perm

theorem mem_scheduleFor {workers : Workers} {p : Path} :
    p ∈ plan.scheduleFor workers ↔ p ∈ plan.graph.files :=
  (h.scheduleFor_perm workers).mem_iff.trans h.mem_order

theorem nodup_scheduleFor (workers : Workers) : (plan.scheduleFor workers).Nodup :=
  (h.scheduleFor_perm workers).nodup_iff.mpr (Graph.nodup_topologicalSort h.order)

/-- The graph depends on what is collected from the files alone. -/
theorem graph_eq {t' : FileTree} {data' : StoreData} {plan' : RunPlan}
    (h' : Made digest config excludes t' project data' plan')
    (hcollect : References.collect t' project config.extensions excludes =
      References.collect t project config.extensions excludes) : plan'.graph = plan.graph := by
  have href : plan'.references = plan.references :=
    Except.ok.inj (h'.references.symm.trans (hcollect.trans h.references))
  rw [h'.graph, h.graph, href]

/-- The schedules depend on the graph alone. -/
theorem scheduleFor_eq {t' : FileTree} {data' : StoreData} {plan' : RunPlan}
    (h' : Made digest config excludes t' project data' plan') (hgraph : plan'.graph = plan.graph)
    (workers : Workers) : plan'.scheduleFor workers = plan.scheduleFor workers := by
  have horder : plan'.graph.topologicalSort config.strictCycles = .ok plan.order := by
    rw [hgraph, h.order]
  rw [scheduleFor, scheduleFor, layers, layers, hgraph,
    Except.ok.inj (h'.order.symm.trans horder)]

/-- If a plan can be made, it can be made from the same files with any store. -/
theorem exists_made {t' : FileTree} (data' : StoreData)
    (hcollect : References.collect t' project config.extensions excludes =
      References.collect t project config.extensions excludes) :
    ∃ plan', Made digest config excludes t' project data' plan' :=
  ⟨{ plan with
     changes := changesOf digest config t' plan.references plan.graph plan.order data' },
   hcollect.trans h.references, h.graph, h.order, rfl⟩

theorem pairwise_order : plan.order.Pairwise fun p q => ¬ Path.Same p q :=
  (Graph.nodup_topologicalSort h.order).imp_of_mem fun hp hq hne hs =>
    hne (Path.eq_of_same plan.graph.files_distinct (h.mem_order.mp hp) (h.mem_order.mp hq) hs)

end Made

/-! ## The change set -/

/-- A change starts with the file `p`: it has changed itself, it refers to a file with a record that
is not there, or it was left unresolved. -/
inductive StartsChange (digest : Digest) (t : FileTree) (project : Project) (files : List Path)
    (data : StoreData) (p : Path) : Prop where
  | changed (hc : (FileCheck.run digest t (data.get? p) p).isChanged = true)
  | refers {target : Path} (hr : RefersTo t project p target)
      (hm : Path.memSame target files = false) (hs : (data.get? target).isSome = true)
  | pending (hp : Path.memSame p data.pendingPaths = true)

theorem StartsChange.congr {t' : FileTree} {files : List Path} {p : Path}
    (h : t.stat p = t'.stat p) :
    StartsChange digest t project files data p ↔ StartsChange digest t' project files data p := by
  have hcontent : t.content? p = t'.content? p := by
    rw [FileTree.content?, FileTree.content?, FileTree.read_congr h]
  constructor
  · rintro (hc | ⟨hr, hm, hs⟩ | hp)
    · exact .changed (FileCheck.run_congr h ▸ hc)
    · exact .refers ((RefersTo.congr hcontent).mp hr) hm hs
    · exact .pending hp
  · rintro (hc | ⟨hr, hm, hs⟩ | hp)
    · exact .changed (FileCheck.run_congr h ▸ hc)
    · exact .refers ((RefersTo.congr hcontent).mpr hr) hm hs
    · exact .pending hp

namespace Made

variable (h : Made digest config excludes t project data plan)
include h

/-- A seed of the detection is a spelling of a file with which a change starts. -/
theorem startsChange_of_seed {p : Path}
    (hp : Changes.Seed digest t plan.graph plan.references.missing plan.order data p) :
    ∃ q ∈ plan.graph.files, Path.Same q p ∧
      StartsChange digest t project plan.graph.files data q := by
  obtain ⟨ho, hc⟩ | ⟨he, ht, hs⟩ | ⟨hp, hg⟩ := hp
  · exact ⟨p, h.mem_order.mp ho, Path.Same.refl p, .changed hc⟩
  · obtain ⟨hf, hr, hm⟩ := (exists_missing_iff_refersTo h.references).mp ⟨_, he, rfl, ht⟩
    rw [← h.files_eq] at hf hm
    exact ⟨p, hf, Path.Same.refl p, .refers hr hm hs⟩
  · rw [Graph.contains_eq_memSame] at hg
    obtain ⟨q, hq, hqp⟩ := Path.memSame_iff.mp hg
    exact ⟨q, hq, hqp, .pending (Path.memSame_iff.mpr ⟨p, hp, hqp.symm⟩)⟩

theorem seed_of_startsChange {q : Path} (hq : q ∈ plan.graph.files)
    (hstart : StartsChange digest t project plan.graph.files data q) :
    ∃ p, Path.Same p q ∧
      Changes.Seed digest t plan.graph plan.references.missing plan.order data p := by
  obtain hc | ⟨hr, hm, hs⟩ | hp := hstart
  · exact ⟨q, Path.Same.refl q, .changed (h.mem_order.mpr hq) hc⟩
  · rw [h.files_eq] at hq hm
    obtain ⟨⟨_, targets⟩, he, rfl, ht⟩ :=
      (exists_missing_iff_refersTo h.references).mpr ⟨hq, hr, hm⟩
    exact ⟨_, Path.Same.refl _, .refers he ht hs⟩
  · obtain ⟨p, hp, hpq⟩ := Path.memSame_iff.mp hp
    refine ⟨p, hpq, .pending hp ?_⟩
    rw [Graph.contains_eq_memSame]
    exact Path.memSame_of_same hpq (Path.memSame_of_mem hq)

/-- Without caching every file counts as changed. -/
theorem contains_changes_of_not_cache (hcache : config.enableCache = false) {f : Path}
    (hf : f ∈ plan.graph.files) : plan.changes.contains f = true := by
  rw [h.changes, changesOf, if_neg (Bool.eq_false_iff.mp hcache), Changes.allChanged,
    Changes.contains, Path.distinct, Path.memSame_foldl_insert]
  exact .inr (Path.memSame_of_mem (h.mem_order.mpr hf))

variable (hcache : config.enableCache = true)
include hcache

theorem changes_eq :
    plan.changes = Changes.detect digest t plan.graph plan.references.missing plan.order data := by
  rw [h.changes, changesOf, if_pos hcache]

/-- The files of the change set are those with which a change starts and those that depend on
them. -/
theorem contains_changes {f : Path} (hf : f ∈ plan.graph.files) :
    plan.changes.contains f = true ↔
      ∃ p ∈ plan.graph.files, StartsChange digest t project plan.graph.files data p ∧
        (f = p ∨ plan.graph.DependsOn f p) := by
  rw [h.changes_eq hcache, Changes.spreadFrom_detect.contains_iff f]
  constructor
  · rintro ⟨p, hp, hpf⟩
    obtain ⟨q, hq, hqp, hstart⟩ := h.startsChange_of_seed hp
    exact ⟨q, hq, hstart, (Graph.affects_iff hq hf).mp ((Graph.Affects.of_same hqp).trans hpf)⟩
  · rintro ⟨q, hq, hstart, hqf⟩
    obtain ⟨p, hpq, hp⟩ := h.seed_of_startsChange hq hstart
    exact ⟨p, hp, (Graph.Affects.of_same hpq).trans ((Graph.affects_iff hq hf).mpr hqf)⟩

/-- The change set holds spellings of source files, and those that are not spelled as in the graph
were left unresolved. -/
theorem mem_changeSet {f : Path} (hf : f ∈ plan.changes.changeSet) :
    f ∈ plan.graph.files ∨ f ∈ data.pendingPaths ∧ Path.memSame f plan.graph.files = true := by
  rw [h.changes_eq hcache] at hf
  rcases Changes.spreadFrom_detect.spelled f hf with hs | hg
  · obtain ⟨ho, -⟩ | ⟨he, ht, -⟩ | ⟨hp, hg⟩ := hs
    · exact .inl (h.mem_order.mp ho)
    · rw [h.files_eq]
      exact .inl ((exists_missing_iff_refersTo h.references).mp ⟨_, he, rfl, ht⟩).1
    · rw [Graph.contains_eq_memSame] at hg
      exact .inr ⟨hp, hg⟩
  · exact .inl hg

theorem staged?_changes {q : Path} (hq : q ∈ plan.graph.files) :
    plan.changes.staged? q = (FileCheck.run digest t (data.get? q) q).staged? := by
  rw [h.changes_eq hcache]
  exact Changes.staged?_detect h.pairwise_order (h.mem_order.mpr hq)

theorem memSame_unreadable_changes {q : Path} (hq : q ∈ plan.graph.files) :
    Path.memSame q plan.changes.unreadable =
      (FileCheck.run digest t (data.get? q) q).isUnreadable := by
  rw [h.changes_eq hcache]
  exact Changes.memSame_unreadable_detect h.pairwise_order (h.mem_order.mpr hq)

end Made

end Recheck.RunPlan
