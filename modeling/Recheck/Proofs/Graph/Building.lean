import Mathlib.Data.Set.Card
import Recheck.Proofs.Graph.EdgeLists

/-!
# Graphs as their requests make them

A graph is made by requests to add files and edges, some of which may be refused. What it then holds
can be said of the requests alone (`Recorded`): the files are the paths added, each as it was first
spelled, and two files are joined if a request to join them was granted, which it was if both were
there. The graph lists its edges once, for both of their ends, so the answers about dependencies
and dependents agree.
-/

namespace Recheck

/-- `p` comes before `q`. -/
def Path.Lt (p q : Path) : Prop := Path.le p q = true ∧ Path.le q p = false

namespace Graph

/-! ## Requests -/

/-- A request to a graph. -/
inductive Request where
  | addFile (path : Path)
  | addEdge (dependent dependency : Path)

/-- The graph after a request, and the refusal if there is one. -/
def respond (g : Graph) : Request → Graph × Option GraphError
  | .addFile p => (g.addFile p, none)
  | .addEdge p q =>
    match g.addEdge p q with
    | .ok g' => (g', none)
    | .error e => (g, some e)

/-- The graph that a list of requests makes. -/
def afterRequests (requests : List Request) : Graph :=
  requests.foldl (fun g r => (g.respond r).1) empty

/-- The path that a request adds. -/
def Request.added? : Request → Option Path
  | .addFile p => some p
  | .addEdge _ _ => none

/-- The paths that a list of requests adds. -/
def added (requests : List Request) : List Path := requests.filterMap Request.added?

/-- A request to join the files that `p` and `q` spell was granted. -/
def Granted (requests : List Request) (p q : Path) : Prop :=
  ∃ before p' q' later, requests = before ++ .addEdge p' q' :: later ∧ Path.Same p' p ∧
    Path.Same q' q ∧ ((afterRequests before).respond (.addEdge p' q')).2 = none

theorem afterRequests_concat (requests : List Request) (r : Request) :
    afterRequests (requests ++ [r]) = ((afterRequests requests).respond r).1 := by
  rw [afterRequests, List.foldl_concat, afterRequests]

/-! ## One request -/

section Respond

variable {g : Graph} {p q : Path}

theorem respond_of_joined {u v : Path} (hp : g.find? p = some u) (hq : g.find? q = some v) :
    g.respond (.addEdge p q) =
      (g.link u v (mem_of_find?_eq_some hp) (mem_of_find?_eq_some hq), none) := by
  simp only [respond, addEdge_of_find? hp hq]

theorem respond_of_dependent_unknown (hp : g.find? p = none) :
    g.respond (.addEdge p q) = (g, some (.unknownFile p)) := by
  have herror : g.addEdge p q = .error (.unknownFile p) := by
    rw [addEdge]
    split
    · rfl
    · next hu => simp [hp] at hu
  simp only [respond, herror]

theorem respond_of_dependency_unknown {u : Path} (hp : g.find? p = some u)
    (hq : g.find? q = none) : g.respond (.addEdge p q) = (g, some (.unknownFile q)) := by
  have herror : g.addEdge p q = .error (.unknownFile q) := by
    rw [addEdge]
    split
    · next hn => simp [hp] at hn
    · split
      · rfl
      · next hv => simp [hq] at hv
  simp only [respond, herror]

/-- A request to join files is refused if one of them is not there, and the first such is named. -/
theorem refusal_addEdge (g : Graph) (p q : Path) :
    (g.respond (.addEdge p q)).2 =
      ([p, q].find? fun x => !Path.memSame x g.files).map .unknownFile := by
  have hmem : ∀ x, Path.memSame x g.files = (g.find? x).isSome := fun _ => Path.find?_isSome.symm
  cases hp : g.find? p with
  | none => simp [respond_of_dependent_unknown hp, hmem, hp]
  | some u =>
    cases hq : g.find? q with
    | none => simp [respond_of_dependency_unknown hp hq, hmem, hp, hq]
    | some v => simp [respond_of_joined hp hq, hmem, hp, hq]

theorem respond_of_refusal {r : Request} {e : GraphError} (h : (g.respond r).2 = some e) :
    (g.respond r).1 = g := by
  cases r with
  | addFile p => cases h
  | addEdge p q =>
    rw [respond] at h ⊢
    cases hadd : g.addEdge p q with
    | ok g' => simp [hadd] at h
    | error e => rfl

theorem files_respond_addEdge (g : Graph) (p q : Path) :
    (g.respond (.addEdge p q)).1.files = g.files := by
  cases hp : g.find? p with
  | none => rw [respond_of_dependent_unknown hp]
  | some u =>
    cases hq : g.find? q with
    | none => rw [respond_of_dependency_unknown hp hq]
    | some v =>
      rw [respond_of_joined hp hq]
      exact files_link g (mem_of_find?_eq_some hp) (mem_of_find?_eq_some hq)

theorem joins_respond_addFile {x y : Path} :
    (g.respond (.addFile p)).1.Joins x y ↔ g.Joins x y := by
  have hedges : (g.respond (.addFile p)).1.edges = g.edges := (addFile_spec g p).2
  simp only [Joins, Needs, hedges]

/-- A request that is granted joins the files that its paths spell, and nothing else. -/
theorem joins_respond_addEdge {x y : Path} :
    (g.respond (.addEdge p q)).1.Joins x y ↔
      g.Joins x y ∨
        (Path.Same p x ∧ Path.Same q y ∧ (g.respond (.addEdge p q)).2 = none) := by
  cases hp : g.find? p with
  | none => simp [respond_of_dependent_unknown hp]
  | some u =>
    cases hq : g.find? q with
    | none => simp [respond_of_dependency_unknown hp hq]
    | some v =>
      have hup : Path.Same u p := (Path.find?_spec hp).2
      have hvq : Path.Same v q := (Path.find?_spec hq).2
      rw [respond_of_joined hp hq]
      simp only [Joins, needs_link, and_true]
      constructor
      · rintro ⟨u', v', hu, hv, hneeds | ⟨rfl, rfl⟩⟩
        · exact .inl ⟨u', v', hu, hv, hneeds⟩
        · exact .inr ⟨hup.symm.trans hu, hvq.symm.trans hv⟩
      · rintro (⟨u', v', hu, hv, hneeds⟩ | ⟨hx, hy⟩)
        · exact ⟨u', v', hu, hv, .inl hneeds⟩
        · exact ⟨u, v, hup.trans hx, hvq.trans hy, .inr ⟨rfl, rfl⟩⟩

end Respond

/-! ## All requests -/

/-- The files are the paths added, each as it was first spelled. -/
theorem files_afterRequests (requests : List Request) :
    (afterRequests requests).files =
      (added requests).eraseDupsBy fun p q => decide (Path.Same q p) := by
  induction requests using List.reverseRecOn with
  | nil => rfl
  | append_singleton requests r ih =>
    rw [afterRequests_concat, added, List.filterMap_append]
    cases r with
    | addFile p =>
      have hadded : [Request.addFile p].filterMap Request.added? = [p] := rfl
      rw [hadded, eraseDupsBy_concat, ← added, ← ih]
      exact (addFile_spec (afterRequests requests) p).1
    | addEdge p q =>
      have hadded : [Request.addEdge p q].filterMap Request.added? = [] := rfl
      rw [hadded, List.append_nil, files_respond_addEdge, ih, added]

theorem memSame_eraseDupsBy (p : Path) (ps : List Path) :
    Path.memSame p (ps.eraseDupsBy fun p q => decide (Path.Same q p)) = Path.memSame p ps := by
  induction ps using List.reverseRecOn with
  | nil => rfl
  | append_singleton ps q ih =>
    rw [eraseDupsBy_concat, Bool.eq_iff_iff, Path.memSame_append, ← ih]
    exact Path.memSame_insert.trans (by simp [Path.memSame_cons])

theorem granted_concat {requests : List Request} {r : Request} {x y : Path} :
    Granted (requests ++ [r]) x y ↔
      Granted requests x y ∨
        ∃ p q, r = .addEdge p q ∧ Path.Same p x ∧ Path.Same q y ∧
          ((afterRequests requests).respond (.addEdge p q)).2 = none := by
  constructor
  · rintro ⟨before, p, q, later, heq, hp, hq, hnone⟩
    rcases later.eq_nil_or_concat with rfl | ⟨later, last, rfl⟩
    · obtain ⟨rfl, hr⟩ := List.append_inj' heq rfl
      exact .inr ⟨p, q, (List.cons.inj hr).1, hp, hq, hnone⟩
    · rw [List.concat_eq_append, ← List.cons_append, ← List.append_assoc] at heq
      obtain ⟨rfl, -⟩ := List.append_inj' heq rfl
      exact .inl ⟨before, p, q, later, rfl, hp, hq, hnone⟩
  · rintro (⟨before, p, q, later, rfl, hp, hq, hnone⟩ | ⟨p, q, rfl, hp, hq, hnone⟩)
    · exact ⟨before, p, q, later ++ [r], by simp, hp, hq, hnone⟩
    · exact ⟨requests, p, q, [], rfl, hp, hq, hnone⟩

/-- Files are joined if a request to join them was granted. -/
theorem joins_afterRequests {requests : List Request} {x y : Path} :
    (afterRequests requests).Joins x y ↔ Granted requests x y := by
  induction requests using List.reverseRecOn with
  | nil => simp [Joins, Needs, afterRequests, empty, Granted]
  | append_singleton requests r ih =>
    rw [afterRequests_concat, granted_concat, ← ih]
    cases r with
    | addFile p => simp [joins_respond_addFile]
    | addEdge p q =>
      rw [joins_respond_addEdge]
      refine or_congr_right ⟨fun h => ⟨p, q, rfl, h⟩, ?_⟩
      rintro ⟨p', q', heq, h⟩
      obtain ⟨rfl, rfl⟩ := Request.addEdge.inj heq
      exact h

/-! ## Neighbours -/

/-- Different files in path order increase strictly. -/
theorem pairwise_lt_of_sort {g : Graph} {ps qs : List Path} (hps : ps = Path.sort qs)
    (hnodup : ps.Nodup) (hfiles : ps ⊆ g.files) : ps.Pairwise Path.Lt := by
  have hsorted : ps.Pairwise fun p q => Path.le p q = true := hps ▸ Path.pairwise_sort qs
  refine (hsorted.and hnodup).imp_of_mem ?_
  rintro p q hp hq ⟨hle, hne⟩
  refine ⟨hle, Bool.eq_false_iff.mpr fun hge => hne ?_⟩
  exact Path.eq_of_same g.files_distinct (hfiles hp) (hfiles hq) (Path.le_antisymm hle hge)

theorem pairwise_lt_dependencies (g : Graph) (p : Path) : (g.dependencies p).Pairwise Path.Lt := by
  rw [dependencies]
  split
  · next u _ =>
    exact pairwise_lt_of_sort (g := g) rfl (nodup_needs g u) fun _ hv => (mem_needs.mp hv).right_mem
  · exact .nil

theorem pairwise_lt_dependents (g : Graph) (p : Path) : (g.dependents p).Pairwise Path.Lt := by
  rw [dependents]
  split
  · next v _ =>
    exact pairwise_lt_of_sort (g := g) rfl (nodup_neededBy g v) fun _ hu =>
      (mem_neededBy.mp hu).left_mem
  · exact .nil

theorem joins_iff_needs {g : Graph} {u v : Path} (hu : u ∈ g.files) (hv : v ∈ g.files) :
    g.Joins u v ↔ g.Needs u v := by
  rw [joins_iff_find?]
  simp [find?_of_mem hu, find?_of_mem hv]

/-- The edges are counted by pairs of files. -/
theorem length_edges (g : Graph) :
    g.edges.length = {e : Path × Path | e.1 ∈ g.files ∧ e.2 ∈ g.files ∧ g.Joins e.1 e.2}.ncard := by
  have hset : {e : Path × Path | e.1 ∈ g.files ∧ e.2 ∈ g.files ∧ g.Joins e.1 e.2} =
      (g.edges.toFinset : Set (Path × Path)) := by
    ext e
    simp only [Set.mem_ofPred_eq, Finset.mem_coe, List.mem_toFinset]
    constructor
    · rintro ⟨hu, hv, hjoins⟩
      exact (joins_iff_needs hu hv).mp hjoins
    · intro he
      obtain ⟨hu, hv⟩ := g.edges_closed e he
      exact ⟨hu, hv, (joins_iff_needs hu hv).mpr he⟩
  rw [hset, Set.ncard_coe_finset, List.toFinset_card_of_nodup g.edges_nodup]

/-! ## What a graph records -/

/-- The graph holds what the requests have asked for. -/
structure Recorded (requests : List Request) (g : Graph) : Prop where
  /-- The files are the paths added, without those that an earlier one spells. -/
  files : g.files = (added requests).eraseDupsBy fun p q => decide (Path.Same q p)
  dependencies_increase : ∀ p, (g.dependencies p).Pairwise Path.Lt
  dependents_increase : ∀ q, (g.dependents q).Pairwise Path.Lt
  mem_dependencies : ∀ p q, Path.memSame q (g.dependencies p) = true ↔ Granted requests p q
  mem_dependents : ∀ p q, Path.memSame p (g.dependents q) = true ↔ Granted requests p q
  /-- There is an edge for each pair of files that a request has joined. -/
  edgeCount : g.edges.length =
    {e : Path × Path | e.1 ∈ g.files ∧ e.2 ∈ g.files ∧ Granted requests e.1 e.2}.ncard
  /-- A request to join paths is refused if one of them was never added, and names the first. -/
  refusal : ∀ p q, (g.respond (.addEdge p q)).2 =
    ([p, q].find? fun x => !Path.memSame x (added requests)).map .unknownFile
  unchanged : ∀ r e, (g.respond r).2 = some e → (g.respond r).1 = g

/-- After any requests, granted and refused, the graph holds what they have asked for. -/
theorem recorded_afterRequests (requests : List Request) :
    Recorded requests (afterRequests requests) where
  files := files_afterRequests requests
  dependencies_increase := pairwise_lt_dependencies _
  dependents_increase := pairwise_lt_dependents _
  mem_dependencies _ _ := memSame_dependencies.trans joins_afterRequests
  mem_dependents _ _ := memSame_dependents.trans joins_afterRequests
  edgeCount := by
    simp only [← joins_afterRequests]
    exact length_edges _
  refusal p q := by
    have hadded : ∀ x, Path.memSame x (afterRequests requests).files =
        Path.memSame x (added requests) := by
      intro x
      rw [files_afterRequests, memSame_eraseDupsBy]
    simp only [refusal_addEdge, hadded]
  unchanged _ _ := respond_of_refusal

/-- The graph of a file list and pairs is made by requests: the files first, then the ends of each
pair and their edge. -/
theorem ofEdges_eq_afterRequests (files : List Path) (edges : List (Path × Path)) :
    ofEdges files edges =
      afterRequests (files.map .addFile ++
        edges.flatMap fun e => [.addFile e.1, .addFile e.2, .addEdge e.1 e.2]) := by
  rw [ofEdges, afterRequests, List.foldl_append, List.foldl_map, List.foldl_flatMap]
  refine congrArg (fun add => edges.foldl add (files.foldl addFile empty)) ?_
  funext g e
  simp only [List.foldl_cons, List.foldl_nil, addEdgeWithEnds, respond]
  cases ((g.addFile e.1).addFile e.2).addEdge e.1 e.2 <;> rfl

end Graph

end Recheck
