import Recheck.Proofs.Graph.Schedule

/-!
# Layers of any order

An order that layers are asked for need not be one of the graph's own: it may put files before what
they need, leave files out, name files that the graph does not have and spell paths in its own way.
As long as it names no path twice, its layers are a partition of the entries that are in the graph
(`TightPartition`), in which a dependency counts for an entry exactly if it precedes it.
-/

namespace Recheck.Graph

theorem precedes_iff_getElem? {ps : List Path} {p q : Path} :
    Precedes ps p q ↔ ∃ i j : Nat, i < j ∧ ps[i]? = some p ∧ ps[j]? = some q := by
  constructor
  · rintro ⟨before, after, rfl, hp⟩
    obtain ⟨i, hi⟩ := List.getElem?_of_mem hp
    have hlt : i < before.length := (List.getElem?_eq_some_iff.mp hi).1
    exact ⟨i, before.length, hlt, by rw [List.getElem?_append_left hlt, hi], by simp⟩
  · rintro ⟨i, j, hlt, hp, hq⟩
    obtain ⟨hj, rfl⟩ := List.getElem?_eq_some_iff.mp hq
    refine ⟨ps.take j, ps.drop (j + 1), ?_, ?_⟩
    · rw [← List.drop_eq_getElem_cons hj, List.take_append_drop]
    · have htake : (ps.take j)[i]? = some p := by rw [List.getElem?_take_of_lt hlt, hp]
      exact List.mem_of_getElem? htake

/-- The layers partition an order, and each entry lies as early as its dependencies before it
allow. -/
structure TightPartition (g : Graph) (order : List Path) (layers : List (List Path)) : Prop where
  ne_nil : ∀ layer ∈ layers, layer ≠ []
  /-- Together the layers hold the entries that are in the graph, each once. -/
  perm : layers.flatten.Perm (order.filter g.contains)
  /-- The entries of a layer stand as they do in the order. -/
  sublist : ∀ layer ∈ layers, layer.Sublist order
  /-- An entry lies in a later layer than each of its dependencies that precedes it. -/
  after : ∀ p q, Precedes order q p → Path.memSame q (g.dependencies p) = true →
    ∀ k l, InLayer layers k p → InLayer layers l q → l < k
  /-- An entry behind the first layer has such a dependency in the layer before its own. -/
  tight : ∀ k p, InLayer layers (k + 1) p →
    ∃ q, Precedes order q p ∧ Path.memSame q (g.dependencies p) = true ∧ InLayer layers k q

section Distinct

variable {g : Graph} {order : List Path} (hd : order.Pairwise fun p q => ¬ Path.Same p q)
include hd

theorem nodup_flatten_of_distinct : (g.layers order).flatten.Nodup := by
  have hnodup : order.Nodup := by
    refine hd.imp fun hne => ?_
    rintro rfl
    exact hne (Path.Same.refl _)
  exact (layers_perm_filter hd).nodup_iff.mpr (hnodup.filter _)

/-- What lies in a layer stands somewhere in the order and is in the graph. -/
theorem exists_entry_of_inLayer {k : Nat} {p : Path} (h : InLayer (g.layers order) k p) :
    ∃ e ∈ g.orderEntries order, e.path = p := by
  obtain ⟨layer, hk, hp⟩ := h
  have hflat : p ∈ (g.layers order).flatten :=
    List.mem_flatten.mpr ⟨layer, List.mem_of_getElem? hk, hp⟩
  rw [(layers_perm_filter hd).mem_iff, ← map_path_orderEntries] at hflat
  exact List.mem_map.mp hflat

end Distinct

/-- For an order without two spellings of one path, the layers are a tight partition. -/
theorem tightPartition_layers (g : Graph) {order : List Path}
    (hd : order.Pairwise fun p q => ¬ Path.Same p q) : TightPartition g order (g.layers order) where
  ne_nil _ := ne_nil_of_mem_layers hd
  perm := layers_perm_filter hd
  sublist _ := sublist_of_mem_layers hd
  after p q hprec hneeds k l hk hl := by
    obtain ⟨i, j, hlt, hq, hp⟩ := precedes_iff_getElem?.mp hprec
    obtain ⟨u, v, hu, hv, hneeds⟩ := joins_iff_find?.mp (memSame_dependencies.mp hneeds)
    obtain ⟨k', l', hlt', hk', hl'⟩ := exists_layer_lt_of_entries hd
      (mem_orderEntries (e := ⟨q, v, i⟩).mpr ⟨hq, hv⟩)
      (mem_orderEntries (e := ⟨p, u, j⟩).mpr ⟨hp, hu⟩) hlt hneeds
    rwa [InLayer.unique (nodup_flatten_of_distinct hd) hk hk',
      InLayer.unique (nodup_flatten_of_distinct hd) hl hl']
  tight k p hk := by
    obtain ⟨e, he, rfl⟩ := exists_entry_of_inLayer hd hk
    obtain ⟨k', hk', htight⟩ := exists_layer_tight_of_entry hd he
    obtain rfl := InLayer.unique (nodup_flatten_of_distinct hd) hk hk'
    obtain ⟨d, hmem, hlt, hneeds, l, hl, hlayer⟩ := htight.resolve_left (Nat.succ_ne_zero k)
    obtain rfl : k = l := Nat.succ.inj hl
    obtain ⟨hd', hfile⟩ := mem_orderEntries.mp hmem
    obtain ⟨he', hfile'⟩ := mem_orderEntries.mp he
    exact ⟨d.path, precedes_iff_getElem?.mpr ⟨d.position, e.position, hlt, hd', he'⟩,
      memSame_dependencies.mpr (joins_iff_find?.mpr ⟨e.file, d.file, hfile', hfile, hneeds⟩),
      hlayer⟩

/-- Two cycles that meet in a file. The order starts inside one of them, leaves a file of it out,
names a path that is not in the graph and spells another in its own way. -/
theorem tightPartition_layers_scattered :
    let g := ofEdges [⟨"a"⟩, ⟨"b/c"⟩, ⟨"d"⟩, ⟨"e"⟩]
      [(⟨"a"⟩, ⟨"b/c"⟩), (⟨"b/c"⟩, ⟨"d"⟩), (⟨"d"⟩, ⟨"a"⟩), (⟨"e"⟩, ⟨"a"⟩), (⟨"a"⟩, ⟨"e"⟩)]
    let order : List Path := [⟨"b//c"⟩, ⟨"x"⟩, ⟨"a"⟩, ⟨"e"⟩]
    (order.Pairwise fun p q => ¬ Path.Same p q) ∧ TightPartition g order (g.layers order) ∧
      g.layers order = [[⟨"b//c"⟩], [⟨"a"⟩], [⟨"e"⟩]] := by
  intro g order
  have hd : order.Pairwise fun p q => ¬ Path.Same p q := by decide
  exact ⟨hd, tightPartition_layers g hd, by decide⟩

end Recheck.Graph
