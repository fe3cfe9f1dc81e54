import Mathlib.Data.List.Lemmas
import Recheck.Proofs.Graph.Layers
import Recheck.Proofs.Graph.Order

/-!
# The layers one after the other

Files are attempted layer by layer. What a file reaches through needs that are not part of a cycle
lies in earlier layers and so comes before it (`precedes_of_needsOneWay`). A file on no cycle can
also reach files through a cycle. Such a file comes before it unless it lies in a later layer
(`precedes_iff_of_dependsOn`), which does happen: only what precedes a file in the order counts for
its layer, and a cycle has an edge against the order.
-/

namespace Recheck

/-- In the list, `p` comes before `q`. -/
def Precedes (ps : List Path) (p q : Path) : Prop :=
  ∃ before after, ps = before ++ q :: after ∧ p ∈ before

theorem precedes_iff_mem {before after : List Path} {p q : Path}
    (hd : (before ++ q :: after).Nodup) : Precedes (before ++ q :: after) p q ↔ p ∈ before := by
  constructor
  · rintro ⟨before', after', heq, hp⟩
    obtain ⟨-, hcons, hdisjoint⟩ := List.nodup_append.mp hd
    have hb : q ∉ before := fun hq => hdisjoint q hq q List.mem_cons_self rfl
    have ha : q ∉ after := (List.nodup_cons.mp hcons).1
    obtain ⟨rfl, -, -⟩ := (List.append_cons_inj_of_notMem hb ha).mp heq
    exact hp
  · exact fun hp => ⟨before, after, rfl, hp⟩

theorem Precedes.asymm {ps : List Path} {p q : Path} (h : Precedes ps p q) (hd : ps.Nodup) :
    ¬ Precedes ps q p := by
  obtain ⟨before, after, rfl, hp⟩ := h
  have hdisjoint := (List.nodup_append.mp hd).2.2
  obtain ⟨first, middle, rfl⟩ := List.append_of_mem hp
  intro hqp
  rw [List.append_assoc, List.cons_append] at hqp hd
  have hq : q ∈ first := (precedes_iff_mem hd).mp hqp
  exact hdisjoint q (List.mem_append_left _ hq) q List.mem_cons_self rfl

/-- A part of a list has the sequence of the list. -/
theorem Precedes.of_sublist {part ps : List Path} {p q : Path} (h : Precedes ps p q)
    (hd : ps.Nodup) (hs : part.Sublist ps) (hp : p ∈ part) (hq : q ∈ part) : Precedes part p q := by
  obtain ⟨before, after, rfl, hpb⟩ := h
  obtain ⟨part₁, part₂, rfl, h₁, h₂⟩ := List.sublist_append_iff.mp hs
  have hdisjoint := (List.nodup_append.mp hd).2.2
  have hp₁ : p ∈ part₁ :=
    (List.mem_append.mp hp).resolve_right fun hp₂ => hdisjoint p hpb p (h₂.subset hp₂) rfl
  have hq₂ : q ∈ part₂ :=
    (List.mem_append.mp hq).resolve_left fun hq₁ =>
      hdisjoint q (h₁.subset hq₁) q List.mem_cons_self rfl
  obtain ⟨before', after', rfl⟩ := List.append_of_mem hq₂
  exact ⟨part₁ ++ before', after', by simp, List.mem_append_left _ hp₁⟩

theorem Precedes.append {ps : List Path} {p q : Path} (h : Precedes ps p q)
    (first last : List Path) :
    Precedes (first ++ ps ++ last) p q := by
  obtain ⟨before, after, rfl, hp⟩ := h
  exact ⟨first ++ before, after ++ last, by simp, List.mem_append_right _ hp⟩

namespace Graph

/-! ## Layers -/

/-- The file `p` lies in an earlier layer than `q`. -/
def EarlierLayer (layers : List (List Path)) (p q : Path) : Prop :=
  ∃ k l, k < l ∧ InLayer layers k p ∧ InLayer layers l q

theorem flatten_eq_of_getElem? {layers : List (List Path)} {l : Nat} {layer : List Path}
    (h : layers[l]? = some layer) :
    layers.flatten = (layers.take l).flatten ++ layer ++ (layers.drop (l + 1)).flatten := by
  obtain ⟨hl, rfl⟩ := List.getElem?_eq_some_iff.mp h
  have hsplit : layers = layers.take l ++ layers[l] :: layers.drop (l + 1) := by
    rw [← List.drop_eq_getElem_cons hl, List.take_append_drop]
  conv_lhs => rw [hsplit]
  rw [List.flatten_append, List.flatten_cons, List.append_assoc]

theorem EarlierLayer.precedes {layers : List (List Path)} {p q : Path}
    (h : EarlierLayer layers p q) : Precedes layers.flatten p q := by
  obtain ⟨k, l, hkl, ⟨first, hk, hp⟩, ⟨second, hl, hq⟩⟩ := h
  obtain ⟨before, after, rfl⟩ := List.append_of_mem hq
  have hmem : first ∈ layers.take l :=
    List.mem_of_getElem? ((List.getElem?_take_of_lt hkl).trans hk)
  refine ⟨(layers.take l).flatten ++ before, after ++ (layers.drop (l + 1)).flatten, ?_, ?_⟩
  · rw [flatten_eq_of_getElem? hl]
    simp
  · exact List.mem_append_left _ (List.mem_flatten.mpr ⟨first, hmem, hp⟩)

theorem InLayer.unique {layers : List (List Path)} {k l : Nat} {p : Path}
    (hd : layers.flatten.Nodup) (hk : InLayer layers k p) (hl : InLayer layers l p) : k = l := by
  rcases Nat.lt_trichotomy k l with hlt | heq | hlt
  · have hself := EarlierLayer.precedes ⟨k, l, hlt, hk, hl⟩
    exact absurd hself (hself.asymm hd)
  · exact heq
  · have hself := EarlierLayer.precedes ⟨l, k, hlt, hl, hk⟩
    exact absurd hself (hself.asymm hd)

theorem exists_inLayer {layers : List (List Path)} {p : Path} (h : p ∈ layers.flatten) :
    ∃ k, InLayer layers k p := by
  obtain ⟨layer, hl, hp⟩ := List.mem_flatten.mp h
  obtain ⟨k, hk⟩ := List.getElem?_of_mem hl
  exact ⟨k, layer, hk, hp⟩

/-! ## The schedule -/

section Schedule

variable {g : Graph} {strict : Bool} {order : List Path}
  (hok : g.topologicalSort strict = .ok order)
include hok

theorem nodup_flatten_layers : (g.layers order).flatten.Nodup :=
  have hperm := layers_perm (nodup_topologicalSort hok) fun _ hp =>
    (mem_topologicalSort hok).mp hp
  hperm.nodup_iff.mpr (nodup_topologicalSort hok)

theorem earlierLayer_of_needsOneWay {u v : Path} (h : Relation.TransGen g.NeedsOneWay u v) :
    EarlierLayer (g.layers order) v u := by
  have hstep : ∀ {u v}, g.NeedsOneWay u v → EarlierLayer (g.layers order) v u := by
    intro u v huv
    obtain ⟨before, after, rfl⟩ :=
      List.append_of_mem ((mem_topologicalSort hok).mpr huv.1.left_mem)
    obtain ⟨k, l, hlt, hk, hl⟩ := exists_layer_lt (nodup_topologicalSort hok)
      (fun _ hp => (mem_topologicalSort hok).mp hp) rfl (mem_before_of_needsOneWay hok huv) huv.1
    exact ⟨l, k, hlt, hl, hk⟩
  induction h with
  | single huv => exact hstep huv
  | tail _ hvw ih =>
    obtain ⟨l, k, hlt, hl, hk⟩ := ih
    obtain ⟨j, l', hlt', hj, hl'⟩ := hstep hvw
    obtain rfl := InLayer.unique (nodup_flatten_layers hok) hl hl'
    exact ⟨j, k, Nat.lt_trans hlt' hlt, hj, hk⟩

/-- What a file reaches through needs that are not part of a cycle comes before it. -/
theorem precedes_of_needsOneWay {u v : Path} (h : Relation.TransGen g.NeedsOneWay u v) :
    Precedes (g.layers order).flatten v u :=
  (earlierLayer_of_needsOneWay hok h).precedes

/-- What a file on no cycle depends on comes before it, unless it lies in a later layer. -/
theorem precedes_iff_of_dependsOn {u x : Path} (hacyclic : ¬ g.DependsOn u u)
    (hx : g.DependsOn u x) :
    Precedes (g.layers order).flatten x u ↔ ¬ EarlierLayer (g.layers order) u x := by
  have hnodup := nodup_topologicalSort hok
  have hmem : ∀ p ∈ order, p ∈ g.files := fun _ hp => (mem_topologicalSort hok).mp hp
  have hflat := nodup_flatten_layers hok
  have hperm := layers_perm hnodup hmem
  obtain ⟨k, hk⟩ :=
    exists_inLayer (hperm.mem_iff.mpr ((mem_topologicalSort hok).mpr hx.left_mem))
  obtain ⟨l, hl⟩ :=
    exists_inLayer (hperm.mem_iff.mpr ((mem_topologicalSort hok).mpr hx.right_mem))
  constructor
  · exact fun hprec hlayer => hprec.asymm hflat hlayer.precedes
  · intro hno
    rcases Nat.lt_trichotomy k l with hlt | rfl | hlt
    · exact absurd ⟨k, l, hlt, hk, hl⟩ hno
    · -- In one layer the files stand as in the order.
      obtain ⟨layer, hlayer, hu⟩ := hk
      obtain ⟨layer', hlayer', hx'⟩ := hl
      obtain rfl : layer = layer' := Option.some.inj (hlayer.symm.trans hlayer')
      obtain ⟨before, after, rfl⟩ := List.append_of_mem ((mem_topologicalSort hok).mpr hx.left_mem)
      have horder : Precedes (before ++ u :: after) x u :=
        ⟨before, after, rfl, mem_before_of_dependsOn hok hacyclic hx⟩
      have hsub := sublist_of_mem_layers (pairwise_of_nodup hnodup hmem)
        (List.mem_of_getElem? hlayer)
      rw [flatten_eq_of_getElem? hlayer]
      exact (horder.of_sublist hnodup hsub hx' hu).append _ _
    · exact EarlierLayer.precedes ⟨l, k, hlt, hl, hk⟩

end Schedule

end Graph

end Recheck
