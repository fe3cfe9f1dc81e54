import Mathlib.Data.List.Nodup
import Recheck.Graph.Layers
import Recheck.Proofs.Graph.Edges

/-!
# Layers of an order

The layers of an order without two spellings of one path hold the entries that are in the graph
(`layers_perm_filter`) and keep their order (`sublist_of_mem_layers`), none of them is empty
(`ne_nil_of_mem_layers`), and an entry lies in a later layer than each of its dependencies that
precedes it (`exists_layer_lt_of_entries`), directly after one of them unless it is in the first
layer (`exists_layer_tight_of_entry`). These are parts of one invariant of the loop that places the
entries (`Layered`). Other lemmas are for orders that list files of the graph.
-/

namespace Recheck.Graph

/-! ## Placing one file -/

theorem placeIn_perm (layers : List (List Path)) (n : Nat) (p : Path) :
    (placeIn layers n p).flatten.Perm (p :: layers.flatten) := by
  induction layers, n, p using placeIn.induct with
  | case1 p => exact .refl _
  | case2 n p ih => simpa [placeIn] using ih
  | case3 layer layers p =>
    simp only [placeIn, List.flatten_cons, List.append_assoc]
    exact List.perm_middle
  | case4 layer layers n p ih =>
    simp only [placeIn, List.flatten_cons]
    exact (ih.append_left layer).trans List.perm_middle

/-- The file `p` lies in layer `k`. -/
def InLayer (layers : List (List Path)) (k : Nat) (p : Path) : Prop :=
  ∃ layer, layers[k]? = some layer ∧ p ∈ layer

theorem inLayer_placeIn_self (layers : List (List Path)) (n : Nat) (p : Path) :
    InLayer (placeIn layers n p) n p := by
  induction layers, n, p using placeIn.induct with
  | case1 p => exact ⟨[p], rfl, by simp⟩
  | case2 n p ih => simpa [InLayer, placeIn] using ih
  | case3 layer layers p => exact ⟨layer ++ [p], rfl, by simp⟩
  | case4 layer layers n p ih => simpa [InLayer, placeIn] using ih

theorem InLayer.keep {layers : List (List Path)} {k : Nat} {q : Path} (h : InLayer layers k q)
    (n : Nat) (p : Path) : InLayer (placeIn layers n p) k q := by
  obtain ⟨layer, hk, hq⟩ := h
  induction layers, n, p using placeIn.induct generalizing k with
  | case1 p => simp at hk
  | case2 n p ih => simp at hk
  | case3 layer₀ layers p =>
    cases k with
    | zero =>
      obtain rfl : layer₀ = layer := by simpa using hk
      exact ⟨layer₀ ++ [p], rfl, List.mem_append_left _ hq⟩
    | succ k => exact ⟨layer, by simpa [placeIn] using hk, hq⟩
  | case4 layer₀ layers n p ih =>
    cases k with
    | zero => exact ⟨layer, by simpa [placeIn] using hk, hq⟩
    | succ k => simpa [InLayer, placeIn] using ih (by simpa using hk)

theorem sublist_of_mem_placeIn {layers : List (List Path)} {n : Nat} {p : Path} {done : List Path}
    (h : ∀ layer ∈ layers, layer.Sublist done) :
    ∀ layer ∈ placeIn layers n p, layer.Sublist (done ++ [p]) := by
  induction layers, n, p using placeIn.induct with
  | case1 p => simp [placeIn]
  | case2 n p ih =>
    intro layer hl
    rw [placeIn] at hl
    rcases List.mem_cons.mp hl with rfl | hl
    · exact List.nil_sublist _
    · exact ih (by simp) layer hl
  | case3 layer₀ layers p =>
    intro layer hl
    rw [placeIn] at hl
    rcases List.mem_cons.mp hl with rfl | hl
    · exact (h layer₀ (List.mem_cons_self ..)).append (List.Sublist.refl [p])
    · exact (h layer (List.mem_cons_of_mem _ hl)).trans (List.sublist_append_left ..)
  | case4 layer₀ layers n p ih =>
    intro layer hl
    rw [placeIn] at hl
    rcases List.mem_cons.mp hl with rfl | hl
    · exact (h layer (List.mem_cons_self ..)).trans (List.sublist_append_left ..)
    · exact ih (fun l hl => h l (List.mem_cons_of_mem _ hl)) layer hl

/-- Placing a file in a layer that is there, or in the next one, leaves no layer empty. -/
theorem ne_nil_of_mem_placeIn {layers : List (List Path)} {n : Nat} {p : Path}
    (hn : n ≤ layers.length) (h : ∀ layer ∈ layers, layer ≠ []) :
    ∀ layer ∈ placeIn layers n p, layer ≠ [] := by
  induction layers, n, p using placeIn.induct with
  | case1 p => simp [placeIn]
  | case2 n p ih => cases hn
  | case3 layer layers p =>
    rw [List.forall_mem_cons] at h
    simpa [placeIn] using h.2
  | case4 layer layers n p ih =>
    rw [List.forall_mem_cons] at h
    rw [placeIn, List.forall_mem_cons]
    exact ⟨h.1, ih (Nat.le_of_succ_le_succ hn) h.2⟩

theorem InLayer.lt_length {layers : List (List Path)} {k : Nat} {p : Path}
    (h : InLayer layers k p) : k < layers.length := by
  obtain ⟨layer, hk, -⟩ := h
  exact (List.getElem?_eq_some_iff.mp hk).1

/-! ## Levels -/

theorem lastPosition?_eq {entries : List OrderEntry} {u : Path} {i : Nat}
    (hex : ∃ e ∈ entries, e.file = u) (hall : ∀ e ∈ entries, e.file = u → e.position = i) :
    lastPosition? entries u = some i := by
  suffices h : ∀ (es : List OrderEntry) (last : Option Nat),
      (∀ e ∈ es, e.file = u → e.position = i) → (last = some i ∨ ∃ e ∈ es, e.file = u) →
      es.foldl (fun last e => if e.file = u then some e.position else last) last = some i by
    exact h entries none hall (.inr hex)
  intro es
  induction es with
  | nil => exact fun last _ h => h.resolve_right (by simp)
  | cons e es ih =>
    intro last hall h
    rw [List.foldl_cons]
    refine ih _ (fun e' he' => hall e' (List.mem_cons_of_mem _ he')) ?_
    by_cases he : e.file = u
    · exact .inl (by rw [if_pos he, hall e (List.mem_cons_self ..) he])
    · rw [if_neg he]
      refine h.imp_right ?_
      rintro ⟨e', he', hu⟩
      rcases List.mem_cons.mp he' with rfl | he'
      · exact absurd hu he
      · exact ⟨e', he', hu⟩

theorem lt_foldl_of_mem {f : Nat → Path → Nat} (hmono : ∀ n w, n ≤ f n w) {v : Path} {l : Nat}
    (hv : ∀ n, l < f n v) {vs : List Path} (h : v ∈ vs) (n : Nat) : l < vs.foldl f n := by
  have hle : ∀ (vs : List Path) (n : Nat), n ≤ vs.foldl f n := by
    intro vs
    induction vs with
    | nil => exact fun n => Nat.le_refl n
    | cons w vs ih => exact fun n => Nat.le_trans (hmono n w) (ih (f n w))
  induction vs generalizing n with
  | nil => simp at h
  | cons w vs ih =>
    rw [List.foldl_cons]
    rcases List.mem_cons.mp h with rfl | h
    · exact Nat.lt_of_lt_of_le (hv n) (hle vs _)
    · exact ih h _

/-- The layer of an entry exceeds that of every dependency that precedes it. -/
theorem lt_levelOf {g : Graph} {entries : List OrderEntry} {s : Layering} {entry : OrderEntry}
    {v : Path} {i l : Nat} (hv : g.Needs entry.file v) (hi : lastPosition? entries v = some i)
    (hlt : i < entry.position) (hl : s.levels.lookup v = some l) :
    l < levelOf g entries s entry := by
  have hmem : v ∈ (g.edges.filter fun e => e.1 = entry.file).map (·.2) := by
    simpa [Needs] using hv
  refine lt_foldl_of_mem (fun n w => ?_) (fun n => ?_) hmem 0
  · split
    · split <;> omega
    · exact Nat.le_refl n
  · simp only [hi, hl]
    split <;> omega

theorem foldl_eq_or_exists (f : Nat → Path → Nat) (reached : Path → Nat → Prop)
    (hf : ∀ n w, f n w = n ∨ reached w (f n w)) (vs : List Path) (n : Nat) :
    vs.foldl f n = n ∨ ∃ w ∈ vs, reached w (vs.foldl f n) := by
  induction vs generalizing n with
  | nil => exact .inl rfl
  | cons v vs ih =>
    rw [List.foldl_cons]
    rcases ih (f n v) with hrest | ⟨w, hw, hrest⟩
    · rw [hrest]
      exact (hf n v).imp_right fun hv => ⟨v, List.mem_cons_self, hv⟩
    · exact .inr ⟨w, List.mem_cons_of_mem v hw, hrest⟩

/-- The layer of an entry is the first, or it comes directly after that of a dependency that
precedes the entry. -/
theorem levelOf_eq_zero_or (g : Graph) (entries : List OrderEntry) (s : Layering)
    (entry : OrderEntry) :
    levelOf g entries s entry = 0 ∨
      ∃ v i l, g.Needs entry.file v ∧ lastPosition? entries v = some i ∧ i < entry.position ∧
        s.levels.lookup v = some l ∧ levelOf g entries s entry = l + 1 := by
  rw [levelOf]
  refine (foldl_eq_or_exists _ (fun v n => ∃ i l, lastPosition? entries v = some i ∧
    i < entry.position ∧ s.levels.lookup v = some l ∧ n = l + 1) (fun n v => ?_) _ 0).imp_right ?_
  · split
    · next i l hi hl =>
      split
      · next h => exact .inr ⟨i, l, hi, h.1, hl, rfl⟩
      · exact .inl rfl
    · exact .inl rfl
  · rintro ⟨v, hv, i, l, hi, hlt, hl, hlevel⟩
    exact ⟨v, i, l, by simpa [Needs] using hv, hi, hlt, hl, hlevel⟩

theorem exists_mem_of_lastPosition? {entries : List OrderEntry} {u : Path} {i : Nat}
    (h : lastPosition? entries u = some i) : ∃ e ∈ entries, e.file = u ∧ e.position = i := by
  suffices hfold : ∀ (es : List OrderEntry) (last : Option Nat),
      es.foldl (fun last e => if e.file = u then some e.position else last) last = some i →
      last = some i ∨ ∃ e ∈ es, e.file = u ∧ e.position = i by
    exact (hfold entries none h).resolve_left (by simp)
  intro es
  induction es with
  | nil => exact fun last h => .inl h
  | cons e es ih =>
    intro last h
    rw [List.foldl_cons] at h
    rcases ih _ h with hlast | ⟨e', he', hfound⟩
    · by_cases he : e.file = u
      · rw [if_pos he] at hlast
        exact .inr ⟨e, List.mem_cons_self, he, Option.some.inj hlast⟩
      · rw [if_neg he] at hlast
        exact .inl hlast
    · exact .inr ⟨e', List.mem_cons_of_mem e he', hfound⟩

/-! ## Entries -/

/-- The entries stand as their positions do, and no two are for one file. -/
structure Spread (entries : List OrderEntry) : Prop where
  positions : entries.Pairwise fun d e => d.position < e.position
  files : entries.Pairwise fun d e => d.file ≠ e.file

theorem Spread.lastPosition?_eq {entries : List OrderEntry} (h : Spread entries) {e : OrderEntry}
    (he : e ∈ entries) : lastPosition? entries e.file = some e.position := by
  refine Graph.lastPosition?_eq ⟨e, he, rfl⟩ fun d hd hfile => ?_
  by_contra hne
  have : Std.Symm fun d e : OrderEntry => d.file ≠ e.file := ⟨fun _ _ => Ne.symm⟩
  exact h.files.forall hd he (fun heq => hne (heq ▸ rfl)) hfile

theorem mem_orderEntries {g : Graph} {order : List Path} {e : OrderEntry} :
    e ∈ g.orderEntries order ↔
      order[e.position]? = some e.path ∧ g.find? e.path = some e.file := by
  obtain ⟨p, u, i⟩ := e
  simp only [orderEntries, List.mem_filterMap, Prod.exists, Option.map_eq_some_iff,
    List.mk_mem_zipIdx_iff_getElem?, OrderEntry.mk.injEq]
  constructor
  · rintro ⟨q, j, hq, v, hv, rfl, rfl, rfl⟩
    exact ⟨hq, hv⟩
  · rintro ⟨hp, hu⟩
    exact ⟨p, i, hp, u, hu, rfl, rfl, rfl⟩

/-- The entries of an order are its paths that are in the graph. -/
theorem map_path_orderEntries (g : Graph) (order : List Path) :
    (g.orderEntries order).map (·.path) = order.filter g.contains := by
  have hentry : ∀ p i, ((g.find? p).map fun u => (⟨p, u, i⟩ : OrderEntry)).map (·.path) =
      Option.guard g.contains p := by
    intro p i
    rw [Option.guard, contains]
    cases g.find? p <;> rfl
  calc (g.orderEntries order).map (·.path)
      = order.zipIdx.filterMap (Option.guard g.contains ∘ Prod.fst) := by
        rw [orderEntries, List.map_filterMap]
        exact List.filterMap_congr fun e _ => hentry e.1 e.2
    _ = (order.zipIdx.map Prod.fst).filterMap (Option.guard g.contains) := List.filterMap_map.symm
    _ = order.filter g.contains := by rw [List.zipIdx_map_fst, List.filterMap_eq_filter]

theorem spread_orderEntries (g : Graph) {order : List Path}
    (hd : order.Pairwise fun p q => ¬ Path.Same p q) : Spread (g.orderEntries order) := by
  have hpositions : order.zipIdx.Pairwise fun d e => d.2 < e.2 := by
    rw [← List.pairwise_map, List.zipIdx_map_snd]
    exact List.pairwise_lt_range'
  have hpaths : order.zipIdx.Pairwise fun d e => ¬ Path.Same d.1 e.1 := by
    rw [← List.pairwise_map (f := Prod.fst) (R := fun p q => ¬ Path.Same p q), List.zipIdx_map_fst]
    exact hd
  constructor
  · refine List.pairwise_filterMap.mpr (hpositions.imp fun hlt d hd e he => ?_)
    obtain ⟨u, -, rfl⟩ := Option.map_eq_some_iff.mp hd
    obtain ⟨v, -, rfl⟩ := Option.map_eq_some_iff.mp he
    exact hlt
  · refine List.pairwise_filterMap.mpr (hpaths.imp fun hne d hd e he heq => hne ?_)
    obtain ⟨u, hu, rfl⟩ := Option.map_eq_some_iff.mp hd
    obtain ⟨v, hv, rfl⟩ := Option.map_eq_some_iff.mp he
    obtain rfl : u = v := heq
    exact (Path.find?_spec hu).2.symm.trans (Path.find?_spec hv).2

/-! ## The loop -/

/-- The entries `done` of an order have been placed. -/
structure Layered (g : Graph) (done : List OrderEntry) (s : Layering) : Prop where
  perm : s.layers.flatten.Perm (done.map (·.path))
  sublist : ∀ layer ∈ s.layers, layer.Sublist (done.map (·.path))
  ne_nil : ∀ layer ∈ s.layers, layer ≠ []
  /-- Every file placed has a level, which is the number of a layer that holds its entry. -/
  level : ∀ e ∈ done, ∃ k, s.levels.lookup e.file = some k ∧ InLayer s.layers k e.path
  /-- A file that needs an earlier one has the higher level. -/
  lt : ∀ d ∈ done, ∀ e ∈ done, d.position < e.position → g.Needs e.file d.file →
    ∀ k l, s.levels.lookup e.file = some k → s.levels.lookup d.file = some l → l < k
  /-- A file above the first level needs an earlier one on the level below. -/
  tight : ∀ e ∈ done, ∀ k, s.levels.lookup e.file = some (k + 1) →
    ∃ d ∈ done, d.position < e.position ∧ g.Needs e.file d.file ∧ s.levels.lookup d.file = some k

section Place

variable {g : Graph} {entries done rest : List OrderEntry} {e : OrderEntry} {s : Layering}
  (hspread : Spread entries) (hentries : entries = done ++ e :: rest)
include hspread hentries

theorem before_of_mem_done {d : OrderEntry} (hd : d ∈ done) :
    d.position < e.position ∧ d.file ≠ e.file := by
  obtain ⟨hpositions, hfiles⟩ := hspread
  rw [hentries] at hpositions hfiles
  exact ⟨(List.pairwise_append.mp hpositions).2.2 d hd e List.mem_cons_self,
    (List.pairwise_append.mp hfiles).2.2 d hd e List.mem_cons_self⟩

theorem mem_done_of_position_lt {d : OrderEntry} (hd : d ∈ entries)
    (hlt : d.position < e.position) : d ∈ done := by
  have hpositions := hspread.positions
  rw [hentries] at hd hpositions
  rcases List.mem_append.mp hd with hd | hd
  · exact hd
  · rcases List.mem_cons.mp hd with rfl | hd
    · exact absurd hlt (Nat.lt_irrefl _)
    · have hgt := List.rel_of_pairwise_cons (List.pairwise_append.mp hpositions).2.1 hd
      exact absurd hlt (Nat.lt_asymm hgt)

/-- The level of the next entry exceeds those of its dependencies among the entries placed. -/
theorem lt_levelOf_of_mem_done {d : OrderEntry} (hd : d ∈ done) (hneeds : g.Needs e.file d.file)
    {l : Nat} (hl : s.levels.lookup d.file = some l) : l < levelOf g entries s e := by
  have hmem : d ∈ entries := by
    rw [hentries]
    exact List.mem_append_left _ hd
  exact lt_levelOf hneeds (hspread.lastPosition?_eq hmem)
    (before_of_mem_done hspread hentries hd).1 hl

theorem levelOf_eq_zero_or_of_done :
    levelOf g entries s e = 0 ∨
      ∃ d ∈ done, ∃ l, g.Needs e.file d.file ∧ s.levels.lookup d.file = some l ∧
        levelOf g entries s e = l + 1 := by
  refine (levelOf_eq_zero_or g entries s e).imp_right ?_
  rintro ⟨v, i, l, hneeds, hi, hlt, hl, hlevel⟩
  obtain ⟨d, hd, rfl, rfl⟩ := exists_mem_of_lastPosition? hi
  exact ⟨d, mem_done_of_position_lt hspread hentries hd hlt, l, hneeds, hl, hlevel⟩

theorem Layered.place (h : Layered g done s) :
    Layered g (done ++ [e]) (placeEntry g entries s e) := by
  have hbefore := fun d hd => before_of_mem_done hspread hentries (d := d) hd
  have habove := fun d hd => lt_levelOf_of_mem_done (s := s) hspread hentries (g := g) (d := d) hd
  have hbelow := levelOf_eq_zero_or_of_done (g := g) (s := s) hspread hentries
  have hplace : placeEntry g entries s e =
      ⟨(e.file, levelOf g entries s e) :: s.levels,
        placeIn s.layers (levelOf g entries s e) e.path⟩ := rfl
  rw [hplace]
  generalize levelOf g entries s e = k at habove hbelow ⊢
  have hlookup : ∀ d ∈ done,
      List.lookup d.file ((e.file, k) :: s.levels) = s.levels.lookup d.file := by
    intro d hd
    rw [List.lookup_cons, beq_false_of_ne (hbefore d hd).2]
  have hself : List.lookup e.file ((e.file, k) :: s.levels) = some k := List.lookup_cons_self
  have hmap : (done ++ [e]).map (·.path) = done.map (·.path) ++ [e.path] := by simp
  constructor
  case perm =>
    rw [hmap]
    exact (placeIn_perm s.layers k e.path).trans
      ((h.perm.cons e.path).trans (List.perm_append_singleton ..).symm)
  case sublist =>
    rw [hmap]
    exact sublist_of_mem_placeIn h.sublist
  case ne_nil =>
    refine ne_nil_of_mem_placeIn ?_ h.ne_nil
    rcases hbelow with rfl | ⟨d, hd, l, -, hl, rfl⟩
    · exact Nat.zero_le _
    · obtain ⟨l', hl', hlayer⟩ := h.level d hd
      obtain rfl : l = l' := Option.some.inj (hl.symm.trans hl')
      exact hlayer.lt_length
  case level =>
    intro d hd
    rcases List.mem_append.mp hd with hd | hd
    · obtain ⟨l, hl, hlayer⟩ := h.level d hd
      exact ⟨l, (hlookup d hd).trans hl, hlayer.keep k e.path⟩
    · obtain rfl := List.mem_singleton.mp hd
      exact ⟨k, hself, inLayer_placeIn_self s.layers k d.path⟩
  case lt =>
    intro d hdmem e' hemem hlt hneeds m l hm hl
    rcases List.mem_append.mp hdmem with hd | hd
    · rw [hlookup d hd] at hl
      rcases List.mem_append.mp hemem with he | he
      · rw [hlookup e' he] at hm
        exact h.lt d hd e' he hlt hneeds m l hm hl
      · obtain rfl := List.mem_singleton.mp he
        obtain rfl : k = m := Option.some.inj (hself.symm.trans hm)
        exact habove d hd hneeds hl
    · -- Nothing placed so far stands behind the new entry.
      obtain rfl := List.mem_singleton.mp hd
      rcases List.mem_append.mp hemem with he | he
      · exact absurd hlt (Nat.lt_asymm (hbefore e' he).1)
      · obtain rfl := List.mem_singleton.mp he
        exact absurd hlt (Nat.lt_irrefl _)
  case tight =>
    intro e' he' m hm
    rcases List.mem_append.mp he' with he' | he'
    · rw [hlookup e' he'] at hm
      obtain ⟨d, hd, hlt, hneeds, hl⟩ := h.tight e' he' m hm
      exact ⟨d, List.mem_append_left _ hd, hlt, hneeds, (hlookup d hd).trans hl⟩
    · obtain rfl := List.mem_singleton.mp he'
      obtain rfl : k = m + 1 := Option.some.inj (hself.symm.trans hm)
      obtain ⟨d, hd, l, hneeds, hl, hlevel⟩ := hbelow.resolve_left (Nat.succ_ne_zero m)
      obtain rfl : m = l := Nat.succ.inj hlevel
      exact ⟨d, List.mem_append_left _ hd, (hbefore d hd).1, hneeds, (hlookup d hd).trans hl⟩

end Place

theorem Layered.placeAll {g : Graph} {entries done rest : List OrderEntry} {s : Layering}
    (hspread : Spread entries) (hentries : entries = done ++ rest) (h : Layered g done s) :
    Layered g entries (rest.foldl (placeEntry g entries) s) := by
  induction rest generalizing done s with
  | nil =>
    rw [List.append_nil] at hentries
    exact hentries ▸ h
  | cons e rest ih => exact ih (by simpa using hentries) (h.place hspread hentries)

theorem layered_layers {g : Graph} {order : List Path}
    (hd : order.Pairwise fun p q => ¬ Path.Same p q) :
    ∃ s, g.layers order = s.layers ∧ Layered g (g.orderEntries order) s := by
  have hstart : Layered g [] ⟨[], []⟩ :=
    ⟨.refl _, by simp, by simp, by simp, by simp, by simp⟩
  exact ⟨_, rfl, hstart.placeAll (spread_orderEntries g hd) rfl⟩

/-! ## Orders without two spellings of one path -/

section Distinct

variable {g : Graph} {order : List Path} (hd : order.Pairwise fun p q => ¬ Path.Same p q)
include hd

/-- The layers together hold the entries of the order that are in the graph, each once. -/
theorem layers_perm_filter : (g.layers order).flatten.Perm (order.filter g.contains) := by
  obtain ⟨s, hs, h⟩ := layered_layers (g := g) hd
  rw [hs, ← map_path_orderEntries]
  exact h.perm

/-- Entries of one layer stand in the sequence of the order. -/
theorem sublist_of_mem_layers {layer : List Path} (hl : layer ∈ g.layers order) :
    layer.Sublist order := by
  obtain ⟨s, hs, h⟩ := layered_layers (g := g) hd
  have hsub := h.sublist layer (hs ▸ hl)
  rw [map_path_orderEntries] at hsub
  exact hsub.trans List.filter_sublist

theorem ne_nil_of_mem_layers {layer : List Path} (hl : layer ∈ g.layers order) : layer ≠ [] := by
  obtain ⟨s, hs, h⟩ := layered_layers (g := g) hd
  exact h.ne_nil layer (hs ▸ hl)

/-- An entry lies in a later layer than what it needs and follows in the order. -/
theorem exists_layer_lt_of_entries {d e : OrderEntry} (hmem : d ∈ g.orderEntries order)
    (he : e ∈ g.orderEntries order) (hlt : d.position < e.position)
    (hneeds : g.Needs e.file d.file) :
    ∃ k l, l < k ∧ InLayer (g.layers order) k e.path ∧ InLayer (g.layers order) l d.path := by
  obtain ⟨s, hs, h⟩ := layered_layers (g := g) hd
  obtain ⟨k, hk, hlayer⟩ := h.level e he
  obtain ⟨l, hl, hlayer'⟩ := h.level d hmem
  rw [hs]
  exact ⟨k, l, h.lt d hmem e he hlt hneeds k l hk hl, hlayer, hlayer'⟩

/-- An entry lies in the first layer, or directly after the layer of one that it needs and follows
in the order. -/
theorem exists_layer_tight_of_entry {e : OrderEntry} (he : e ∈ g.orderEntries order) :
    ∃ k, InLayer (g.layers order) k e.path ∧
      (k = 0 ∨ ∃ d ∈ g.orderEntries order, d.position < e.position ∧ g.Needs e.file d.file ∧
        ∃ l, k = l + 1 ∧ InLayer (g.layers order) l d.path) := by
  obtain ⟨s, hs, h⟩ := layered_layers (g := g) hd
  obtain ⟨k, hk, hlayer⟩ := h.level e he
  rw [hs]
  cases k with
  | zero => exact ⟨0, hlayer, .inl rfl⟩
  | succ k =>
    obtain ⟨d, hmem, hlt, hneeds, hl⟩ := h.tight e he k hk
    obtain ⟨l, hl', hlayer'⟩ := h.level d hmem
    obtain rfl : l = k := Option.some.inj (hl'.symm.trans hl)
    exact ⟨l + 1, hlayer, .inr ⟨d, hmem, hlt, hneeds, l, rfl, hlayer'⟩⟩

end Distinct

/-! ## Orders of files -/

section Order

variable {g : Graph} {order : List Path} (hnodup : order.Nodup) (hmem : ∀ p ∈ order, p ∈ g.files)
include hnodup hmem

theorem pairwise_of_nodup : order.Pairwise fun p q => ¬ Path.Same p q :=
  hnodup.imp_of_mem fun hp hq hne hs =>
    hne (Path.eq_of_same g.files_distinct (hmem _ hp) (hmem _ hq) hs)

omit hnodup in
theorem mem_orderEntries_of_getElem? {u : Path} {i : Nat} (h : order[i]? = some u) :
    ⟨u, u, i⟩ ∈ g.orderEntries order :=
  mem_orderEntries.mpr ⟨h, find?_of_mem (hmem u (List.mem_of_getElem? h))⟩

/-- The layers together hold the files of the order, each once. -/
theorem layers_perm : (g.layers order).flatten.Perm order := by
  have hperm := layers_perm_filter (g := g) (pairwise_of_nodup hnodup hmem)
  rwa [List.filter_eq_self.mpr] at hperm
  intro p hp
  rw [contains, find?_of_mem (hmem p hp)]
  rfl

/-- A file lies in a later layer than what it needs and follows in the order. -/
theorem exists_layer_lt {before after : List Path} {u v : Path}
    (horder : order = before ++ u :: after) (hv : v ∈ before) (hneeds : g.Needs u v) :
    ∃ k l, l < k ∧ InLayer (g.layers order) k u ∧ InLayer (g.layers order) l v := by
  obtain ⟨i, hi⟩ := List.getElem?_of_mem hv
  have hlt : i < before.length := (List.getElem?_eq_some_iff.mp hi).1
  have hv' : order[i]? = some v := by rw [horder, List.getElem?_append_left hlt, hi]
  have hu : order[before.length]? = some u := by simp [horder]
  exact exists_layer_lt_of_entries (pairwise_of_nodup hnodup hmem)
    (mem_orderEntries_of_getElem? hmem hv') (mem_orderEntries_of_getElem? hmem hu) hlt hneeds

/-- A file lies in the first layer, or directly after the layer of a file that it needs and follows
in the order. -/
theorem exists_layer_tight {before after : List Path} {u : Path}
    (horder : order = before ++ u :: after) :
    ∃ k, InLayer (g.layers order) k u ∧
      (k = 0 ∨ ∃ v ∈ before, g.Needs u v ∧ ∃ l, k = l + 1 ∧ InLayer (g.layers order) l v) := by
  have hu : order[before.length]? = some u := by simp [horder]
  obtain ⟨k, hk, htight⟩ := exists_layer_tight_of_entry (pairwise_of_nodup hnodup hmem)
    (mem_orderEntries_of_getElem? hmem hu)
  refine ⟨k, hk, htight.imp_right ?_⟩
  rintro ⟨⟨v, w, i⟩, hentry, hlt, hneeds, l, rfl, hl⟩
  obtain ⟨hi, hw⟩ := mem_orderEntries.mp hentry
  obtain rfl : v = w :=
    Option.some.inj ((find?_of_mem (hmem v (List.mem_of_getElem? hi))).symm.trans hw)
  rw [horder, List.getElem?_append_left hlt] at hi
  exact ⟨v, List.mem_of_getElem? hi, hneeds, l, rfl, hl⟩

end Order

end Recheck.Graph
