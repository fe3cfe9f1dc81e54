import Recheck.Proofs.Content
import Recheck.Proofs.Path.Canonical

/-!
# Absolute paths piece by piece

An absolute path is made of the pieces of text between its slashes (`Path.ofPieces`). Those that are
names or `..` are its components. Joining adds pieces at the end (`join_ofPieces`), and what is seen
of a path from a directory above it are the pieces that follow those of the directory, without the
ones at the front that are no components (`relativeTo_ofPieces`).
-/

namespace Recheck

namespace Text

variable {α : Type}

/-- Pieces joined, with a separator before the first as well. -/
theorem cons_join (sep : α) {pieces : List (List α)} (hne : pieces ≠ []) :
    sep :: join sep pieces = pieces.flatMap (sep :: ·) := by
  induction pieces with
  | nil => exact absurd rfl hne
  | cons piece rest ih =>
    cases rest with
    | nil => simp [join]
    | cons next rest =>
      rw [join_cons_cons, ih (by simp), List.flatMap_cons]
      rfl

theorem splitOn_join [DecidableEq α] {sep : α} {pieces : List (List α)} (hne : pieces ≠ [])
    (hsep : ∀ piece ∈ pieces, sep ∉ piece) : splitOn sep (join sep pieces) = pieces := by
  rw [splitOn_eq, join, List.splitOn_intercalate sep hsep hne]

theorem splitOn_append_cons [DecidableEq α] (sep : α) (cs ds : List α) :
    splitOn sep (cs ++ sep :: ds) = splitOn sep cs ++ splitOn sep ds := by
  induction cs with
  | nil =>
    have hfirst : splitOn sep (sep :: ds) = [] :: splitOn sep ds := by rw [splitOn, if_pos rfl]
    rw [List.nil_append, hfirst]
    rfl
  | cons c cs ih =>
    rw [List.cons_append, splitOn, splitOn, ih]
    split
    · rfl
    · cases hsplit : splitOn sep cs with
      | nil => exact absurd hsplit (splitOn_ne_nil sep cs)
      | cons piece pieces => rfl

theorem splitOn_of_not_mem [DecidableEq α] {sep : α} {cs : List α} (h : sep ∉ cs) :
    splitOn sep cs = [cs] := by
  have hjoin : splitOn sep (join sep [cs]) = [cs] := splitOn_join (by simp) (by simpa using h)
  simpa [join] using hjoin

end Text

namespace Path

/-- The absolute path with the given pieces of text between its slashes. -/
def ofPieces (pieces : List (List Char)) : Path := ⟨String.ofList ('/' :: Text.join '/' pieces)⟩

@[simp] theorem toList_ofPieces (pieces : List (List Char)) :
    (ofPieces pieces).text.toList = '/' :: Text.join '/' pieces := by
  rw [ofPieces, String.toList_ofList]

theorem ofNames_eq_ofPieces (names : List String) :
    ofNames names = ofPieces (names.map String.toList) := by
  refine ext_toList ?_
  rw [toList_ofPieces, ofNames, String.toList_append, String.toList_intercalate]
  rfl

/-- An absolute path has the pieces of its text. -/
theorem eq_ofPieces_of_isAbsolute {p : Path} (h : p.isAbsolute = true) :
    ∃ cs, p.text.toList = '/' :: cs ∧ p = ofPieces (Text.splitOn '/' cs) := by
  rw [isAbsolute, beq_iff_eq] at h
  obtain ⟨cs, hcs⟩ := List.head?_eq_some_iff.mp h
  exact ⟨cs, hcs, ext_toList (by rw [hcs, toList_ofPieces, Text.join_splitOn])⟩

theorem layout_absolute {p : Path} {cs : List Char} (h : p.text.toList = '/' :: cs) :
    p.layout = ⟨some .root, Text.splitOn '/' cs⟩ := by
  simp only [layout, h]

theorem layout_ofPieces {pieces : List (List Char)} (hne : pieces ≠ [])
    (hslash : ∀ piece ∈ pieces, '/' ∉ piece) : (ofPieces pieces).layout = ⟨some .root, pieces⟩ := by
  rw [layout_absolute (toList_ofPieces pieces), Text.splitOn_join hne hslash]

theorem components_ofPieces {pieces : List (List Char)} (hslash : ∀ piece ∈ pieces, '/' ∉ piece) :
    (ofPieces pieces).components = .root :: (pieces.filter isStep).map stepOf := by
  cases pieces with
  | nil => rfl
  | cons piece rest =>
    rw [components, layout_ofPieces (by simp) hslash]
    rfl

/-! ## Joining -/

/-- The pieces without an empty one at the end, which a slash at the end leaves. -/
def dropSlash (pieces : List (List Char)) : List (List Char) :=
  if pieces.getLast? = some [] then pieces.dropLast else pieces

theorem dropSlash_append (pieces : List (List Char)) {pieces' : List (List Char)}
    (hne : pieces' ≠ []) : dropSlash (pieces ++ pieces') = pieces ++ dropSlash pieces' := by
  rw [dropSlash, dropSlash, List.getLast?_append_of_ne_nil _ hne]
  split
  · rw [List.dropLast_append_of_ne_nil hne]
  · rfl

theorem filter_isStep_dropSlash (pieces : List (List Char)) :
    (dropSlash pieces).filter isStep = pieces.filter isStep := by
  rw [dropSlash]
  split
  · next h =>
    obtain ⟨init, rfl⟩ := List.getLast?_eq_some_iff.mp h
    rw [List.dropLast_concat, List.filter_append, show [[]].filter isStep = [] from rfl,
      List.append_nil]
  · rfl

theorem mem_of_mem_dropSlash {pieces : List (List Char)} {piece : List Char}
    (h : piece ∈ dropSlash pieces) : piece ∈ pieces := by
  rw [dropSlash] at h
  split at h
  · exact List.mem_of_mem_take (List.dropLast_eq_take ▸ h)
  · exact h

theorem toList_join {p q : Path} (hp : p.text ≠ "") (hq : q.isAbsolute = false) :
    (p.join q).text.toList =
      if p.text.toList.getLast? = some '/' then p.text.toList ++ q.text.toList
      else p.text.toList ++ '/' :: q.text.toList := by
  have hempty : p.text.isEmpty = false := by rwa [← Bool.not_eq_true, String.isEmpty_iff]
  rw [join, if_neg (by simp [hq]), hempty, Bool.false_or]
  by_cases hlast : p.text.toList.getLast? = some '/'
  · rw [if_pos (by simp [hlast]), if_pos hlast, String.toList_append]
  · rw [if_neg (by simp [hlast]), if_neg hlast, String.toList_append, String.toList_append,
      List.append_assoc]
    rfl

/-- A relative path adds its pieces, in place of an empty one at the end. -/
theorem join_ofPieces {pieces : List (List Char)} (hslash : ∀ piece ∈ pieces, '/' ∉ piece)
    {q : Path} (hq : q.isAbsolute = false) :
    (ofPieces pieces).join q = ofPieces (dropSlash pieces ++ Text.splitOn '/' q.text.toList) := by
  have hsplit := Text.splitOn_ne_nil '/' q.text.toList
  have htail : (Text.splitOn '/' q.text.toList).flatMap ('/' :: ·) = '/' :: q.text.toList := by
    rw [← Text.cons_join '/' hsplit, Text.join_splitOn]
  have hne : (ofPieces pieces).text ≠ "" := by
    rw [Ne, ← String.toList_inj, toList_ofPieces]
    simp
  refine ext_toList ?_
  have hright : dropSlash pieces ++ Text.splitOn '/' q.text.toList ≠ [] := by simp [hsplit]
  rw [toList_join hne hq, toList_ofPieces, toList_ofPieces, Text.cons_join '/' hright,
    List.flatMap_append, htail]
  rcases pieces.eq_nil_or_concat with rfl | ⟨init, last, rfl⟩
  · rfl
  · rw [List.concat_eq_append] at hslash ⊢
    have hbase : '/' :: Text.join '/' (init ++ [last]) =
        init.flatMap ('/' :: ·) ++ '/' :: last := by
      rw [Text.cons_join '/' (by simp), List.flatMap_append]
      simp
    rw [hbase]
    cases last.eq_nil_or_concat with
    | inl hlast =>
      subst hlast
      simp [dropSlash]
    | inr hlast =>
      obtain ⟨cs, c, rfl⟩ := hlast
      have hc : c ≠ '/' := fun hc => hslash (cs.concat c) (by simp) (by simp [hc])
      have hend : (init.flatMap ('/' :: ·) ++ '/' :: cs.concat c).getLast? = some c := by
        rw [List.concat_eq_append, ← List.cons_append, ← List.append_assoc, List.getLast?_concat]
      rw [hend, if_neg (by simp [hc])]
      simp [dropSlash]

theorem layout_here {p : Path} {rest : List (List Char)} (h : ∀ cs, p.text.toList ≠ '/' :: cs)
    (hsplit : Text.splitOn '/' p.text.toList = ['.'] :: rest) : p.layout = ⟨some .here, rest⟩ := by
  rw [layout]
  split
  · next heq => exact absurd heq (h _)
  · simp only [hsplit]

theorem layout_relative {p : Path} (h : ∀ cs, p.text.toList ≠ '/' :: cs)
    (hsplit : ∀ rest, Text.splitOn '/' p.text.toList ≠ ['.'] :: rest) :
    p.layout = ⟨none, Text.splitOn '/' p.text.toList⟩ := by
  rw [layout]
  split
  · next heq => exact absurd heq (h _)
  · split
    · next heq => exact absurd heq (hsplit _)
    · rfl

/-- What follows a slash adds its pieces. -/
theorem layout_append {p q : Path} (hp : p.text.toList ≠ []) {ds : List Char}
    (hq : q.text.toList = p.text.toList ++ '/' :: ds) :
    q.layout = ⟨p.layout.anchor, p.layout.body ++ Text.splitOn '/' ds⟩ := by
  have hsplit := Text.splitOn_append_cons '/' p.text.toList ds
  rw [← hq] at hsplit
  by_cases habs : ∃ cs, p.text.toList = '/' :: cs
  · obtain ⟨cs, hcs⟩ := habs
    rw [hcs, List.cons_append] at hq
    rw [layout_absolute hcs, layout_absolute hq, Text.splitOn_append_cons]
  · have hprel : ∀ cs, p.text.toList ≠ '/' :: cs := fun cs hcs => habs ⟨cs, hcs⟩
    have hqrel : ∀ cs, q.text.toList ≠ '/' :: cs := by
      intro cs hcs
      obtain ⟨c, cs', hcs'⟩ := List.exists_cons_of_ne_nil hp
      rw [hq, hcs', List.cons_append] at hcs
      exact hprel cs' (by rw [hcs', (List.cons.inj hcs).1])
    cases hpieces : Text.splitOn '/' p.text.toList with
    | nil => exact absurd hpieces (Text.splitOn_ne_nil _ _)
    | cons piece pieces =>
      rw [hpieces] at hsplit
      by_cases hpiece : piece = ['.']
      · subst hpiece
        rw [layout_here hprel hpieces, layout_here hqrel hsplit]
        rfl
      · have hfirst : ∀ {rest rest'}, piece :: rest ≠ ['.'] :: rest' := fun heq =>
          hpiece (List.cons.inj heq).1
        rw [layout_relative hprel (hpieces ▸ fun _ => hfirst),
          layout_relative hqrel (hsplit ▸ fun _ => hfirst), hsplit, hpieces]

theorem components_append {p q : Path} (hp : p.text.toList ≠ []) {ds : List Char}
    (hq : q.text.toList = p.text.toList ++ '/' :: ds) :
    q.components = p.components ++ ((Text.splitOn '/' ds).filter isStep).map stepOf := by
  rw [components, components, layout_append hp hq, List.filter_append, List.map_append,
    List.append_assoc]

theorem components_name {name : String} (h : ProperName name) :
    (Path.mk name).components = [.name name] := by
  have hsplit := Text.splitOn_of_not_mem h.no_slash
  have hrel : ∀ cs, name.toList ≠ '/' :: cs := fun cs hcs =>
    h.no_slash (hcs ▸ List.mem_cons_self)
  have hhere : ∀ rest, Text.splitOn '/' name.toList ≠ ['.'] :: rest := by
    intro rest heq
    rw [hsplit] at heq
    exact h.ne_here (String.toList_inj.mp (List.cons.inj heq).1)
  rw [components, layout_relative hrel hhere, hsplit, List.filter_cons_of_pos (isStep_toList h)]
  simp [stepOf_toList h]

/-- A name adds one component. -/
theorem components_join_name (p : Path) {name : String} (h : ProperName name) :
    (p.join ⟨name⟩).components = p.components ++ [.name name] := by
  have hrel : (Path.mk name).isAbsolute = false := by
    rw [isAbsolute, beq_eq_false_iff_ne]
    intro hhead
    obtain ⟨cs, hcs⟩ := List.head?_eq_some_iff.mp hhead
    exact h.no_slash (hcs ▸ List.mem_cons_self)
  have hstep : ((Text.splitOn '/' name.toList).filter isStep).map stepOf = [.name name] := by
    rw [Text.splitOn_of_not_mem h.no_slash, List.filter_cons_of_pos (isStep_toList h)]
    simp [stepOf_toList h]
  by_cases hempty : p.text = ""
  · obtain rfl : p = ⟨""⟩ := ext_toList (congrArg String.toList hempty)
    have hjoin : (Path.mk "").join ⟨name⟩ = ⟨name⟩ := by
      rw [join, if_neg (by simp [hrel])]
      simp
    rw [hjoin, components_name h]
    rfl
  · have htext := toList_join hempty hrel
    have hne : p.text.toList ≠ [] := fun heq => hempty (String.toList_inj.mp heq)
    split at htext
    · next hlast =>
      -- The slash at the end is the one before the name.
      obtain ⟨cs, hcs⟩ := List.getLast?_eq_some_iff.mp hlast
      rw [hcs, List.append_assoc, List.singleton_append] at htext
      cases cs with
      | nil =>
        rw [components, components, layout_absolute hcs, layout_absolute htext, hstep]
        rfl
      | cons c cs =>
        have hbase : (Path.mk (String.ofList (c :: cs))).text.toList = c :: cs :=
          String.toList_ofList
        rw [← hbase] at htext hcs
        rw [components_append (by simp) htext, components_append (by simp) hcs, hstep,
          show ((Text.splitOn '/' []).filter isStep).map stepOf = [] from rfl, List.append_nil]
    · rw [components_append hne htext, hstep]

/-! ## Seen from above -/

theorem dropSteps_append {pieces : List (List Char)}
    (hsteps : ∀ piece ∈ pieces, isStep piece = true) (rest : List (List Char)) :
    dropSteps pieces.length (pieces ++ rest) = rest := by
  induction pieces with
  | nil => rw [List.length_nil, List.nil_append, dropSteps]
  | cons piece pieces ih =>
    rw [List.length_cons, List.cons_append, dropSteps, if_pos (hsteps piece List.mem_cons_self)]
    exact ih fun p hp => hsteps p (List.mem_cons_of_mem piece hp)

theorem dropWhile_steps {names : List (List Char)} (hsteps : ∀ name ∈ names, isStep name = true) :
    names.dropWhile (fun piece => !isStep piece) = names := by
  cases names with
  | nil => rfl
  | cons name names => rw [List.dropWhile_cons_of_neg (by simp [hsteps name List.mem_cons_self])]

theorem dropWhile_append_steps {pieces names : List (List Char)}
    (hsteps : ∀ name ∈ names, isStep name = true) :
    (pieces ++ names).dropWhile (fun piece => !isStep piece) =
      pieces.dropWhile (fun piece => !isStep piece) ++ names := by
  rw [List.dropWhile_append, dropWhile_steps hsteps]
  split
  · next h => rw [List.isEmpty_iff.mp h, List.nil_append]
  · rfl

theorem trimBodyEnd_append_steps {pieces names : List (List Char)} (hne : names ≠ [])
    (hsteps : ∀ name ∈ names, isStep name = true) :
    trimBodyEnd (pieces ++ names) = pieces ++ names := by
  have hnames : Text.dropRightWhile (fun piece => !isStep piece) names = names := by
    induction names with
    | nil => rfl
    | cons name names ih =>
      rw [Text.dropRightWhile_cons, if_neg (by simp [hsteps name List.mem_cons_self])]
      cases names with
      | nil => rfl
      | cons next rest => rw [ih (by simp) fun n hn => hsteps n (List.mem_cons_of_mem name hn)]
  rw [trimBodyEnd, Text.dropRightWhile_append, hnames, if_neg hne]

/-- Of a path below a directory, what comes after the directory is seen: names, and before them
nothing that is no component. -/
theorem relativeTo_ofPieces {base : List String} {pieces names : List (List Char)}
    (hbase : ∀ name ∈ base, ProperName name) (hpieces : ∀ piece ∈ pieces, '/' ∉ piece)
    (hnames : ∀ name ∈ names, '/' ∉ name ∧ isStep name = true) (hne : names ≠ []) :
    (ofPieces (base.map String.toList ++ (pieces ++ names))).relativeTo (ofNames base) =
      ⟨String.ofList (Text.join '/' (pieces.dropWhile (fun piece => !isStep piece) ++ names))⟩ := by
  have hsteps : ∀ piece ∈ base.map String.toList, isStep piece = true := by
    intro piece hpiece
    obtain ⟨name, hname, rfl⟩ := List.mem_map.mp hpiece
    exact isStep_toList (hbase name hname)
  have hslash : ∀ piece ∈ base.map String.toList ++ (pieces ++ names), '/' ∉ piece := by
    intro piece hpiece
    rcases List.mem_append.mp hpiece with hpiece | hpiece
    · obtain ⟨name, hname, rfl⟩ := List.mem_map.mp hpiece
      exact (hbase name hname).no_slash
    · exact (List.mem_append.mp hpiece).elim (hpieces piece) fun h => (hnames piece h).1
  have hnsteps : ∀ name ∈ names, isStep name = true := fun name hname => (hnames name hname).2
  have hlayout := layout_ofPieces (by simp [hne]) hslash
  have hbelow : (ofPieces (base.map String.toList ++ (pieces ++ names))).startsWith (ofNames base) =
      true := by
    have hmap : (base.map String.toList).map stepOf = base.map .name := by
      rw [List.map_map]
      exact List.map_congr_left fun name hname => stepOf_toList (hbase name hname)
    rw [startsWith, components_ofNames hbase, components_ofPieces hslash,
      List.isPrefixOf_iff_prefix, List.filter_append, List.filter_eq_self.mpr hsteps,
      List.map_append, hmap]
    exact ⟨_, rfl⟩
  rw [relativeTo, stripStart?, if_pos hbelow, components_ofNames hbase, hlayout]
  simp only [List.length_cons, List.length_map, Nat.add_one_ne_zero, if_false, Option.isSome_some,
    if_true, Nat.add_sub_cancel, Option.getD_some]
  have hdrop := dropSteps_append hsteps (pieces ++ names)
  rw [List.length_map] at hdrop
  rw [hdrop, dropWhile_append_steps hnsteps, trimBodyEnd_append_steps hne hnsteps]

end Path

end Recheck
