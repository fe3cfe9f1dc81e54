import Mathlib.Logic.Relation
import Recheck.Proofs.Path.Pieces
import Recheck.Proofs.Source.Directives

/-!
# Spellings of one reference

A file below the source directory can be referred to by the way from the referring file, which first
climbs to the source directory (`climb`), or by its place in the package. Where the rest of the
reference, its tail, leads from a directory is said by `Path.walk`, name by name, and both forms
lead there from the source directory (`target?_climb`, `target?_inPackage`). A reference is a text,
and the names that it adds are the encodings of its pieces.

Steps that lead back to where they start can be put into a tail (`Respelled`), and do not change
where it leads (`Respelled.walk_eq`).
-/

namespace Recheck

namespace Path

/-! ## Walking -/

/-- The names of the directory that pieces of a path lead to from a directory. There is nothing
above the root. -/
def walk (dir : List String) : List (List Char) → List String
  | [] => dir
  | piece :: rest =>
    if piece = [] ∨ piece = ['.'] then walk dir rest
    else if piece = ['.', '.'] then walk dir.dropLast rest
    else walk (dir ++ [Text.encoded (String.ofList piece)]) rest

theorem walk_append (dir : List String) (pieces rest : List (List Char)) :
    walk dir (pieces ++ rest) = walk (walk dir pieces) rest := by
  fun_induction walk dir pieces with
  | case1 dir => rfl
  | case2 dir piece pieces hstay ih => rw [List.cons_append, walk, if_pos hstay, ih]
  | case3 dir pieces hstay ih => rw [List.cons_append, walk, if_neg hstay, if_pos rfl, ih]
  | case4 dir piece pieces hstay hup ih =>
    rw [List.cons_append, walk, if_neg hstay, if_neg hup, ih]

theorem walk_here (dir : List String) (rest : List (List Char)) :
    walk dir (['.'] :: rest) = walk dir rest := by
  rw [walk, if_pos (.inr rfl)]

theorem walk_empty (dir : List String) (rest : List (List Char)) :
    walk dir ([] :: rest) = walk dir rest := by
  rw [walk, if_pos (.inl rfl)]

theorem walk_up (dir : List String) (rest : List (List Char)) :
    walk dir (['.', '.'] :: rest) = walk dir.dropLast rest := by
  rw [walk, if_neg (by simp), if_pos rfl]

theorem walk_name {name : String} (h : ProperName name) (dir : List String)
    (rest : List (List Char)) :
    walk dir (name.toList :: rest) = walk (dir ++ [Text.encoded name]) rest := by
  have hstay : ¬ (name.toList = [] ∨ name.toList = ['.']) := by
    rintro (heq | heq)
    · exact h.ne_empty (String.toList_inj.mp heq)
    · exact h.ne_here (String.toList_inj.mp heq)
  have hup : name.toList ≠ ['.', '.'] := fun heq => h.ne_up (String.toList_inj.mp heq)
  rw [walk, if_neg hstay, if_neg hup, String.ofList_toList]

/-- The components that pieces of a path stand for. -/
def steps (pieces : List (List Char)) : List Component := (pieces.filter isStep).map stepOf

theorem isStep_encoding_iff {piece : List Char} :
    isStep (Text.encoding piece) = true ↔ ¬ (piece = [] ∨ piece = ['.']) := by
  have hhere : Text.encoding ['.'] = ['.'] := by decide
  rw [← Text.encoding_eq_iff Text.encoding_nil, ← Text.encoding_eq_iff hhere]
  simp [isStep]

/-- Walking is following the components of the encoding. -/
theorem reverse_foldl_follow (stack : List String) (pieces : List (List Char)) :
    ((steps (pieces.map Text.encoding)).foldl follow stack).reverse =
      walk stack.reverse pieces := by
  induction pieces generalizing stack with
  | nil => rfl
  | cons piece pieces ih =>
    rw [List.map_cons, walk, steps]
    by_cases hstay : piece = [] ∨ piece = ['.']
    · rw [if_pos hstay, List.filter_cons_of_neg (isStep_encoding_iff.not.mpr (not_not_intro hstay)),
        ← steps, ih]
    · have hparent : Text.encoding ['.', '.'] = ['.', '.'] := by decide
      rw [if_neg hstay, List.filter_cons_of_pos (isStep_encoding_iff.mpr hstay), List.map_cons,
        List.foldl_cons, ← steps, ih, stepOf]
      by_cases hup : piece = ['.', '.']
      · rw [if_pos hup, if_pos (hup ▸ hparent), follow, List.dropLast_reverse]
      · rw [if_neg hup, if_neg ((Text.encoding_eq_iff hparent).not.mpr hup), follow,
          List.reverse_cons, Text.ofList_encoding]

theorem steps_append (pieces rest : List (List Char)) :
    steps (pieces ++ rest) = steps pieces ++ steps rest := by
  rw [steps, List.filter_append, List.map_append, ← steps, ← steps]

/-! ## Absolute paths -/

theorem isAbsolute_of_components {p : Path} {rest : List Component}
    (h : p.components = .root :: rest) : p.isAbsolute = true := by
  rw [isAbsolute, head?_of_root_mem (h ▸ List.mem_cons_self)]
  rfl

theorem steps_dropSlash (pieces : List (List Char)) : steps (dropSlash pieces) = steps pieces := by
  rw [steps, filter_isStep_dropSlash, ← steps]

theorem steps_trimBodyEnd (pieces : List (List Char)) :
    steps (trimBodyEnd pieces) = steps pieces := by
  induction pieces with
  | nil => rfl
  | cons piece pieces ih =>
    have hcons : trimBodyEnd (piece :: pieces) =
        if trimBodyEnd pieces = [] ∧ !isStep piece then [] else piece :: trimBodyEnd pieces :=
      Text.dropRightWhile_cons ..
    rw [hcons, ← List.singleton_append (x := piece) (l := pieces), steps_append, ← ih]
    split
    · next h =>
      have hpiece : steps [piece] = [] := by simpa [steps] using h.2
      rw [hpiece, h.1]
      rfl
    · exact steps_append [piece] (trimBodyEnd pieces)

/-- What is left ends in a component. -/
theorem isStep_of_trimBodyEnd {pieces init : List (List Char)} {last : List Char}
    (h : trimBodyEnd pieces = init ++ [last]) : isStep last = true := by
  rw [trimBodyEnd, Text.dropRightWhile_eq_rdropWhile] at h
  have hlast := List.rdropWhile_last_not (fun piece => !isStep piece) pieces (by simp [h])
  simpa [h] using hlast

/-- Joining adds the components of a relative path, a leading `.` apart. -/
theorem components_join {p q : Path} {rest : List Component} (hp : p.components = .root :: rest)
    (hq : q.isAbsolute = false) :
    (p.join q).components = p.components ++ steps (Text.splitOn '/' q.text.toList) := by
  obtain ⟨cs, -, rfl⟩ := eq_ofPieces_of_isAbsolute (isAbsolute_of_components hp)
  have hslash : ∀ piece ∈ Text.splitOn '/' cs, '/' ∉ piece :=
    fun piece => Text.not_mem_of_mem_splitOn
  have hslash' : ∀ piece ∈ dropSlash (Text.splitOn '/' cs) ++ Text.splitOn '/' q.text.toList,
      '/' ∉ piece := by
    intro piece hpiece
    rcases List.mem_append.mp hpiece with hpiece | hpiece
    · exact hslash piece (mem_of_mem_dropSlash hpiece)
    · exact Text.not_mem_of_mem_splitOn hpiece
  rw [join_ofPieces hslash hq, components_ofPieces hslash', components_ofPieces hslash, ← steps,
    ← steps, steps_append, steps_dropSlash, List.cons_append]

theorem layout_path_root (body : List (List Char)) :
    Layout.path ⟨some .root, body⟩ = ofPieces body := by
  refine ext_toList ?_
  have htext : (Layout.path ⟨some .root, body⟩).text = "/" ++ String.ofList (Text.join '/' body) :=
    rfl
  rw [toList_ofPieces, htext, String.toList_append, String.toList_ofList (l := Text.join '/' body)]
  rfl

/-- The path without its last component. -/
theorem exists_parent? {p : Path} {dirs : List Component} {last : Component}
    (h : p.components = .root :: (dirs ++ [last])) :
    ∃ dir, p.parent? = some dir ∧ dir.components = .root :: dirs := by
  obtain ⟨cs, hcs, -⟩ := eq_ofPieces_of_isAbsolute (isAbsolute_of_components h)
  have hlayout := layout_absolute hcs
  have hsteps : steps (trimBodyEnd (Text.splitOn '/' cs)) = dirs ++ [last] := by
    rw [steps_trimBodyEnd]
    rw [components, hlayout] at h
    exact (List.cons.inj h).2
  rcases (trimBodyEnd (Text.splitOn '/' cs)).eq_nil_or_concat with hbody | ⟨init, piece, hbody⟩
  · rw [hbody] at hsteps
    simp [steps] at hsteps
  · rw [List.concat_eq_append] at hbody
    have hpiece : isStep piece = true := isStep_of_trimBodyEnd hbody
    have hslash : ∀ piece ∈ trimBodyEnd init, '/' ∉ piece := by
      intro piece' hmem
      have hmem' : piece' ∈ trimBodyEnd (Text.splitOn '/' cs) := by
        rw [hbody]
        exact List.mem_append_left _ (Text.mem_of_mem_dropRightWhile _ hmem)
      exact Text.not_mem_of_mem_splitOn (Text.mem_of_mem_dropRightWhile _ hmem')
    refine ⟨ofPieces (trimBodyEnd init), ?_, ?_⟩
    · rw [parent?, hlayout, hbody, List.reverse_concat]
      dsimp only
      rw [List.reverse_reverse, layout_path_root]
    · have hlast : steps [piece] = [stepOf piece] := by simp [steps, hpiece]
      rw [hbody, steps_append, hlast] at hsteps
      rw [components_ofPieces hslash, ← steps, steps_trimBodyEnd, (List.append_inj' hsteps rfl).1]

theorem foldl_follow_names (stack names : List String) :
    (names.map Component.name).foldl follow stack = names.reverse ++ stack := by
  induction names generalizing stack with
  | nil => rfl
  | cons name names ih => rw [List.map_cons, List.foldl_cons, ih, follow, List.reverse_cons,
      List.append_assoc, List.singleton_append]

section Join

variable {p : Path} {cs : List Char} {dir : List String}
  (hp : p.components = .root :: dir.map .name)
  (hcs : (ofText (String.ofList cs)).isAbsolute = false)
include hp hcs

theorem normalNames_join :
    (p.join (ofText (String.ofList cs))).normalNames = walk dir (Text.splitOn '/' cs) := by
  have hpieces : Text.splitOn '/' (ofText (String.ofList cs)).text.toList =
      (Text.splitOn '/' cs).map Text.encoding := Text.splitOn_encoding cs
  rw [normalNames, components_join hp hcs, hp, List.foldl_append, List.foldl_cons,
    show follow [] .root = [] from rfl, foldl_follow_names, List.append_nil, hpieces,
    reverse_foldl_follow, List.reverse_reverse]

/-- A relative path leads where it walks from the directory. -/
theorem normalize_join :
    (p.join (ofText (String.ofList cs))).normalize = ofNames (walk dir (Text.splitOn '/' cs)) := by
  rw [normalize_eq, components_join hp hcs, hp, List.cons_append, List.head?_cons, if_pos rfl,
    normalNames_join hp hcs]

theorem properName_of_mem_walk : ∀ name ∈ walk dir (Text.splitOn '/' cs), ProperName name := by
  rw [← normalNames_join hp hcs]
  exact fun name => properName_of_mem_normalNames

end Join

end Path

/-! ## Tails -/

/-- What can follow `../` or the name of the package in a reference: it does not start with a slash,
and each colon comes after a slash. -/
structure IsTail (tail : List Char) : Prop where
  head_ne : tail.head? ≠ some '/'
  slash_mem : ∀ before after, tail = before ++ ':' :: after → '/' ∈ before

/-- The reference that climbs `n` directories first. -/
def climb : Nat → List Char → List Char
  | 0, tail => tail
  | n + 1, tail => '.' :: '.' :: '/' :: climb n tail

/-- The reference to a place in the package. -/
def inPackage (package : String) (tail : List Char) : List Char :=
  "package:".toList ++ (package.toList ++ '/' :: tail)

/-- Characters without `c` come before the first `c`. -/
theorem takeWhile_append_of_notMem {c : Char} {before : List Char} (h : c ∉ before)
    (after : List Char) :
    (before ++ after).takeWhile (fun d => d ≠ c) = before ++ after.takeWhile fun d => d ≠ c := by
  refine List.takeWhile_append_of_pos fun d hd => ?_
  simpa using fun heq : d = c => h (heq ▸ hd)

theorem takeWhile_ne_append {c : Char} {before : List Char} (h : c ∉ before) (after : List Char) :
    (before ++ c :: after).takeWhile (fun d => d ≠ c) = before := by
  rw [takeWhile_append_of_notMem h, List.takeWhile_cons_of_neg (by simp), List.append_nil]

theorem isTail_iff {tail : List Char} :
    IsTail tail ↔ tail.head? ≠ some '/' ∧ ':' ∉ tail.takeWhile fun c => c ≠ '/' := by
  constructor
  · rintro ⟨hhead, hslash⟩
    refine ⟨hhead, fun hcolon => ?_⟩
    obtain ⟨before, after, hsplit⟩ := List.append_of_mem hcolon
    have htail : tail = before ++ ':' :: (after ++ tail.dropWhile fun c => c ≠ '/') := by
      rw [← List.cons_append, ← List.append_assoc, ← hsplit, List.takeWhile_append_dropWhile]
    have hmem : '/' ∈ tail.takeWhile fun c => c ≠ '/' := by
      rw [hsplit]
      exact List.mem_append_left _ (hslash before _ htail)
    simpa using List.mem_takeWhile_imp hmem
  · rintro ⟨hhead, hcolon⟩
    refine ⟨hhead, ?_⟩
    rintro before after rfl
    by_contra hslash
    rw [takeWhile_append_of_notMem hslash] at hcolon
    exact hcolon (by simp)

/-- Whether characters are a tail is decided at the first slash. -/
theorem isTail_append_iff {before : List Char} (h : '/' ∈ before) {after : List Char} :
    IsTail (before ++ after) ↔ IsTail before := by
  obtain ⟨first, rest, rfl, hfirst⟩ := List.eq_append_cons_of_mem h
  have hhead : ∀ after, (first ++ '/' :: after).head? = (first ++ ['/']).head? := by
    intro after
    cases first <;> rfl
  rw [isTail_iff, isTail_iff, List.append_assoc, List.cons_append, takeWhile_ne_append hfirst,
    takeWhile_ne_append hfirst, hhead, hhead rest]

namespace IsTail

variable {tail : List Char} (h : IsTail tail)
include h

theorem climb (n : Nat) : IsTail (climb n tail) := by
  cases n with
  | zero => exact h
  | succ n => exact isTail_iff.mpr (by simp [Recheck.climb])

theorem isAbsolute_eq : (Path.ofText (String.ofList tail)).isAbsolute = false := by
  rw [Path.isAbsolute, beq_eq_false_iff_ne]
  exact Text.head?_encoding_eq_slash_iff.not.mpr h.head_ne

theorem hasScheme_eq : hasScheme tail = false := by
  rw [hasScheme, Bool.and_eq_false_iff]
  by_cases hcolon : ':' ∈ tail
  · obtain ⟨before, after, htail, hbefore⟩ := List.eq_append_cons_of_mem hcolon
    have hfirst : tail.takeWhile (· ≠ ':') = before := by rw [htail, takeWhile_ne_append hbefore]
    rw [hfirst]
    exact .inr (by simpa using h.slash_mem before after htail)
  · exact .inl (by simpa using hcolon)

theorem stripStart?_eq : Text.stripStart? "package:".toList tail = none := by
  refine Source.stripStart?_eq_none ?_
  rintro ⟨rest, heq⟩
  have hslash := h.slash_mem "package".toList rest heq.symm
  revert hslash
  decide

end IsTail

/-! ## Both forms of a reference -/

theorem splitOn_piece_cons (piece : List Char) (h : '/' ∉ piece) (rest : List Char) :
    Text.splitOn '/' (piece ++ '/' :: rest) = piece :: Text.splitOn '/' rest := by
  rw [Text.splitOn_append_cons, Text.splitOn_of_not_mem h, List.singleton_append]

/-- Climbing leaves the directories below the one that is climbed to. -/
theorem walk_climb (base dirs : List String) (tail : List Char) :
    Path.walk (base ++ dirs) (Text.splitOn '/' (climb dirs.length tail)) =
      Path.walk base (Text.splitOn '/' tail) := by
  induction dirs using List.reverseRecOn with
  | nil => rw [List.append_nil, List.length_nil, climb]
  | append_singleton dirs dir ih =>
    have hsplit : Text.splitOn '/' (climb (dirs ++ [dir]).length tail) =
        ['.', '.'] :: Text.splitOn '/' (climb dirs.length tail) := by
      rw [List.length_append, List.length_singleton, climb]
      exact splitOn_piece_cons ['.', '.'] (by decide) _
    rw [hsplit, Path.walk_up, ← List.append_assoc, List.dropLast_concat, ih]

section Target

variable {project : Project} {file : Path} {base dirs : List String} {name : String}
  {tail : List Char}

theorem target?_inPackage (hsource : project.sourceDir.components = .root :: base.map .name)
    (htail : IsTail tail) :
    target? project file (inPackage project.packageName tail) =
      some (Path.ofNames (Path.walk base (Text.splitOn '/' tail))) := by
  have hstart : Text.stripStart? "package:".toList (inPackage project.packageName tail) =
      some (project.packageName.toList ++ '/' :: tail) :=
    Source.stripStart?_eq_some_iff.mpr rfl
  have hinner : Text.stripStart? (project.packageName.toList ++ ['/'])
      (project.packageName.toList ++ '/' :: tail) = some tail :=
    Source.stripStart?_eq_some_iff.mpr (by simp)
  have hnormal := Path.normalize_join hsource htail.isAbsolute_eq
  simp only [target?, hstart, hinner, Option.map_some, hnormal]

theorem target?_climb (hfile : file.components = .root :: (base ++ dirs ++ [name]).map .name)
    (htail : IsTail tail) :
    target? project file (climb dirs.length tail) =
      some (Path.ofNames (Path.walk base (Text.splitOn '/' tail))) := by
  have hclimb := htail.climb dirs.length
  rw [List.map_append] at hfile
  obtain ⟨dir, hparent, hdir⟩ := Path.exists_parent? hfile
  have hnormal := Path.normalize_join hdir hclimb.isAbsolute_eq
  rw [walk_climb] at hnormal
  simp only [target?, hclimb.stripStart?_eq, hclimb.hasScheme_eq, hparent, Bool.false_eq_true,
    if_false, Option.map_some, hnormal]

end Target

/-! ## Steps that lead nowhere -/

/-- A component can start after the characters. -/
def Opens (before : List Char) : Prop := before = [] ∨ before.getLast? = some '/'

/-- The second tail has one more `./`, slash or `d/../` between its components. -/
inductive Respelled : List Char → List Char → Prop
  | here (before after : List Char) : Opens before →
      Respelled (before ++ after) (before ++ '.' :: '/' :: after)
  | slash (before after : List Char) :
      Respelled (before ++ '/' :: after) (before ++ '/' :: '/' :: after)
  | detour (before after : List Char) (d : String) : Opens before → ProperName d →
      ':' ∉ d.toList →
      Respelled (before ++ after) (before ++ (d.toList ++ '/' :: '.' :: '.' :: '/' :: after))

/-- What comes before a component adds its pieces. -/
theorem Opens.exists_splitOn {before : List Char} (h : Opens before) :
    ∃ pieces, ∀ after, Text.splitOn '/' (before ++ after) = pieces ++ Text.splitOn '/' after := by
  rcases h with rfl | hlast
  · exact ⟨[], fun after => rfl⟩
  · obtain ⟨init, rfl⟩ := List.getLast?_eq_some_iff.mp hlast
    refine ⟨Text.splitOn '/' init, fun after => ?_⟩
    rw [List.append_assoc, List.singleton_append, Text.splitOn_append_cons]

namespace Respelled

variable {tail tail' : List Char}

theorem walk_eq (h : Respelled tail tail') (dir : List String) :
    Path.walk dir (Text.splitOn '/' tail') = Path.walk dir (Text.splitOn '/' tail) := by
  cases h with
  | here before after hopens =>
    obtain ⟨pieces, hsplit⟩ := hopens.exists_splitOn
    have hhere : Text.splitOn '/' ('.' :: '/' :: after) = ['.'] :: Text.splitOn '/' after :=
      splitOn_piece_cons ['.'] (by decide) after
    rw [hsplit, hsplit, hhere, Path.walk_append, Path.walk_append, Path.walk_here]
  | slash before after =>
    have hslash : Text.splitOn '/' ('/' :: after) = [] :: Text.splitOn '/' after :=
      splitOn_piece_cons [] (by decide) after
    rw [Text.splitOn_append_cons, Text.splitOn_append_cons, hslash, Path.walk_append,
      Path.walk_append, Path.walk_empty]
  | detour before after d hopens hd hcolon =>
    obtain ⟨pieces, hsplit⟩ := hopens.exists_splitOn
    have hdetour : Text.splitOn '/' (d.toList ++ '/' :: '.' :: '.' :: '/' :: after) =
        d.toList :: ['.', '.'] :: Text.splitOn '/' after := by
      rw [splitOn_piece_cons d.toList hd.no_slash]
      exact congrArg _ (splitOn_piece_cons ['.', '.'] (by decide) after)
    rw [hsplit, hsplit, hdetour, Path.walk_append, Path.walk_append, Path.walk_name hd,
      Path.walk_up, List.dropLast_concat]

theorem isTail (h : Respelled tail tail') (htail : IsTail tail) : IsTail tail' := by
  cases h with
  | here before after hopens =>
    rcases hopens with rfl | hlast
    · exact isTail_iff.mpr (by simp)
    · have hslash := List.mem_of_getLast? hlast
      rwa [isTail_append_iff hslash] at htail ⊢
  | slash before after =>
    have hslash : '/' ∈ before ++ ['/'] := by simp
    rw [List.append_cons, isTail_append_iff hslash] at htail ⊢
    exact htail
  | detour before after d hopens hd hcolon =>
    rcases hopens with rfl | hlast
    · refine isTail_iff.mpr ⟨fun hhead => ?_, ?_⟩
      · cases hname : d.toList with
        | nil => exact hd.ne_empty (String.toList_inj.mp hname)
        | cons c cs =>
          rw [hname] at hhead
          exact hd.no_slash (hname ▸ Option.some.inj hhead ▸ List.mem_cons_self)
      · rwa [List.nil_append, takeWhile_ne_append hd.no_slash]
    · have hslash := List.mem_of_getLast? hlast
      rwa [isTail_append_iff hslash] at htail ⊢

end Respelled

/-- Tails that differ by such steps lead to one place. -/
theorem respelled_steps {tail tail' : List Char} (h : Relation.ReflTransGen Respelled tail tail')
    (htail : IsTail tail) (dir : List String) :
    IsTail tail' ∧
      Path.walk dir (Text.splitOn '/' tail') = Path.walk dir (Text.splitOn '/' tail) := by
  induction h with
  | refl => exact ⟨htail, rfl⟩
  | tail _ hstep ih => exact ⟨hstep.isTail ih.1, (hstep.walk_eq dir).trans ih.2⟩

/-- A reference by climbing to the source directory and one by the place in the package lead to one
path, which has no `.` or `..` left in it and does not depend on the steps in the tail that lead
nowhere. -/
theorem relative_eq_package {project : Project} {file : Path} {base dirs : List String}
    {name : String} {tail : List Char}
    (hsource : project.sourceDir.components = .root :: base.map .name)
    (hfile : file.components = .root :: (base ++ dirs ++ [name]).map .name) (htail : IsTail tail) :
    ∃ target : Path, target.Canonical ∧
      target.components =
        .root :: (Path.walk base (Text.splitOn '/' tail)).map .name ∧
      ∀ tail', Relation.ReflTransGen Respelled tail tail' →
        target? project file (climb dirs.length tail') = some target ∧
          target? project file (inPackage project.packageName tail') = some target := by
  have hproper := Path.properName_of_mem_walk hsource htail.isAbsolute_eq
  refine ⟨Path.ofNames (Path.walk base (Text.splitOn '/' tail)), ⟨_, hproper, rfl⟩,
    Path.components_ofNames hproper, fun tail' hsteps => ?_⟩
  obtain ⟨htail', hwalk⟩ := respelled_steps hsteps htail base
  rw [← hwalk]
  exact ⟨target?_climb hfile htail', target?_inPackage hsource htail'⟩

/-- A tail that leaves the source directory, referred to from two directories below it. -/
theorem relative_eq_package_sample :
    let project : Project :=
      { root := ⟨"/p"⟩, manifest := ⟨"/p/pubspec.yaml"⟩, manifestKind := .pubspec
        sourceDir := ⟨"/p/lib"⟩, packageName := "demo" }
    let file : Path := ⟨"/p/lib/a/b/x.dart"⟩
    let tail := "../c/y.dart".toList
    project.sourceDir.components = .root :: ["p", "lib"].map .name ∧
      file.components = .root :: (["p", "lib"] ++ ["a", "b"] ++ ["x.dart"]).map .name ∧
      IsTail tail ∧
      ∃ target : Path, target.components = .root :: ["p", "c", "y.dart"].map .name ∧
        target? project file "../../../c/y.dart".toList = some target ∧
        target? project file "package:demo/../c/./y.dart".toList = some target := by
  intro project file tail
  have hsource : project.sourceDir.components = .root :: ["p", "lib"].map .name := by
    decide +kernel
  have hfile : file.components =
      .root :: (["p", "lib"] ++ ["a", "b"] ++ ["x.dart"]).map .name := by
    decide +kernel
  have htail : IsTail tail := isTail_iff.mpr (by decide +kernel)
  have hstep : Respelled tail "../c/./y.dart".toList :=
    .here "../c/".toList "y.dart".toList (.inr (by decide +kernel))
  have hpackage : "package:demo/../c/./y.dart".toList =
      inPackage project.packageName "../c/./y.dart".toList := by
    decide +kernel
  obtain ⟨target, -, hcomponents, hforms⟩ := relative_eq_package hsource hfile htail
  refine ⟨hsource, hfile, htail, target, hcomponents, (hforms tail .refl).1, ?_⟩
  rw [hpackage]
  exact (hforms _ (.single hstep)).2

end Recheck
