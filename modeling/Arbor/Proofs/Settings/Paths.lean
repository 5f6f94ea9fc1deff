import Arbor.Proofs.Text.Pieces
import Arbor.Settings.Files
import Mathlib.Data.List.Basic

set_option autoImplicit false

/-! # Paths of places

A path that has been made absolute is the path of a place, and this place has proper names only
(`Path.isName_of_mem_placeOf`): those that are reached from the working directory, or from the root if the path
starts with a slash (`Path.placeOf_joined`). On paths of places, to go on with a name adds the name to the place
(`Path.joined_ofPlace`), and the parent has the place without its last name (`Path.parent_ofPlace`). The root is its
own parent (`Path.parent_root`). -/

namespace Arbor

/-- A name of something in a directory. -/
structure Path.IsName (name : Text) : Prop where
  ne_empty : name.points ≠ []
  ne_here : name ≠ "."
  ne_above : name ≠ ".."
  noSlash : CodePoint.ofChar '/' ∉ name.points

/-- The path of the root: one slash or two. -/
def Path.IsRoot (root : Text) : Prop := root = "/" ∨ root = "//"

/-! ## Following names -/

namespace FileSystem

open Arbor.Path

theorem step_of_isName (place : Place) {name : Text} (h : IsName name) : step place name = place ++ [name] := by
  have hempty : name ≠ "" := by
    rintro rfl
    exact h.ne_empty rfl
  rw [step, if_neg (not_or.2 ⟨hempty, h.ne_here⟩), if_neg h.ne_above]

theorem isName_of_mem_step {place : Place} {piece : Text} (hplace : ∀ name ∈ place, IsName name)
    (hpiece : CodePoint.ofChar '/' ∉ piece.points) : ∀ name ∈ step place piece, IsName name := by
  rw [step]
  split
  · exact hplace
  · next hskipped =>
    split
    · exact fun name hname => hplace name (List.dropLast_subset place hname)
    · next habove =>
      intro name hname
      obtain hname | hname := List.mem_append.1 hname
      · exact hplace name hname
      · obtain rfl := List.mem_singleton.1 hname
        exact ⟨fun hempty => hskipped (.inl (congrArg Text.mk hempty)), fun hhere => hskipped (.inr hhere), habove,
          hpiece⟩

/-- Names and dots between slashes lead to a place with proper names. -/
theorem isName_of_mem_foldl_step {pieces : List Text} {place : Place} (hplace : ∀ name ∈ place, IsName name)
    (hpieces : ∀ piece ∈ pieces, CodePoint.ofChar '/' ∉ piece.points) :
    ∀ name ∈ pieces.foldl step place, IsName name := by
  induction pieces generalizing place with
  | nil => exact hplace
  | cons piece rest ih =>
    obtain ⟨hpiece, hrest⟩ := List.forall_mem_cons.1 hpieces
    exact ih (isName_of_mem_step hplace hpiece) hrest

theorem foldl_step_of_isName {names : List Text} (h : ∀ name ∈ names, IsName name) (place : Place) :
    names.foldl step place = place ++ names := by
  induction names generalizing place with
  | nil => exact (List.append_nil place).symm
  | cons name rest ih =>
    obtain ⟨hname, hrest⟩ := List.forall_mem_cons.1 h
    rw [List.foldl_cons, step_of_isName place hname, ih hrest, List.append_assoc, List.singleton_append]

end FileSystem

namespace Path

variable {root : Text} {place : Place}

/-! ## Paths of places -/

@[simp] theorem ofPlace_nil (root : Text) : ofPlace root [] = root :=
  congrArg Text.mk (List.append_nil root.points)

theorem points_ofPlace (root : Text) (place : Place) :
    (ofPlace root place).points = root.points ++ (Text.join "/" place).points := rfl

theorem points_ofPlace_singleton (root name : Text) :
    (ofPlace root [name]).points = root.points ++ name.points := by
  rw [points_ofPlace, Text.points_join_singleton]

/-- Below the root, a slash stands between a directory and a name in it. -/
theorem points_ofPlace_concat (hplace : place ≠ []) (name : Text) :
    (ofPlace root (place ++ [name])).points = (ofPlace root place).points ++ CodePoint.ofChar '/' :: name.points := by
  rw [points_ofPlace, Text.join_append "/" hplace (List.cons_ne_nil name []), Text.points_join_singleton,
    points_ofPlace, List.append_assoc]
  rfl

/-- Below the root, a path ends in the last code point of a name. -/
theorem points_ofPlace_end (root : Text) (hplace : place ≠ []) (hnames : ∀ name ∈ place, IsName name) :
    ∃ front c, (ofPlace root place).points = front ++ [c] ∧ isSlash c = false := by
  obtain ⟨place, name, rfl⟩ := (List.eq_nil_or_concat' place).resolve_left hplace
  have hname : IsName name := hnames name (by simp)
  obtain ⟨front, c, hend⟩ := (List.eq_nil_or_concat' name.points).resolve_left hname.ne_empty
  have hc : isSlash c = false := by
    rw [isSlash, decide_eq_false_iff_not]
    rintro rfl
    exact hname.noSlash (by simp [hend])
  by_cases hparent : place = []
  · subst hparent
    refine ⟨root.points ++ front, c, ?_, hc⟩
    rw [List.nil_append, points_ofPlace_singleton, hend, List.append_assoc]
  · refine ⟨(ofPlace root place).points ++ CodePoint.ofChar '/' :: front, c, ?_, hc⟩
    rw [points_ofPlace_concat hparent, hend, List.append_assoc, List.cons_append]

/-- A directory has another path than what is in it. -/
theorem ofPlace_ne_concat {name : Text} (hname : IsName name) :
    ofPlace root place ≠ ofPlace root (place ++ [name]) := by
  intro heq
  have hpoints := congrArg Text.points heq
  by_cases hplace : place = []
  · subst hplace
    rw [ofPlace_nil, List.nil_append, points_ofPlace_singleton, List.self_eq_append_right] at hpoints
    exact hname.ne_empty hpoints
  · rw [points_ofPlace_concat hplace, List.self_eq_append_right] at hpoints
    exact List.cons_ne_nil _ _ hpoints

/-! ## Going on with a name -/

theorem endsWith_slash_concat {t : Text} {front : List CodePoint} {c : CodePoint} (h : t.points = front ++ [c]) :
    t.endsWith "/" = isSlash c := by
  rw [Text.endsWith, h, Bool.eq_iff_iff, List.isSuffixOf_iff_suffix, isSlash, decide_eq_true_eq]
  show [CodePoint.ofChar '/'] <:+ front ++ [c] ↔ _
  rw [List.singleton_suffix_iff_getLast?_eq_some]
  simp

theorem points_joined_root (hroot : IsRoot root) {path : Text} (hpath : path.startsWith "/" = false) :
    (joined root path).points = root.points ++ path.points := by
  have hend : (root.isEmpty || root.endsWith "/") = true := by
    obtain rfl | rfl := hroot <;> rfl
  rw [joined, hpath, if_neg Bool.false_ne_true, if_pos hend, Text.points_append]

theorem points_joined_below (root : Text) (hplace : place ≠ []) (hnames : ∀ name ∈ place, IsName name)
    {path : Text} (hpath : path.startsWith "/" = false) :
    (joined (ofPlace root place) path).points =
      (ofPlace root place).points ++ CodePoint.ofChar '/' :: path.points := by
  obtain ⟨front, c, hend, hc⟩ := points_ofPlace_end root hplace hnames
  have hempty : (ofPlace root place).isEmpty = false := by simp [Text.isEmpty, hend]
  rw [joined, hpath, if_neg Bool.false_ne_true, hempty, endsWith_slash_concat hend, hc, Bool.false_or,
    if_neg Bool.false_ne_true, Text.points_append, Text.points_append, List.append_assoc]
  rfl

/-- To go on from a directory adds the name to its place. -/
theorem joined_ofPlace (hroot : IsRoot root) (hnames : ∀ name ∈ place, IsName name) {name : Text}
    (hname : name.startsWith "/" = false) : joined (ofPlace root place) name = ofPlace root (place ++ [name]) := by
  suffices hpoints : (joined (ofPlace root place) name).points = (ofPlace root (place ++ [name])).points from
    congrArg Text.mk hpoints
  by_cases hplace : place = []
  · subst hplace
    rw [ofPlace_nil, points_joined_root hroot hname, List.nil_append, points_ofPlace_singleton]
  · rw [points_joined_below root hplace hnames hname, points_ofPlace_concat hplace]

/-! ## The parent -/

theorem parent_root (hroot : IsRoot root) : parent root = root := by
  obtain rfl | rfl := hroot <;> rfl

/-- The parent is what stands up to the last slash. -/
theorem parent_of_points {t : Text} {front name : List CodePoint}
    (h : t.points = front ++ CodePoint.ofChar '/' :: name) (hname : CodePoint.ofChar '/' ∉ name) :
    (parent t).points = if (front.reverse.dropWhile isSlash).isEmpty then front ++ [CodePoint.ofChar '/']
      else (front.reverse.dropWhile isSlash).reverse := by
  have hdrop : t.points.reverse.dropWhile (!isSlash ·) = CodePoint.ofChar '/' :: front.reverse := by
    rw [h, List.reverse_append, List.reverse_cons, List.append_assoc, List.dropWhile_append_of_pos]
    · rfl
    · intro c hc
      have hne : c ≠ CodePoint.ofChar '/' := by
        rintro rfl
        exact hname (List.mem_reverse.1 hc)
      simp [isSlash, hne]
  have hbare : (CodePoint.ofChar '/' :: front.reverse).dropWhile isSlash = front.reverse.dropWhile isSlash :=
    List.dropWhile_cons_of_pos rfl
  simp only [parent, hdrop, hbare]
  split
  · rw [List.reverse_cons, List.reverse_reverse]
  · rfl

/-- The parent of a path has the place without its last name. -/
theorem parent_ofPlace (hroot : IsRoot root) {name : Text} (hnames : ∀ n ∈ place ++ [name], IsName n) :
    parent (ofPlace root (place ++ [name])) = ofPlace root place := by
  obtain ⟨hplace, hname⟩ := List.forall_mem_append.1 hnames
  have hslash : CodePoint.ofChar '/' ∉ name.points := (hname name (List.mem_singleton_self name)).noSlash
  suffices hpoints : (parent (ofPlace root (place ++ [name]))).points = (ofPlace root place).points from
    congrArg Text.mk hpoints
  by_cases hempty : place = []
  · subst hempty
    rw [List.nil_append, ofPlace_nil]
    have hroot' : ∃ front, root.points = front ++ [CodePoint.ofChar '/'] ∧
        (front.reverse.dropWhile isSlash).isEmpty = true := by
      obtain rfl | rfl := hroot
      · exact ⟨[], rfl, rfl⟩
      · exact ⟨[CodePoint.ofChar '/'], rfl, rfl⟩
    obtain ⟨front, hfront, hbare⟩ := hroot'
    have hpoints : (ofPlace root [name]).points = front ++ CodePoint.ofChar '/' :: name.points := by
      rw [points_ofPlace_singleton, hfront, List.append_assoc, List.singleton_append]
    rw [parent_of_points hpoints hslash, if_pos hbare, hfront]
  · -- the directory ends in a name, and so keeps all of its code points
    obtain ⟨front, c, hend, hc⟩ := points_ofPlace_end root hempty hplace
    have hbare : (ofPlace root place).points.reverse.dropWhile isSlash = (ofPlace root place).points.reverse := by
      rw [hend, List.reverse_append, List.reverse_singleton, List.singleton_append]
      exact List.dropWhile_cons_of_neg (by simp [hc])
    rw [parent_of_points (points_ofPlace_concat hempty name) hslash, hbare, List.reverse_reverse, hend, if_neg]
    simp

/-! ## Absolute paths -/

/-- The place of a path that starts with a slash. -/
def placeOf (path : Text) : Place := (path.split '/').foldl FileSystem.step []

theorem absolute_eq (workingDirectory path : Text) :
    absolute workingDirectory path =
      ofPlace (Path.root (joined workingDirectory path)) (placeOf (joined workingDirectory path)) := rfl

theorem isRoot_root (path : Text) : IsRoot (Path.root path) := by
  rw [Path.root]
  split
  · exact .inr rfl
  · exact .inl rfl

theorem isName_of_mem_placeOf (path : Text) : ∀ name ∈ placeOf path, IsName name :=
  FileSystem.isName_of_mem_foldl_step (List.forall_mem_nil _) fun _ hpiece => Text.not_mem_of_mem_split hpiece

theorem placeOf_ofPlace (hnames : ∀ name ∈ place, IsName name) : placeOf (ofPlace "/" place) = place := by
  have hpoints : (ofPlace "/" place).points =
      (⟨[]⟩ : Text).points ++ CodePoint.ofChar '/' :: (Text.join "/" place).points := rfl
  have hnames' : ((Text.join "/" place).split '/').foldl FileSystem.step [] = place := by
    by_cases hplace : place = []
    · subst hplace
      rfl
    · have hsplit : (Text.join "/" place).split '/' = place :=
        Text.split_join hplace fun name hname => (hnames name hname).noSlash
      rw [hsplit, FileSystem.foldl_step_of_isName hnames, List.nil_append]
  rw [placeOf, Text.split_append hpoints, List.foldl_append]
  exact hnames'

/-- The place of a path that is seen from a directory: the names and dots are followed from there, or from the root
    if the path starts with a slash. -/
theorem placeOf_joined (hnames : ∀ name ∈ place, IsName name) (path : Text) :
    placeOf (joined (ofPlace "/" place) path) =
      (path.split '/').foldl FileSystem.step (if path.startsWith "/" then [] else place) := by
  cases hpath : path.startsWith "/" with
  | true => rw [joined, hpath, if_pos rfl, if_pos rfl, placeOf]
  | false =>
    rw [if_neg Bool.false_ne_true]
    by_cases hplace : place = []
    · subst hplace
      have hpoints : (joined (ofPlace "/" []) path).points =
          (⟨[]⟩ : Text).points ++ CodePoint.ofChar '/' :: path.points := by
        rw [ofPlace_nil, points_joined_root (.inl rfl) hpath]
        rfl
      rw [placeOf, Text.split_append hpoints, List.foldl_append]
      rfl
    · rw [placeOf, Text.split_append (points_joined_below "/" hplace hnames hpath), List.foldl_append, ← placeOf,
        placeOf_ofPlace hnames]

example : absolute "/p/q" "./r//../../s/" = "/p/s" := by decide

example : absolute "/p/q" "//r/.././s" = "//s" := by decide

end Path

end Arbor
