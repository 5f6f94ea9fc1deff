import Arbor.Proofs.Settings.Paths
import Mathlib.Data.List.Induction

set_option autoImplicit false

/-! # The nearest settings file

The search for a settings file goes from a directory to its parent until there is none. It always comes to an
end, and what it finds is the first of all candidates that is there (`Settings.findPath?_nearest`): those in nearer
directories come first, and within a directory the names in order. Nothing is found exactly if no candidate is
there. -/

namespace Arbor.Settings

open Arbor.Path

/-! ## Candidates -/

/-- The path of a settings file, by the distance of its directory from the place where the search starts and by the
    rank of its name. -/
def candidate (root : Text) (place : Place) (distance : Nat) (rank : Fin fileNames.length) : Text :=
  ofPlace root (place.take (place.length - distance) ++ [fileNames.get rank])

variable {there : Text → Bool} {root : Text} {place : Place}

theorem candidate_zero (rank : Fin fileNames.length) :
    candidate root place 0 rank = ofPlace root (place ++ [fileNames.get rank]) := by
  rw [candidate, Nat.sub_zero, List.take_length]

/-- The candidates around a directory are those of its parent. -/
theorem candidate_succ (name : Text) (distance : Nat) (rank : Fin fileNames.length) :
    candidate root (place ++ [name]) (distance + 1) rank = candidate root place distance rank := by
  have hlength : (place ++ [name]).length - (distance + 1) = place.length - distance := by
    rw [List.length_append, List.length_singleton]
    omega
  rw [candidate, hlength, List.take_append_of_le_length (Nat.sub_le _ _), candidate]

theorem joined_fileName (hroot : IsRoot root) (hnames : ∀ name ∈ place, IsName name)
    (rank : Fin fileNames.length) :
    joined (ofPlace root place) (fileNames.get rank) = candidate root place 0 rank := by
  have hname : ∀ name ∈ fileNames, name.startsWith "/" = false := by decide
  rw [joined_ofPlace hroot hnames (hname _ (List.get_mem ..)), candidate_zero]

/-! ## What the search finds -/

/-- The first candidate that is there: there is none in a nearer directory, nor in the same one under a name that comes
    before. -/
def IsNearest (there : Text → Bool) (root : Text) (place : Place) (found : Text) : Prop :=
  ∃ distance ≤ place.length, ∃ rank, found = candidate root place distance rank ∧ there found = true ∧
    ∀ nearer ≤ place.length, ∀ rank', (nearer < distance ∨ nearer = distance ∧ rank' < rank) →
      there (candidate root place nearer rank') = false

/-- No candidate is there. -/
def IsNowhere (there : Text → Bool) (root : Text) (place : Place) : Prop :=
  ∀ distance ≤ place.length, ∀ rank, there (candidate root place distance rank) = false

theorem IsNearest.unique {found found' : Text} (h : IsNearest there root place found)
    (h' : IsNearest there root place found') : found = found' := by
  obtain ⟨distance, hle, rank, rfl, hthere, hfirst⟩ := h
  obtain ⟨distance', hle', rank', rfl, hthere', hfirst'⟩ := h'
  have hnot : ¬ (distance < distance' ∨ distance = distance' ∧ rank < rank') := by
    intro hbefore
    rw [hfirst' distance hle rank hbefore] at hthere
    cases hthere
  have hnot' : ¬ (distance' < distance ∨ distance' = distance ∧ rank' < rank) := by
    intro hbefore
    rw [hfirst distance' hle' rank' hbefore] at hthere'
    cases hthere'
  obtain rfl : distance = distance' := by omega
  have hrank : ¬ rank < rank' := fun hlt => hnot (.inr ⟨rfl, hlt⟩)
  have hrank' : ¬ rank' < rank := fun hlt => hnot' (.inr ⟨rfl, hlt⟩)
  rw [Fin.le_antisymm (Fin.not_lt.1 hrank') (Fin.not_lt.1 hrank)]

theorem IsNearest.not_isNowhere {found : Text} (h : IsNearest there root place found) :
    ¬ IsNowhere there root place := by
  obtain ⟨distance, hle, rank, rfl, hthere, -⟩ := h
  intro hnowhere
  rw [hnowhere distance hle rank] at hthere
  cases hthere

/-- Of the candidates in one directory, the first one that is there is found. -/
theorem findIn?_ofPlace (there : Text → Bool) (hroot : IsRoot root) (hnames : ∀ name ∈ place, IsName name) :
    (∃ rank, findIn? there (ofPlace root place) = some (candidate root place 0 rank) ∧
      there (candidate root place 0 rank) = true ∧
      ∀ rank' < rank, there (candidate root place 0 rank') = false) ∨
    (findIn? there (ofPlace root place) = none ∧ ∀ rank, there (candidate root place 0 rank) = false) := by
  cases hfind : findIn? there (ofPlace root place) with
  | none =>
    refine .inr ⟨rfl, fun rank => ?_⟩
    rw [findIn?, List.find?_eq_none] at hfind
    rw [← joined_fileName hroot hnames rank, ← Bool.not_eq_true]
    exact hfind _ (List.mem_map_of_mem (List.get_mem fileNames rank))
  | some found =>
    obtain ⟨hthere, i, hi, hfound, hfirst⟩ := List.find?_eq_some_iff_getElem.1 hfind
    rw [List.length_map] at hi
    have hget : found = candidate root place 0 ⟨i, hi⟩ := by
      rw [← joined_fileName hroot hnames, ← hfound, List.getElem_map]
      rfl
    subst hget
    refine .inl ⟨⟨i, hi⟩, rfl, hthere, fun rank' hlt => ?_⟩
    have hnot := hfirst rank'.val hlt
    rw [List.getElem_map, Bool.not_eq_true'] at hnot
    rw [← joined_fileName hroot hnames rank']
    exact hnot

/-- A candidate in the directory itself is the nearest one. -/
theorem isNearest_here {rank : Fin fileNames.length} (hthere : there (candidate root place 0 rank) = true)
    (hfirst : ∀ rank' < rank, there (candidate root place 0 rank') = false) :
    IsNearest there root place (candidate root place 0 rank) := by
  refine ⟨0, Nat.zero_le _, rank, rfl, hthere, fun nearer _ rank' hbefore => ?_⟩
  obtain hlt | ⟨rfl, hlt⟩ := hbefore
  · exact absurd hlt (Nat.not_lt_zero nearer)
  · exact hfirst rank' hlt

/-- If nothing is in a directory, the nearest candidate for its parent is the nearest one. -/
theorem IsNearest.concat {found name : Text}
    (hhere : ∀ rank, there (candidate root (place ++ [name]) 0 rank) = false)
    (h : IsNearest there root place found) : IsNearest there root (place ++ [name]) found := by
  obtain ⟨distance, hle, rank, rfl, hthere, hfirst⟩ := h
  refine ⟨distance + 1, by simpa using hle, rank, (candidate_succ name distance rank).symm, hthere, ?_⟩
  intro nearer hnearer rank' hbefore
  cases nearer with
  | zero => exact hhere rank'
  | succ nearer =>
    rw [candidate_succ]
    exact hfirst nearer (by simpa using hnearer) rank' (by omega)

theorem IsNowhere.concat {name : Text} (hhere : ∀ rank, there (candidate root (place ++ [name]) 0 rank) = false)
    (h : IsNowhere there root place) : IsNowhere there root (place ++ [name]) := by
  intro distance hdistance rank
  cases distance with
  | zero => exact hhere rank
  | succ distance =>
    rw [candidate_succ]
    exact h distance (by simpa using hdistance) rank

/-- The search from a place finds the first candidate that is there, or nothing if none is. -/
theorem findFrom?_ofPlace (there : Text → Bool) (hroot : IsRoot root) (hnames : ∀ name ∈ place, IsName name) :
    (∃ found, findFrom? there (ofPlace root place) = some found ∧ IsNearest there root place found) ∨
    (findFrom? there (ofPlace root place) = none ∧ IsNowhere there root place) := by
  -- from the root to the directories in it, as each search goes on with that of the parent
  induction place using List.reverseRecOn with
  | nil =>
    rw [findFrom?, ofPlace_nil, parent_root hroot, if_pos rfl]
    obtain ⟨rank, hfind, hthere, hfirst⟩ | ⟨hfind, hhere⟩ := findIn?_ofPlace there hroot hnames
    · rw [ofPlace_nil] at hfind
      exact .inl ⟨_, by rw [hfind], isNearest_here hthere hfirst⟩
    · rw [ofPlace_nil] at hfind
      refine .inr ⟨by rw [hfind], fun distance hdistance rank => ?_⟩
      obtain rfl : distance = 0 := Nat.le_zero.1 hdistance
      exact hhere rank
  | append_singleton place name ih =>
    obtain ⟨hplace, hname⟩ := List.forall_mem_append.1 hnames
    rw [findFrom?, parent_ofPlace hroot hnames]
    obtain ⟨rank, hfind, hthere, hfirst⟩ | ⟨hfind, hhere⟩ := findIn?_ofPlace there hroot hnames
    · exact .inl ⟨_, by rw [hfind], isNearest_here hthere hfirst⟩
    · rw [hfind, if_neg (ofPlace_ne_concat (hname name (List.mem_singleton_self name)))]
      obtain ⟨found, hfound, hnearest⟩ | ⟨hfound, hnowhere⟩ := ih hplace
      · exact .inl ⟨found, hfound, hnearest.concat hhere⟩
      · exact .inr ⟨hfound, hnowhere.concat hhere⟩

/-- The search for a settings file, for a start path of any form and whatever is there:

    - The absolute path of the start is that of a place below the root, which is one slash or two. The place has
      proper names, none of them empty, `.` or `..`. They are reached from the working directory, or from the root
      if the path starts with a slash.
    - What is found is the first candidate that is there, by the distance of its directory from the start and then by
      the rank of its name.
    - Nothing is found exactly if no candidate is there, from the start up to the root. -/
theorem findPath?_nearest (there : Text → Bool) (workingDirectory : Place) (path : Text) :
    ∃ root place, IsRoot root ∧ (∀ name ∈ place, IsName name) ∧
      absolute (ofPlace "/" workingDirectory) path = ofPlace root place ∧
      ((∀ name ∈ workingDirectory, IsName name) → place =
        (path.split '/').foldl FileSystem.step (if path.startsWith "/" then [] else workingDirectory)) ∧
      (∀ found, findPath? there (ofPlace "/" workingDirectory) path = some found ↔
        IsNearest there root place found) ∧
      (findPath? there (ofPlace "/" workingDirectory) path = none ↔ IsNowhere there root place) := by
  have hroot := isRoot_root (joined (ofPlace "/" workingDirectory) path)
  have hnames := isName_of_mem_placeOf (joined (ofPlace "/" workingDirectory) path)
  refine ⟨_, _, hroot, hnames, absolute_eq _ path, fun hworking => placeOf_joined hworking path, ?_⟩
  rw [findPath?, absolute_eq]
  obtain ⟨found, hfound, hnearest⟩ | ⟨hfound, hnowhere⟩ := findFrom?_ofPlace there hroot hnames
  · rw [hfound]
    refine ⟨fun found' => ?_, ?_⟩
    · rw [Option.some.injEq]
      exact ⟨fun heq => heq ▸ hnearest, hnearest.unique⟩
    · exact iff_of_false (Option.some_ne_none found) hnearest.not_isNowhere
  · rw [hfound]
    refine ⟨fun found' => ?_, iff_of_true rfl hnowhere⟩
    exact iff_of_false (Option.some_ne_none found').symm fun hnearest => hnearest.not_isNowhere hnowhere

namespace Sample

/-- There are settings files in a directory and in the root. -/
def isStored (path : Text) : Bool :=
  path = "/p/jswalker.yml" || path = "/p/.jswalker.yaml" || path = "/.jswalker.yml"

/-- From a directory in `/p`, the file in `/p` with the name that comes first is found, and not that in the root. -/
theorem findPath?_nearest_above :
    (∀ name ∈ ([Text.ofString "p", Text.ofString "q"] : Place), IsName name) ∧
      findPath? isStored (ofPlace "/" ["p", "q"]) ".//r/.." = some "/p/.jswalker.yaml" := by
  have hworking : ∀ name ∈ ([Text.ofString "p", Text.ofString "q"] : Place), IsName name := by
    simp only [List.forall_mem_cons, List.not_mem_nil, false_implies, implies_true, and_true]
    exact ⟨⟨by decide, by decide, by decide, by decide⟩, ⟨by decide, by decide, by decide, by decide⟩⟩
  refine ⟨hworking, ?_⟩
  obtain ⟨root, place, hroot, -, habsolute, hplace, hfound, -⟩ :=
    findPath?_nearest isStored ["p", "q"] ".//r/.."
  obtain rfl : place = ["p", "q"] := hplace hworking
  obtain rfl : root = "/" := by
    obtain rfl | rfl := hroot
    · rfl
    · exact absurd habsolute (by decide)
  exact (hfound _).2 ⟨1, by decide, ⟨1, by decide⟩, by decide, by decide, by decide⟩

end Sample

end Arbor.Settings
