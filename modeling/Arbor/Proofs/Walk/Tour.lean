import Arbor.Proofs.Heap.Layout
import Arbor.Walk.Request

set_option autoImplicit false

/-! # Tours

A walk that changes nothing of a tree makes a tour of it: it passes every node twice, before and after
what is below it. Which nodes there are on the tour the tree tells, and besides only which of them are
skipped (`Seen`). -/

namespace Arbor

/-- Nodes that are visited one after another: the first one, what is visited below it, and the others.
    Nothing is visited below a node that is skipped. -/
inductive Forest where
  | nil
  | node (r : Ref) (fields : List (Key × Layout)) (skipped : Bool) (below rest : Forest)
  deriving Inhabited

/-- A walk passes a node, on entering or on leaving it. -/
structure Passage where
  phase : Phase
  node : Ref
  fields : List (Key × Layout)
  skipped : Bool

namespace Passage

/-- The node that is passed. -/
def layout (p : Passage) : Layout := .record p.node p.fields

end Passage

namespace Forest

/-- The nodes of one forest and then those of another. -/
def append : Forest → Forest → Forest
  | nil, g => g
  | node r fields skipped below rest, g => node r fields skipped below (append rest g)

instance : Append Forest := ⟨append⟩

@[simp] theorem node_append (r : Ref) (fields : List (Key × Layout)) (skipped : Bool)
    (below rest g : Forest) :
    node r fields skipped below rest ++ g = node r fields skipped below (rest ++ g) := rfl

/-- The passages of a tour of a forest. -/
def passages : Forest → List Passage
  | nil => []
  | node r fields skipped below rest =>
    ⟨.enter, r, fields, skipped⟩ :: (passages below ++
      ⟨.leave, r, fields, skipped⟩ :: passages rest)

theorem passages_node (r : Ref) (fields : List (Key × Layout)) (skipped : Bool)
    (below rest : Forest) :
    (node r fields skipped below rest).passages =
      ⟨.enter, r, fields, skipped⟩ :: (below.passages ++
        ⟨.leave, r, fields, skipped⟩ :: rest.passages) := rfl

@[simp] theorem passages_append (f g : Forest) : (f ++ g).passages = f.passages ++ g.passages := by
  induction f with
  | nil => rfl
  | node r fields skipped below rest _ ih => simp [passages, ih]

end Forest

/-! ## What is seen of a tree -/

mutual

/-- What a walk sees of a node that it comes to. -/
inductive Seen : Layout → Forest → Prop
  | data {t : Layout} (hn : t.isNode = false) : Seen t .nil
  | skipped {r : Ref} {fields : List (Key × Layout)} (hn : (Layout.record r fields).isNode = true) :
      Seen (.record r fields) (.node r fields true .nil .nil)
  | walked {r : Ref} {fields : List (Key × Layout)} {below : Forest}
      (hn : (Layout.record r fields).isNode = true) (hf : SeenInFields fields below) :
      Seen (.record r fields) (.node r fields false below .nil)

/-- What a walk sees of the elements of a list. -/
inductive SeenInItems : List Layout → Forest → Prop
  | nil : SeenInItems [] .nil
  | cons {t : Layout} {rest : List Layout} {f g : Forest} (h : Seen t f)
      (hrest : SeenInItems rest g) : SeenInItems (t :: rest) (f ++ g)

/-- What a walk sees in a field. -/
inductive SeenInField : Layout → Forest → Prop
  | list {r : Ref} {items : List Layout} {f : Forest} (h : SeenInItems items f) :
      SeenInField (.list r items) f
  | other {t : Layout} {f : Forest} (ht : ∀ r items, t ≠ .list r items) (h : Seen t f) :
      SeenInField t f

/-- What a walk sees in the fields of a record. -/
inductive SeenInFields : List (Key × Layout) → Forest → Prop
  | nil : SeenInFields [] .nil
  | cons {key : Key} {t : Layout} {rest : List (Key × Layout)} {f g : Forest}
      (h : SeenInField t f) (hrest : SeenInFields rest g) : SeenInFields ((key, t) :: rest) (f ++ g)

end

/-- What a walk sees below a node, which may be skipped. -/
def SeenBelow (skipped : Bool) (fields : List (Key × Layout)) (below : Forest) : Prop :=
  if skipped then below = .nil else SeenInFields fields below

theorem SeenBelow.seen {r : Ref} {fields : List (Key × Layout)} {skipped : Bool} {below : Forest}
    (h : SeenBelow skipped fields below) (hn : (Layout.record r fields).isNode = true) :
    Seen (.record r fields) (.node r fields skipped below .nil) := by
  cases skipped with
  | true =>
    cases h
    exact .skipped hn
  | false => exact .walked hn h

/-- The passages of a tour of a forest of a given kind. -/
def Passes (seen : Forest → Prop) (ps : List Passage) : Prop := ∃ f, seen f ∧ f.passages = ps

theorem Passes.append {seen seen' seen'' : Forest → Prop} {ps ps' : List Passage}
    (h : Passes seen ps) (h' : Passes seen' ps')
    (happend : ∀ f g, seen f → seen' g → seen'' (f ++ g)) : Passes seen'' (ps ++ ps') := by
  obtain ⟨f, hf, rfl⟩ := h
  obtain ⟨g, hg, rfl⟩ := h'
  exact ⟨f ++ g, happend f g hf hg, f.passages_append g⟩

/-! Every tree has some tour, if only because all its nodes may be skipped. -/

theorem passes_seen (t : Layout) : ∃ ps, Passes (Seen t) ps := by
  rcases hn : t.isNode with _ | _
  · exact ⟨_, _, .data hn, rfl⟩
  · cases t with
    | record r fields => exact ⟨_, _, .skipped hn, rfl⟩
    | _ => cases hn

theorem passes_seenInItems (items : List Layout) : ∃ ps, Passes (SeenInItems items) ps := by
  induction items with
  | nil => exact ⟨_, _, .nil, rfl⟩
  | cons t rest ih =>
    obtain ⟨ps, h⟩ := passes_seen t
    obtain ⟨ps', h'⟩ := ih
    exact ⟨_, h.append h' fun _ _ => .cons⟩

theorem passes_seenInField (t : Layout) : ∃ ps, Passes (SeenInField t) ps := by
  cases t with
  | list r items =>
    obtain ⟨ps, f, hf, hps⟩ := passes_seenInItems items
    exact ⟨ps, f, .list hf, hps⟩
  | _ =>
    obtain ⟨ps, f, hf, hps⟩ := passes_seen _
    exact ⟨ps, f, .other (by simp) hf, hps⟩

theorem passes_seenInFields (fields : List (Key × Layout)) :
    ∃ ps, Passes (SeenInFields fields) ps := by
  induction fields with
  | nil => exact ⟨_, _, .nil, rfl⟩
  | cons field rest ih =>
    obtain ⟨ps, h⟩ := passes_seenInField field.2
    obtain ⟨ps', h'⟩ := ih
    exact ⟨_, h.append h' fun _ _ => .cons⟩

theorem passes_seenBelow (skipped : Bool) (fields : List (Key × Layout)) :
    ∃ ps, Passes (SeenBelow skipped fields) ps := by
  cases skipped with
  | true => exact ⟨_, .nil, rfl, rfl⟩
  | false => exact passes_seenInFields fields

end Arbor
