import Arbor.Heap.Basic
import Mathlib.Data.List.Nodup
import Mathlib.Data.List.Perm.Subperm
import Mathlib.Data.Nat.Basic
import Mathlib.Order.Basic

set_option autoImplicit false

/-! # Layouts

A layout is a value together with the cells that it lies in: it says of every list and record of a
tree which cell holds it. A heap holds a layout when each of these cells has the content that the
layout gives it, so that what a heap holds depends on these cells alone (`Heap.Holds.of_agree`). A
layout whose cells all differ is a tree without sharing (`Layout.Unaliased`); such a layout can be
read back from the heap (`Heap.layout_of_holds`). -/

namespace Arbor

/-- A record that has its keys once, or a list. -/
def Cell.KeysOnce : Cell → Prop
  | .list _ => True
  | .record fields => fields.keys.Nodup

instance (c : Cell) : Decidable c.KeysOnce :=
  match c with
  | .list _ => isTrue trivial
  | .record fields => inferInstanceAs (Decidable fields.keys.Nodup)

/-- A record that has its keys once, none of them null, or a list. -/
def Cell.Keyed : Cell → Prop
  | .list _ => True
  | .record fields => fields.keys.Nodup ∧ .null ∉ fields.keys

instance (c : Cell) : Decidable c.Keyed :=
  match c with
  | .list _ => isTrue trivial
  | .record fields => inferInstanceAs (Decidable (fields.keys.Nodup ∧ .null ∉ fields.keys))

theorem Cell.keyed_record (fields : Fields Key Datum) :
    (Cell.record fields).Keyed ↔ fields.keys.Nodup ∧ .null ∉ fields.keys := Iff.rfl

/-- A value with the cell of each of its lists and records. -/
inductive Layout where
  | scalar (s : Scalar)
  | list (r : Ref) (items : List Layout)
  | record (r : Ref) (fields : List (Key × Layout))
  deriving Inhabited

namespace Layout

/-- What a field or an element holds that holds a layout. -/
def datum : Layout → Datum
  | scalar s => .scalar s
  | list r _ => .ref r
  | record r _ => .ref r

/-- The contents of the fields of a record that is laid out. -/
def data (fields : List (Key × Layout)) : Fields Key Datum :=
  fields.map fun f => (f.1, f.2.datum)

mutual

/-- The cells that a layout takes up, each with its content. -/
def cells : Layout → List (Ref × Cell)
  | scalar _ => []
  | list r items => (r, .list (items.map datum)) :: cellsOfItems items
  | record r fields => (r, .record (data fields)) :: cellsOfFields fields

/-- The cells of the elements of a list. -/
def cellsOfItems : List Layout → List (Ref × Cell)
  | [] => []
  | t :: rest => cells t ++ cellsOfItems rest

/-- The cells of the fields of a record. -/
def cellsOfFields : List (Key × Layout) → List (Ref × Cell)
  | [] => []
  | (_, t) :: rest => cells t ++ cellsOfFields rest

end

/-- The references to the cells of a layout. -/
def refs (t : Layout) : List Ref := t.cells.map Prod.fst

/-- The references to the cells of several layouts. -/
def refsOf (ts : List Layout) : List Ref := ts.flatMap refs

mutual

/-- The value that is laid out. -/
def value : Layout → Value
  | scalar s => .scalar s
  | list _ items => .list (valuesOfItems items)
  | record _ fields => .record (valuesOfFields fields)

/-- The values of the elements of a list. -/
def valuesOfItems : List Layout → List Value
  | [] => []
  | t :: rest => value t :: valuesOfItems rest

/-- The values of the fields of a record. -/
def valuesOfFields : List (Key × Layout) → List (Key × Value)
  | [] => []
  | (k, t) :: rest => (k, value t) :: valuesOfFields rest

end

/-- The type of a syntax node. -/
def type? : Layout → Option Text
  | record _ fields =>
    match Fields.get? fields (.text "type") with
    | some (.scalar (.text t)) => some t
    | _ => none
  | _ => none

/-- Whether a syntax node is laid out. -/
def isNode (t : Layout) : Bool := t.type?.isSome

theorem isNode_of_type {t : Layout} {type : Text} (ht : t.type? = some type) : t.isNode = true := by
  rw [isNode, ht]
  rfl

/-- A layout without sharing: no two of its parts lie in the same cell. Each record has its keys once,
    and none of them is null. -/
structure Unaliased (t : Layout) : Prop where
  refs : t.refs.Nodup
  keys : ∀ e ∈ t.cells, e.2.Keyed

instance (t : Layout) : Decidable t.Unaliased :=
  decidable_of_iff (t.refs.Nodup ∧ ∀ e ∈ t.cells, e.2.Keyed)
    ⟨fun h => ⟨h.1, h.2⟩, fun h => ⟨h.refs, h.keys⟩⟩

/-! ## The cells of the parts -/

@[simp] theorem datum_list (r : Ref) (items : List Layout) : (list r items).datum = .ref r := rfl

@[simp] theorem datum_record (r : Ref) (fields : List (Key × Layout)) :
    (record r fields).datum = .ref r := rfl

theorem cellsOfItems_eq (items : List Layout) : cellsOfItems items = items.flatMap cells := by
  induction items with
  | nil => rfl
  | cons t rest ih => simp only [cellsOfItems, ih, List.flatMap_cons]

theorem cellsOfFields_eq (fields : List (Key × Layout)) :
    cellsOfFields fields = (fields.map Prod.snd).flatMap cells := by
  induction fields with
  | nil => rfl
  | cons f rest ih => simp only [cellsOfFields, ih, List.map_cons, List.flatMap_cons]

theorem map_fst_flatMap_cells (ts : List Layout) :
    (ts.flatMap cells).map Prod.fst = refsOf ts := by
  rw [List.map_flatMap]
  rfl

@[simp] theorem refs_list (r : Ref) (items : List Layout) :
    (list r items).refs = r :: refsOf items := by
  rw [refs, cells, List.map_cons, cellsOfItems_eq, map_fst_flatMap_cells]

@[simp] theorem refs_record (r : Ref) (fields : List (Key × Layout)) :
    (record r fields).refs = r :: refsOf (fields.map Prod.snd) := by
  rw [refs, cells, List.map_cons, cellsOfFields_eq, map_fst_flatMap_cells]

@[simp] theorem refsOf_nil : refsOf [] = [] := rfl

@[simp] theorem refsOf_cons (t : Layout) (rest : List Layout) :
    refsOf (t :: rest) = t.refs ++ refsOf rest := rfl

theorem mem_refsOf {x : Ref} {ts : List Layout} : x ∈ refsOf ts ↔ ∃ t ∈ ts, x ∈ t.refs :=
  List.mem_flatMap

theorem Unaliased.of_cells {t u : Layout} (h : t.Unaliased) (hsub : u.cells.Sublist t.cells) :
    u.Unaliased where
  refs := h.refs.sublist (hsub.map Prod.fst)
  keys := fun e he => h.keys e (hsub.subset he)

theorem cells_sublist_flatMap {t : Layout} {ts : List Layout} (ht : t ∈ ts) :
    t.cells.Sublist (ts.flatMap cells) := by
  rw [List.flatMap_def]
  exact List.sublist_flatten_of_mem (List.mem_map_of_mem ht)

theorem cells_item {r : Ref} {items : List Layout} {t : Layout} (ht : t ∈ items) :
    t.cells.Sublist (list r items).cells := by
  rw [cells, cellsOfItems_eq]
  exact (cells_sublist_flatMap ht).trans (List.sublist_cons_self _ _)

theorem cells_field {r : Ref} {fields : List (Key × Layout)} {f : Key × Layout} (hf : f ∈ fields) :
    f.2.cells.Sublist (record r fields).cells := by
  rw [cells, cellsOfFields_eq]
  exact (cells_sublist_flatMap (List.mem_map_of_mem hf)).trans (List.sublist_cons_self _ _)

/-- The elements of a list without sharing are without sharing. -/
theorem Unaliased.item {r : Ref} {items : List Layout} (h : (list r items).Unaliased) {t : Layout}
    (ht : t ∈ items) : t.Unaliased := h.of_cells (cells_item ht)

/-- The fields of a record without sharing are without sharing. -/
theorem Unaliased.field {r : Ref} {fields : List (Key × Layout)} (h : (record r fields).Unaliased)
    {f : Key × Layout} (hf : f ∈ fields) : f.2.Unaliased := h.of_cells (cells_field hf)

@[simp] theorem keys_data (fields : List (Key × Layout)) :
    (data fields).keys = Fields.keys fields := by
  simp only [data, Fields.keys, List.map_map]
  rfl

theorem data_append (fields fields' : List (Key × Layout)) :
    data (fields ++ fields') = data fields ++ data fields' := List.map_append ..

theorem Unaliased.keys_record {r : Ref} {fields : List (Key × Layout)}
    (h : (record r fields).Unaliased) :
    (Fields.keys fields).Nodup ∧ .null ∉ Fields.keys fields := by
  have hkeyed := h.keys (r, .record (data fields)) (by rw [cells]; exact List.mem_cons_self ..)
  rwa [Cell.keyed_record, keys_data] at hkeyed

theorem get?_data (fields : List (Key × Layout)) (key : Key) :
    Fields.get? (data fields) key = (Fields.get? fields key).map datum := by
  induction fields with
  | nil => rfl
  | cons f rest ih =>
    obtain ⟨k, t⟩ := f
    rw [data, List.map_cons, ← data, Fields.get?_cons, Fields.get?_cons, ih]
    split <;> rfl

end Layout

/-! ## Heaps that hold a layout -/

namespace Heap

/-- A heap holds a layout when every cell of the layout has its content there. -/
def Holds (h : Heap) (t : Layout) : Prop := ∀ e ∈ t.cells, h.cell? e.1 = some e.2

instance (h : Heap) (t : Layout) : Decidable (h.Holds t) :=
  inferInstanceAs (Decidable (∀ e ∈ t.cells, h.cell? e.1 = some e.2))

theorem Holds.part {h : Heap} {t u : Layout} (ht : h.Holds t) (hsub : u.cells ⊆ t.cells) :
    h.Holds u := fun e he => ht e (hsub he)

/-- What a heap holds depends on the cells of the layout alone. -/
theorem Holds.of_agree {h h' : Heap} {t : Layout} (ht : h.Holds t)
    (agree : ∀ x ∈ t.refs, h'.cell? x = h.cell? x) : h'.Holds t := by
  intro e he
  rw [agree e.1 (List.mem_map_of_mem he)]
  exact ht e he

theorem holds_list_iff (h : Heap) (r : Ref) (items : List Layout) :
    h.Holds (.list r items) ↔
      h.cell? r = some (.list (items.map Layout.datum)) ∧ ∀ t ∈ items, h.Holds t := by
  simp only [Holds, Layout.cells, Layout.cellsOfItems_eq, List.forall_mem_cons,
    List.forall_mem_flatMap]

theorem holds_record_iff (h : Heap) (r : Ref) (fields : List (Key × Layout)) :
    h.Holds (.record r fields) ↔
      h.cell? r = some (.record (Layout.data fields)) ∧ ∀ f ∈ fields, h.Holds f.2 := by
  simp only [Holds, Layout.cells, Layout.cellsOfFields_eq, List.forall_mem_cons,
    List.forall_mem_flatMap, List.forall_mem_map]

theorem cell?_lt {h : Heap} {r : Ref} {c : Cell} (hc : h.cell? r = some c) :
    r < h.cells.size := by
  by_contra hlt
  rw [cell?, Array.getElem?_eq_none (Nat.le_of_not_lt hlt)] at hc
  cases hc

/-- The cells of a layout that is held are cells of the heap. -/
theorem Holds.lt {h : Heap} {t : Layout} (ht : h.Holds t) {x : Ref} (hx : x ∈ t.refs) :
    x < h.cells.size := by
  obtain ⟨e, he, rfl⟩ := List.mem_map.1 hx
  exact cell?_lt (ht e he)

theorem Holds.fields? {h : Heap} {r : Ref} {fields : List (Key × Layout)}
    (ht : h.Holds (.record r fields)) : h.fields? r = some (Layout.data fields) := by
  rw [Heap.fields?, ((holds_record_iff h r fields).1 ht).1]

/-- A field of a record that is held, null if the record does not have it. -/
theorem Holds.field {h : Heap} {r : Ref} {fields : List (Key × Layout)}
    (ht : h.Holds (.record r fields)) (name : Text) :
    h.field r name = ((Fields.get? fields (.text name)).map Layout.datum).getD .null := by
  rw [Heap.field, ht.fields?]
  simp only [Layout.get?_data]

theorem Holds.nodeType? {h : Heap} {t : Layout} (ht : h.Holds t) : h.nodeType? t.datum = t.type? := by
  cases t with
  | scalar s => rfl
  | list r items =>
    have hc := ((holds_list_iff h r items).1 ht).1
    simp [Heap.nodeType?, Heap.field, Heap.fields?, hc, Layout.type?, Datum.null]
  | record r fields =>
    simp only [Layout.datum_record, Heap.nodeType?, ht.field, Layout.type?]
    cases Fields.get? fields (.text "type") with
    | none => rfl
    | some t =>
      cases t with
      | scalar s => cases s <;> rfl
      | list _ _ => rfl
      | record _ _ => rfl

theorem Holds.isNode {h : Heap} {t : Layout} (ht : h.Holds t) : h.isNode t.datum = t.isNode := by
  rw [Heap.isNode, ht.nodeType?, Layout.isNode]

/-! ## Reading a layout back -/

/-- The layout of a datum, followed through at most `depth` references. -/
def layoutWithin (h : Heap) : Nat → Datum → Layout
  | _, .scalar s => .scalar s
  | 0, .ref _ => .scalar .null
  | depth + 1, .ref r =>
    match h.cell? r with
    | some (.list items) => .list r (items.map (layoutWithin h depth))
    | some (.record fields) => .record r (fields.map fun (k, d) => (k, layoutWithin h depth d))
    | none => .scalar .null

/-- The layout of a datum. Without sharing no way through the heap is longer than its size. -/
def layout (h : Heap) (d : Datum) : Layout := h.layoutWithin h.cells.size d

theorem layoutWithin_of_holds {h : Heap} (depth : Nat) {t : Layout} (ht : h.Holds t)
    (hdepth : t.refs.length ≤ depth) : h.layoutWithin depth t.datum = t := by
  induction depth generalizing t with
  | zero =>
    cases t with
    | scalar s => rfl
    | list r items => simp at hdepth
    | record r fields => simp at hdepth
  | succ depth ih =>
    -- a part of a layout takes up at least one cell less
    have part : ∀ {ts : List Layout}, (Layout.refsOf ts).length + 1 ≤ depth + 1 →
        ∀ u ∈ ts, u.refs.length ≤ depth := fun hlen u hu =>
      ((List.sublist_flatten_of_mem (List.mem_map_of_mem hu)).length_le.trans
        (Nat.le_of_succ_le_succ hlen))
    cases t with
    | scalar s => rfl
    | list r items =>
      obtain ⟨hc, hitems⟩ := (holds_list_iff h r items).1 ht
      simp only [Layout.refs_list, List.length_cons] at hdepth
      simp only [Layout.datum_list, layoutWithin, hc, List.map_map]
      congr 1
      exact (List.map_congr_left fun u hu => ih (hitems u hu) (part hdepth u hu)).trans
        (List.map_id' items)
    | record r fields =>
      obtain ⟨hc, hfields⟩ := (holds_record_iff h r fields).1 ht
      simp only [Layout.refs_record, List.length_cons] at hdepth
      simp only [Layout.datum_record, layoutWithin, hc, Layout.data, List.map_map]
      congr 1
      refine (List.map_congr_left fun f hf => ?_).trans (List.map_id' fields)
      exact Prod.ext rfl (ih (hfields f hf) (part hdepth f.2 (List.mem_map_of_mem hf)))

/-- A layout without sharing can be read back from a heap that holds it. -/
theorem layout_of_holds {h : Heap} {t : Layout} (ht : h.Holds t) (hu : t.refs.Nodup) :
    h.layout t.datum = t := by
  refine layoutWithin_of_holds _ ht ?_
  have hsub : t.refs ⊆ List.range h.cells.size := fun x hx => List.mem_range.2 (ht.lt hx)
  simpa using (hu.subperm hsub).length_le

/-! ## Growing heaps -/

/-- One heap grows into another when its cells keep their contents. -/
structure Grows (h h' : Heap) : Prop where
  size_le : h.cells.size ≤ h'.cells.size
  cell? : ∀ x < h.cells.size, h'.cell? x = h.cell? x

theorem Grows.refl (h : Heap) : h.Grows h := ⟨le_rfl, fun _ _ => rfl⟩

theorem Grows.trans {h₁ h₂ h₃ : Heap} (h : h₁.Grows h₂) (h' : h₂.Grows h₃) : h₁.Grows h₃ where
  size_le := h.size_le.trans h'.size_le
  cell? := fun x hx => by rw [h'.cell? x (hx.trans_le h.size_le), h.cell? x hx]

theorem Holds.grow {h h' : Heap} {t : Layout} (ht : h.Holds t) (hg : h.Grows h') : h'.Holds t :=
  ht.of_agree fun x hx => hg.cell? x (ht.lt hx)

theorem grows_alloc (h : Heap) (c : Cell) : h.Grows (h.alloc c).2 where
  size_le := by simp [alloc]
  cell? := fun x hx => by rw [cell?_alloc, if_neg hx.ne]

end Heap

end Arbor
