import Arbor.Proofs.Heap.Layout

set_option autoImplicit false

/-! # The parts of a layout

A layout is a tree of lists and records. What holds of every layout follows from what holds of a
layout whenever it holds of its elements and fields (`Layout.induction`). The parts of a layout are the
layout itself and all that lies in it, to any depth; a heap that holds a layout holds its parts, each
of them in cells that are not shared with what lies inside it (`Heap.Holds.not_mem_refs_field`). -/

namespace Arbor

namespace Layout

/-! ## Induction -/

/-- What holds of a layout whenever it holds of its elements and fields holds of every layout. -/
@[elab_as_elim]
theorem induction {P : Layout → Prop} (scalar : ∀ s, P (.scalar s))
    (list : ∀ r items, (∀ t ∈ items, P t) → P (.list r items))
    (record : ∀ r fields, (∀ f ∈ fields, P f.2) → P (.record r fields)) (t : Layout) : P t :=
  @Layout.rec P (fun items => ∀ t ∈ items, P t) (fun fields => ∀ f ∈ fields, P f.2)
    (fun f => P f.2) scalar list record (fun _ ht => absurd ht List.not_mem_nil)
    (fun _ _ head rest => List.forall_mem_cons.2 ⟨head, rest⟩)
    (fun _ hf => absurd hf List.not_mem_nil)
    (fun _ _ head rest => List.forall_mem_cons.2 ⟨head, rest⟩) (fun _ _ ih => ih) t

/-! ## Parts -/

mutual

/-- A layout and all that lies in it. -/
def parts : Layout → List Layout
  | scalar s => [scalar s]
  | list r items => list r items :: partsOfItems items
  | record r fields => record r fields :: partsOfFields fields

/-- The parts of the elements of a list. -/
def partsOfItems : List Layout → List Layout
  | [] => []
  | t :: rest => parts t ++ partsOfItems rest

/-- The parts of the fields of a record. -/
def partsOfFields : List (Key × Layout) → List Layout
  | [] => []
  | (_, t) :: rest => parts t ++ partsOfFields rest

end

theorem partsOfItems_eq (items : List Layout) : partsOfItems items = items.flatMap parts := by
  induction items with
  | nil => rfl
  | cons t rest ih => simp only [partsOfItems, ih, List.flatMap_cons]

theorem partsOfFields_eq (fields : List (Key × Layout)) :
    partsOfFields fields = (fields.map Prod.snd).flatMap parts := by
  induction fields with
  | nil => rfl
  | cons f rest ih => simp only [partsOfFields, ih, List.map_cons, List.flatMap_cons]

theorem mem_parts_self (t : Layout) : t ∈ t.parts := by
  cases t <;> exact List.mem_cons_self ..

theorem mem_parts_list {r : Ref} {items : List Layout} {u : Layout} :
    u ∈ (list r items).parts ↔ u = list r items ∨ ∃ t ∈ items, u ∈ t.parts := by
  rw [parts, partsOfItems_eq, List.mem_cons, List.mem_flatMap]

theorem mem_parts_record {r : Ref} {fields : List (Key × Layout)} {u : Layout} :
    u ∈ (record r fields).parts ↔ u = record r fields ∨ ∃ f ∈ fields, u ∈ f.2.parts := by
  rw [parts, partsOfFields_eq, List.mem_cons, List.mem_flatMap]
  simp only [List.mem_map, exists_exists_and_eq_and]

/-- The parts of an element are parts of the list. -/
theorem parts_item {r : Ref} {items : List Layout} {t : Layout} (ht : t ∈ items) :
    t.parts ⊆ (list r items).parts := fun _ hu => mem_parts_list.2 (.inr ⟨t, ht, hu⟩)

/-- The parts of a field are parts of the record. -/
theorem parts_field {r : Ref} {fields : List (Key × Layout)} {f : Key × Layout} (hf : f ∈ fields) :
    f.2.parts ⊆ (record r fields).parts := fun _ hu => mem_parts_record.2 (.inr ⟨f, hf, hu⟩)

/-- The parts of a part are parts of the whole. -/
theorem parts_subset {t u : Layout} (hu : u ∈ t.parts) : u.parts ⊆ t.parts := by
  induction t using induction with
  | scalar s =>
    rw [List.mem_singleton.1 hu]
    exact List.Subset.refl _
  | list r items ih =>
    rcases mem_parts_list.1 hu with rfl | ⟨t, ht, hu⟩
    · exact List.Subset.refl _
    · exact List.Subset.trans (ih t ht hu) (parts_item ht)
  | record r fields ih =>
    rcases mem_parts_record.1 hu with rfl | ⟨f, hf, hu⟩
    · exact List.Subset.refl _
    · exact List.Subset.trans (ih f hf hu) (parts_field hf)

/-- What holds of a layout whenever it holds of all that lies inside it holds of every layout. -/
@[elab_as_elim]
theorem induction_parts {P : Layout → Prop} (scalar : ∀ s, P (.scalar s))
    (list : ∀ r items, (∀ t ∈ items, ∀ u ∈ t.parts, P u) → P (.list r items))
    (record : ∀ r fields, (∀ f ∈ fields, ∀ u ∈ f.2.parts, P u) → P (.record r fields))
    (t : Layout) : P t := by
  have all : ∀ u ∈ t.parts, P u := by
    induction t using induction with
    | scalar s =>
      intro u hu
      rw [List.mem_singleton.1 hu]
      exact scalar s
    | list r items ih =>
      intro u hu
      rcases mem_parts_list.1 hu with rfl | ⟨t, ht, hu⟩
      · exact list r items ih
      · exact ih t ht u hu
    | record r fields ih =>
      intro u hu
      rcases mem_parts_record.1 hu with rfl | ⟨f, hf, hu⟩
      · exact record r fields ih
      · exact ih f hf u hu
  exact all t (mem_parts_self t)

/-- The cells of a part are cells of the whole. -/
theorem cells_part {t u : Layout} (hu : u ∈ t.parts) : u.cells.Sublist t.cells := by
  induction t using induction with
  | scalar s =>
    rw [List.mem_singleton.1 hu]
  | list r items ih =>
    rcases mem_parts_list.1 hu with rfl | ⟨t, ht, hu⟩
    · exact List.Sublist.refl _
    · exact (ih t ht hu).trans (cells_item ht)
  | record r fields ih =>
    rcases mem_parts_record.1 hu with rfl | ⟨f, hf, hu⟩
    · exact List.Sublist.refl _
    · exact (ih f hf hu).trans (cells_field hf)

theorem refs_part {t u : Layout} (hu : u ∈ t.parts) : u.refs.Sublist t.refs :=
  (cells_part hu).map Prod.fst

/-- In every cell of a layout lies a part of it. -/
theorem exists_part {t : Layout} {x : Ref} (hx : x ∈ t.refs) : ∃ u ∈ t.parts, u.datum = .ref x := by
  induction t using induction with
  | scalar s => cases hx
  | list r items ih =>
    rw [refs_list, List.mem_cons] at hx
    rcases hx with rfl | hx
    · exact ⟨_, mem_parts_self _, rfl⟩
    · obtain ⟨t, ht, hx⟩ := mem_refsOf.1 hx
      obtain ⟨u, hu, hdatum⟩ := ih t ht hx
      exact ⟨u, parts_item ht hu, hdatum⟩
  | record r fields ih =>
    rw [refs_record, List.mem_cons] at hx
    rcases hx with rfl | hx
    · exact ⟨_, mem_parts_self _, rfl⟩
    · obtain ⟨t, ht, hx⟩ := mem_refsOf.1 hx
      obtain ⟨f, hf, rfl⟩ := List.mem_map.1 ht
      obtain ⟨u, hu, hdatum⟩ := ih f hf hx
      exact ⟨u, parts_field hf hu, hdatum⟩

theorem mem_refs_of_datum {t : Layout} {x : Ref} (ht : t.datum = .ref x) : x ∈ t.refs := by
  cases t <;> cases ht <;> exact List.mem_cons_self ..

end Layout

namespace Heap

/-- What a heap holds in a cell is one layout. -/
theorem Holds.eq_of_datum {h : Heap} {t u : Layout} (ht : h.Holds t) (hu : h.Holds u)
    (hdatum : t.datum = u.datum) : t = u := by
  have ht' := layoutWithin_of_holds (max t.refs.length u.refs.length) ht (le_max_left ..)
  have hu' := layoutWithin_of_holds (max t.refs.length u.refs.length) hu (le_max_right ..)
  rw [← ht', hdatum, hu']

theorem Holds.of_part {h : Heap} {t u : Layout} (ht : h.Holds t) (hu : u ∈ t.parts) : h.Holds u :=
  ht.part (Layout.cells_part hu).subset

/-- A record lies in none of the cells of its fields. -/
theorem Holds.not_mem_refs_field {h : Heap} {r : Ref} {fields : List (Key × Layout)}
    (ht : h.Holds (.record r fields)) {f : Key × Layout} (hf : f ∈ fields) : r ∉ f.2.refs := by
  intro hr
  obtain ⟨u, hu, hdatum⟩ := Layout.exists_part hr
  have heq : u = .record r fields :=
    (ht.of_part (Layout.parts_field hf hu)).eq_of_datum ht hdatum
  -- the record would be smaller than itself
  have hle : u.refs.length ≤ f.2.refs.length := (Layout.refs_part hu).length_le
  have hlt : f.2.refs.length < (Layout.record r fields).refs.length := by
    rw [Layout.refs_record, List.length_cons, Nat.lt_succ_iff]
    exact (List.sublist_flatten_of_mem
      (List.mem_map_of_mem (List.mem_map_of_mem hf))).length_le
  rw [heq] at hle
  omega

end Heap

end Arbor
