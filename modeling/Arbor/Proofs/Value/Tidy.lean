import Arbor.Proofs.Heap.Parts
import Arbor.Proofs.Heap.Slot
import Arbor.Proofs.Scope.Names

set_option autoImplicit false

/-! # Tidy values

A value is tidy when its records have their keys once and hold no number or truth value where a tracker looks
for a list (`Value.Tidy`). Wherever a tidy value is laid out, a tracker can go through it
(`Layout.iterable_of_tidy`). -/

namespace Arbor

theorem Fields.nodup_keys_set {K V : Type} [DecidableEq K] {fields : Fields K V}
    (h : fields.keys.Nodup) (key : K) (value : V) : (fields.set key value).keys.Nodup := by
  rw [Fields.keys_set]
  split
  · exact h
  · next hkey =>
    refine List.nodup_append.2 ⟨h, List.nodup_singleton key, fun a ha b hb => ?_⟩
    rw [List.mem_singleton.1 hb]
    rintro rfl
    exact hkey ha

namespace Value

/-- Whether a value may stand where a list is looked for. -/
def isIterable : Value → Bool
  | .scalar s => s.isIterable
  | _ => true

/-- In all records of a value the keys differ, and the fields in which a tracker looks for lists can be gone
    through. -/
inductive Tidy : Value → Prop
  | scalar (s : Scalar) : Tidy (.scalar s)
  | list {items : List Value} (items_tidy : ∀ v ∈ items, Tidy v) : Tidy (.list items)
  | record {fields : List (Key × Value)} (once : (Fields.keys fields).Nodup)
      (fields_tidy : ∀ f ∈ fields, Tidy f.2)
      (lists : ∀ f ∈ fields, ∀ name ∈ Heap.listFields, f.1 = .text name → f.2.isIterable = true) :
      Tidy (.record fields)

/-- A tidy value that is no scalar, or null. -/
structure Grown (v : Value) : Prop where
  tidy : v.Tidy
  null : ∀ s, v = .scalar s → s = .null

theorem grown_null : Grown .null := ⟨.scalar _, fun _ h => by cases h; rfl⟩

theorem grown_list {items : List Value} (h : ∀ v ∈ items, v.Tidy) : Grown (.list items) :=
  ⟨.list h, fun _ h => by cases h⟩

theorem Tidy.grown {fields : List (Key × Value)} (h : Tidy (.record fields)) : Grown (.record fields) :=
  ⟨h, fun _ h => by cases h⟩

theorem Grown.isIterable {v : Value} (h : v.Grown) : v.isIterable = true := by
  cases v with
  | scalar s =>
    cases h.null s rfl
    rfl
  | list items => rfl
  | record fields => rfl

/-- A record stays tidy when something tidy is stored in it that fits in its place. -/
theorem Tidy.set {fields : List (Key × Value)} (h : Tidy (.record fields)) {key : Key} {v : Value}
    (hv : v.Tidy) (hlist : ∀ name ∈ Heap.listFields, key = .text name → v.isIterable = true) :
    Tidy (.record (Fields.set fields key v)) := by
  cases h with
  | record once fields_tidy lists =>
    refine .record (Fields.nodup_keys_set once key v) (fun f hf => ?_) (fun f hf => ?_)
    · rcases Fields.mem_set hf with rfl | hf
      · exact hv
      · exact fields_tidy f hf
    · rcases Fields.mem_set hf with rfl | hf
      · exact hlist
      · exact lists f hf

end Value

namespace Layout

/-! ## Tidy values that are laid out -/

theorem valuesOfItems_eq (items : List Layout) : valuesOfItems items = items.map value := by
  induction items with
  | nil => rfl
  | cons t rest ih => rw [valuesOfItems, ih, List.map_cons]

theorem valuesOfFields_eq (fields : List (Key × Layout)) :
    valuesOfFields fields = fields.map fun f => (f.1, f.2.value) := by
  induction fields with
  | nil => rfl
  | cons f rest ih => rw [valuesOfFields, ih, List.map_cons]

theorem tidy_item {r : Ref} {items : List Layout} (h : (list r items).value.Tidy) {t : Layout}
    (ht : t ∈ items) : t.value.Tidy := by
  rw [value, valuesOfItems_eq] at h
  cases h with
  | list items_tidy => exact items_tidy _ (List.mem_map_of_mem ht)

theorem tidy_field {r : Ref} {fields : List (Key × Layout)} (h : (record r fields).value.Tidy)
    {f : Key × Layout} (hf : f ∈ fields) : f.2.value.Tidy := by
  rw [value, valuesOfFields_eq] at h
  cases h with
  | record once fields_tidy lists =>
    exact fields_tidy (f.1, f.2.value) (List.mem_map.2 ⟨f, hf, rfl⟩)

/-- The parts of a tidy value are tidy. -/
theorem tidy_part {t u : Layout} (ht : t.value.Tidy) (hu : u ∈ t.parts) : u.value.Tidy := by
  induction t using induction with
  | scalar s =>
    rw [List.mem_singleton.1 hu]
    exact ht
  | list r items ih =>
    rcases mem_parts_list.1 hu with rfl | ⟨t, hmem, hu⟩
    · exact ht
    · exact ih t hmem (tidy_item ht hmem) hu
  | record r fields ih =>
    rcases mem_parts_record.1 hu with rfl | ⟨f, hf, hu⟩
    · exact ht
    · exact ih f hf (tidy_field ht hf) hu

theorem isIterable_datum (t : Layout) : t.datum.isIterable = t.value.isIterable := by
  cases t <;> simp [datum, value, Datum.isIterable, Value.isIterable]

/-- A tracker can go through the lists of a tidy value. -/
theorem iterable_of_tidy {t : Layout} (ht : t.value.Tidy) : t.Iterable := by
  intro u hu hn name hname
  have htidy := tidy_part ht hu
  cases u with
  | record r fields =>
    rcases field_of_record r fields name with hnull | ⟨f, hf, heq⟩
    · rw [hnull]
      rfl
    · rw [value, valuesOfFields_eq] at htidy
      cases htidy with
      | record once fields_tidy lists =>
        have hiter := lists (f.1, f.2.value) (List.mem_map.2 ⟨f, hf, rfl⟩) name hname
          (congrArg Prod.fst heq)
        rw [isIterable_datum]
        rw [heq] at hiter
        exact hiter
  | _ => cases hn

/-- In the cells of a tidy value records have their keys once. -/
theorem keysOnce_of_tidy {t : Layout} (ht : t.value.Tidy) : ∀ e ∈ t.cells, e.2.KeysOnce := by
  induction t using induction with
  | scalar s => exact fun e he => absurd he List.not_mem_nil
  | list r items ih =>
    rw [cells, cellsOfItems_eq, List.forall_mem_cons, List.forall_mem_flatMap]
    exact ⟨trivial, fun t hmem => ih t hmem (tidy_item ht hmem)⟩
  | record r fields ih =>
    rw [cells, cellsOfFields_eq, List.forall_mem_cons, List.forall_mem_flatMap, List.forall_mem_map]
    refine ⟨?_, fun f hf => ih f hf (tidy_field ht hf)⟩
    rw [value, valuesOfFields_eq] at ht
    cases ht with
    | record once fields_tidy lists =>
      rw [Cell.KeysOnce, keys_data]
      rw [Fields.keys, List.map_map] at once
      exact once

end Layout

end Arbor
