import Arbor.Proofs.Heap.Layout

set_option autoImplicit false

/-! # Loading values

A value that is loaded is laid out in new cells, without sharing (`Heap.load_laysOut`), and what the heap held
before stays as it is. -/

namespace Arbor.Heap

variable {h h₁ h₂ : Heap} {t : Layout} {ts : List Layout}

/-- A heap grows into another by some layouts, all in new cells and none in the cells of another. -/
structure LaysOut (h h' : Heap) (ts : List Layout) : Prop where
  grows : h.Grows h'
  holds : ∀ t ∈ ts, h'.Holds t
  fresh : ∀ x ∈ Layout.refsOf ts, h.cells.size ≤ x
  nodup : (Layout.refsOf ts).Nodup

theorem laysOut_nil (h : Heap) : h.LaysOut h [] :=
  ⟨.refl h, by simp, by simp, by simp⟩

theorem laysOut_scalar (h : Heap) (s : Scalar) : h.LaysOut h [.scalar s] where
  grows := .refl h
  holds := by simp [Holds, Layout.cells]
  fresh := by simp [Layout.refs, Layout.cells]
  nodup := by simp [Layout.refs, Layout.cells]

theorem LaysOut.cons (ht : h.LaysOut h₁ [t]) (hts : h₁.LaysOut h₂ ts) : h.LaysOut h₂ (t :: ts) := by
  have hheld : h₁.Holds t := ht.holds t (List.mem_singleton_self t)
  have hfirst := ht.fresh
  have hnodup := ht.nodup
  rw [Layout.refsOf_cons, Layout.refsOf_nil, List.append_nil] at hfirst hnodup
  refine ⟨ht.grows.trans hts.grows, List.forall_mem_cons.2 ⟨hheld.grow hts.grows, hts.holds⟩, ?_, ?_⟩
  · rw [Layout.refsOf_cons, List.forall_mem_append]
    exact ⟨hfirst, fun x hx => ht.grows.size_le.trans (hts.fresh x hx)⟩
  · rw [Layout.refsOf_cons]
    -- the cells of the first layout are there when those of the others are made
    exact List.nodup_append.2 ⟨hnodup, hts.nodup, fun x hx y hy =>
      ((hheld.lt hx).trans_le (hts.fresh y hy)).ne⟩

/-- Layouts are put together in one more cell. -/
theorem LaysOut.alloc (hts : h.LaysOut h₁ ts) {c : Cell}
    (hcells : t.cells = (h₁.cells.size, c) :: ts.flatMap Layout.cells) :
    h.LaysOut (h₁.alloc c).2 [t] := by
  have hrefs : Layout.refsOf [t] = h₁.cells.size :: Layout.refsOf ts := by
    rw [Layout.refsOf_cons, Layout.refsOf_nil, List.append_nil, Layout.refs, hcells, List.map_cons,
      Layout.map_fst_flatMap_cells]
  refine ⟨hts.grows.trans (grows_alloc h₁ c), ?_, ?_, ?_⟩
  · rw [List.forall_mem_singleton, Holds, hcells, List.forall_mem_cons, List.forall_mem_flatMap]
    exact ⟨by simp [cell?_alloc], fun u hu => (hts.holds u hu).grow (grows_alloc h₁ c)⟩
  · rw [hrefs, List.forall_mem_cons]
    exact ⟨hts.grows.size_le, hts.fresh⟩
  · rw [hrefs, List.nodup_cons]
    refine ⟨fun hx => ?_, hts.nodup⟩
    obtain ⟨u, hu, hx⟩ := Layout.mem_refsOf.1 hx
    exact absurd ((hts.holds u hu).lt hx) (Nat.lt_irrefl _)

mutual

/-- A value that is loaded is laid out in new cells. -/
theorem load_laysOut (h : Heap) : ∀ v : Value,
    ∃ t : Layout, t.value = v ∧ t.datum = (h.load v).1 ∧ h.LaysOut (h.load v).2 [t]
  | .scalar s => ⟨.scalar s, rfl, rfl, laysOut_scalar h s⟩
  | .list items => by
    obtain ⟨ts, hvalues, hdata, hlaid⟩ := loadItems_laysOut h items
    refine ⟨.list (h.loadItems items).2.cells.size ts, ?_, rfl, ?_⟩
    · rw [Layout.value, hvalues]
    · rw [load]
      exact hlaid.alloc (by rw [Layout.cells, Layout.cellsOfItems_eq, hdata])
  | .record fields => by
    obtain ⟨fs, hvalues, hdata, hlaid⟩ := loadFields_laysOut h fields
    refine ⟨.record (h.loadFields fields).2.cells.size fs, ?_, rfl, ?_⟩
    · rw [Layout.value, hvalues]
    · rw [load]
      exact hlaid.alloc (by rw [Layout.cells, Layout.cellsOfFields_eq, hdata, List.flatMap_map])

theorem loadItems_laysOut (h : Heap) : ∀ items : List Value,
    ∃ ts, Layout.valuesOfItems ts = items ∧ ts.map Layout.datum = (h.loadItems items).1 ∧
      h.LaysOut (h.loadItems items).2 ts
  | [] => ⟨[], rfl, rfl, laysOut_nil h⟩
  | v :: rest => by
    obtain ⟨t, hvalue, hdatum, ht⟩ := load_laysOut h v
    obtain ⟨ts, hvalues, hdata, hts⟩ := loadItems_laysOut (h.load v).2 rest
    refine ⟨t :: ts, ?_, ?_, ht.cons hts⟩
    · rw [Layout.valuesOfItems, hvalue, hvalues]
    · rw [List.map_cons, hdatum, hdata, loadItems]

theorem loadFields_laysOut (h : Heap) : ∀ fields : List (Key × Value),
    ∃ fs, Layout.valuesOfFields fs = fields ∧ Layout.data fs = (h.loadFields fields).1 ∧
      h.LaysOut (h.loadFields fields).2 (fs.map Prod.snd)
  | [] => ⟨[], rfl, rfl, laysOut_nil h⟩
  | (key, v) :: rest => by
    obtain ⟨t, hvalue, hdatum, ht⟩ := load_laysOut h v
    obtain ⟨fs, hvalues, hdata, hfs⟩ := loadFields_laysOut (h.load v).2 rest
    refine ⟨(key, t) :: fs, ?_, ?_, ht.cons hfs⟩
    · rw [Layout.valuesOfFields, hvalue, hvalues]
    · rw [Layout.data, List.map_cons, hdatum, ← Layout.data, hdata, loadFields]

end

/-- The layout of a value that is loaded. -/
def loaded (h : Heap) (v : Value) : Layout := (h.load v).2.layout (h.load v).1

/-- The heap holds what is loaded, without sharing. -/
theorem holds_loaded (h : Heap) (v : Value) :
    (h.loaded v).value = v ∧ (h.loaded v).refs.Nodup ∧ (h.load v).2.Holds (h.loaded v) := by
  obtain ⟨t, hvalue, hdatum, hlaid⟩ := load_laysOut h v
  have hheld := hlaid.holds t (List.mem_singleton_self t)
  have hnodup : t.refs.Nodup := by simpa using hlaid.nodup
  rw [loaded, ← hdatum, layout_of_holds hheld hnodup]
  exact ⟨hvalue, hnodup, hheld⟩

theorem datum_loaded (h : Heap) (v : Value) : (h.loaded v).datum = (h.load v).1 := by
  obtain ⟨t, -, hdatum, hlaid⟩ := load_laysOut h v
  have hheld := hlaid.holds t (List.mem_singleton_self t)
  rw [loaded, ← hdatum, layout_of_holds hheld (by simpa using hlaid.nodup)]

end Arbor.Heap
