import Arbor.Proofs.Heap.Slot
import Arbor.Proofs.Scope.Names

set_option autoImplicit false

/-! # Nodes that a tracker can follow a walk through

A tracker can follow a walk into a node and out of it if all that the node holds is there, and the
fields in which lists are looked for can be gone through (`Heap.Trackable`). A tree that the heap holds
is such a node if its lists can be gone through (`Heap.Holds.trackable`), and it stays one as the heap
grows (`Heap.Grows.trackable`). -/

namespace Arbor

open Scope (Tracker)

/-! ## What a cell holds -/

/-- The data in a list or record. -/
def Cell.data : Cell → List Datum
  | .list items => items
  | .record fields => fields.map Prod.snd

/-- Whether a record has a text for its type. -/
def isTyped (fields : Fields Key Datum) : Bool :=
  fields.any fun f => f.1 = .text "type" && match f.2 with
    | .scalar (.text _) => true
    | _ => false

theorem isTyped_iff {fields : Fields Key Datum} :
    isTyped fields = true ↔ ∃ type, (.text "type", .scalar (.text type)) ∈ fields := by
  simp only [isTyped, List.any_eq_true, Bool.and_eq_true, decide_eq_true_eq]
  constructor
  · rintro ⟨⟨_, d⟩, hf, rfl, hd⟩
    split at hd
    · next type heq => exact ⟨type, heq ▸ hf⟩
    · cases hd
  · rintro ⟨type, hf⟩
    exact ⟨_, hf, rfl, rfl⟩

/-- If the cell is a node, the fields in which a tracker looks for lists can be gone through. -/
def Cell.Passable : Cell → Prop
  | .list _ => True
  | .record fields => isTyped fields = true →
    ∀ f ∈ fields, (∃ name ∈ Heap.listFields, f.1 = .text name) → f.2.isIterable = true

instance (c : Cell) : Decidable c.Passable :=
  match c with
  | .list _ => isTrue trivial
  | .record fields => inferInstanceAs (Decidable (isTyped fields = true →
      ∀ f ∈ fields, (∃ name ∈ Heap.listFields, f.1 = .text name) → f.2.isIterable = true))

namespace Heap

variable {h h' : Heap} {r x y : Ref}

theorem links_iff : h.Links x y ↔ ∃ c, h.cell? x = some c ∧ .ref y ∈ c.data := by
  unfold Links
  constructor
  · rintro (⟨fields, key, hf, hmem⟩ | ⟨items, hi, hmem⟩)
    · exact ⟨_, (fields?_eq_some h).1 hf, List.mem_map_of_mem (f := Prod.snd) hmem⟩
    · exact ⟨_, (items?_eq_some h).1 hi, hmem⟩
  · rintro ⟨items | fields, hc, hmem⟩
    · exact .inr ⟨items, (items?_eq_some h).2 hc, hmem⟩
    · obtain ⟨⟨key, _⟩, hmem, rfl⟩ := List.mem_map.1 hmem
      exact .inl ⟨fields, key, (fields?_eq_some h).2 hc, hmem⟩

/-- All that a record or list holds is in the heap, and a tracker can go through the nodes among it. -/
def Trackable (h : Heap) (r : Ref) : Prop :=
  ∀ x, h.Reaches r x → ∃ c, h.cell? x = some c ∧ c.Passable

theorem Trackable.links (hr : h.Trackable r) (hx : h.Links r x) : h.Trackable x :=
  fun y hy => hr y (.head hx hy)

/-- Cells that hold no others than themselves are trackable if a tracker can go through them. -/
theorem trackable_of_closed {S : Ref → Prop}
    (hcell : ∀ x, S x → ∃ c, h.cell? x = some c ∧ c.Passable)
    (hlinks : ∀ x y, S x → h.Links x y → S y) (hr : S r) : h.Trackable r :=
  fun x hx => hcell x (mem_of_reaches hlinks hr hx)

/-- Whether what a datum refers to is there. -/
def has (h : Heap) : Datum → Bool
  | .scalar _ => true
  | .ref y => y < h.cells.size

/-- All that lists and records hold is there, and a tracker can go through all nodes. -/
def Whole (h : Heap) : Prop := ∀ c ∈ h.cells.toList, c.Passable ∧ ∀ d ∈ c.data, h.has d = true

instance (h : Heap) : Decidable h.Whole :=
  inferInstanceAs (Decidable (∀ c ∈ h.cells.toList, c.Passable ∧ ∀ d ∈ c.data, h.has d = true))

theorem Whole.trackable (hw : h.Whole) (hr : r < h.cells.size) : h.Trackable r := by
  have hcell {x : Ref} (hx : x < h.cells.size) :
      ∃ c, h.cell? x = some c ∧ c ∈ h.cells.toList :=
    ⟨h.cells[x], Array.getElem?_eq_getElem hx, Array.getElem_mem_toList hx⟩
  refine trackable_of_closed (S := (· < h.cells.size)) (fun x hx => ?_) (fun x y hx hlink => ?_) hr
  · obtain ⟨c, hc, hmem⟩ := hcell hx
    exact ⟨c, hc, (hw c hmem).1⟩
  · obtain ⟨c, hc, hmem⟩ := hcell hx
    obtain ⟨_, hc', hy⟩ := links_iff.1 hlink
    cases hc'.symm.trans hc
    exact of_decide_eq_true ((hw c hmem).2 _ hy)

theorem Grows.trackable (hg : h.Grows h') (hr : h.Trackable r) : h'.Trackable r := by
  have hsame {x : Ref} (hx : h.Trackable x) : h'.cell? x = h.cell? x := by
    obtain ⟨c, hc, -⟩ := hx x .refl
    exact hg.cell? x (cell?_lt hc)
  refine trackable_of_closed (S := h.Trackable) (fun x hx => ?_) (fun x y hx hlink => ?_) hr
  · rw [hsame hx]
    exact hx x .refl
  · rw [links_iff, hsame hx] at hlink
    exact hx.links (links_iff.2 hlink)

/-- A tree that the heap holds is trackable if its lists can be gone through. -/
theorem Holds.trackable {t : Layout} (ht : h.Holds t) (hu : t.Unaliased) (hiter : t.Iterable)
    (hr : t.datum = .ref r) : h.Trackable r := by
  intro x hx
  obtain ⟨u, hpart, hdatum⟩ := ht.exists_part_of_reaches hr hx
  have hheld : h.Holds u := ht.of_part hpart
  have honce : u.Unaliased := hu.of_cells (Layout.cells_part hpart)
  cases u with
  | scalar _ => cases hdatum
  | list _ items =>
    cases hdatum
    exact ⟨_, ((holds_list_iff h x items).1 hheld).1, trivial⟩
  | record _ fields =>
    cases hdatum
    refine ⟨_, ((holds_record_iff h x fields).1 hheld).1, ?_⟩
    rintro htyped f hf ⟨name, hname, hkey⟩
    have hnode : (Layout.record x fields).isNode = true := by
      obtain ⟨type, hmem⟩ := isTyped_iff.1 htyped
      have honce' : (Layout.data fields).keys.Nodup := by
        rw [Layout.keys_data]
        exact honce.keys_record.1
      have hget := Fields.get?_of_mem honce' hmem
      rw [← hheld.isNode, Layout.datum_record, Heap.isNode, Heap.nodeType?, Heap.field, hheld.fields?]
      simp only [hget]
      rfl
    obtain ⟨⟨key, v⟩, hv, rfl⟩ := List.mem_map.1 hf
    obtain rfl : key = .text name := hkey
    have hfield : (Layout.record x fields).field name = v := by
      rw [Layout.field, Fields.get?_of_mem honce.keys_record.1 hv, Option.getD_some]
    have hlist := hiter _ hpart hnode name hname
    rwa [hfield] at hlist

/-! ## Following a walk -/

/-- The lists in the nodes that a trackable node holds can be gone through. -/
theorem Trackable.failsBy (hr : h.Trackable r) : h.FailsBy (fun _ => False) r := by
  intro x hx hnode name hname f hf
  obtain ⟨-, hscalar⟩ := elements_eq_error hf
  obtain ⟨c, hc, hpass⟩ := hr x hx
  cases c with
  | list items => simp [isNode, nodeType?, field, fields?, hc, Datum.null] at hnode
  | record fields =>
    obtain ⟨type, htype⟩ := Option.isSome_iff_exists.1 hnode
    have htyped : isTyped fields = true := by
      have hfield := Scope.field_of_type htype
      simp only [field, fields?, hc] at hfield
      cases hg : Fields.get? fields (.text "type") with
      | none => simp [hg, Datum.null] at hfield
      | some d =>
        rw [hg, Option.getD_some] at hfield
        exact isTyped_iff.2 ⟨type, hfield ▸ Fields.mem_of_get? hg⟩
    simp only [field, fields?, hc] at hscalar
    cases hg : Fields.get? fields (.text name) with
    | none =>
      rw [hg] at hscalar
      cases hscalar
    | some d =>
      have hlist := hpass htyped _ (Fields.mem_of_get? hg) ⟨name, hname, rfl⟩
      rw [hg, Option.getD_some, hlist] at hscalar
      cases hscalar

/-- A tracker can follow a walk into a trackable node. -/
theorem Trackable.enter (hr : h.Trackable r) (hn : h.isNode (.ref r) = true) (t : Tracker) :
    ∃ t', Tracker.enter h (.ref r) t = .ok () t' := by
  obtain ⟨type, htype⟩ := Option.isSome_iff_exists.1 hn
  rw [Scope.enter_of_type htype]
  rcases (Scope.ofNode_failsBy hr.failsBy).applyAll t with hok | ⟨_, _, -, hf⟩
  · exact hok
  · exact hf.elim

end Heap

end Arbor
