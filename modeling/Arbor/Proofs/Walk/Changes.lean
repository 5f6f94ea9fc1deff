import Arbor.Proofs.Scope.Trackable
import Arbor.Proofs.Walk.Steps
import Mathlib.Data.List.InsertIdx

set_option autoImplicit false

/-! # What the changes at a node keep

On entering and on leaving a node a walk changes at most one cell, and in it no more than the slot of
the node: the other fields of a record stay as they are, and what is new in a record or list is the
replacement (`Request.cell?_edit`). The type of a node is no record, and so it is never in the slot of
another node: the types of nodes stay (`Heap.KeepsTypes.edit`). A tracker can still go through nodes if
it can go through the replacement (`Heap.Trackable.edit`). -/

namespace Arbor

/-- A record or list before and after an edit of a slot, by which at most `d?` has come in. -/
inductive Edited (slot : Heap.Slot) (d? : Option Datum) : Cell → Cell → Prop
  | record {fields fields' : Fields Key Datum} (hindex : slot.index? = none)
      (hother : ∀ key ≠ slot.key, Fields.get? fields' key = Fields.get? fields key)
      (hnew : ∀ f ∈ fields', f ∈ fields ∨ d? = some f.2) :
      Edited slot d? (.record fields) (.record fields')
  | list {items items' : List Datum} (hnew : ∀ d ∈ items', d ∈ items ∨ d? = some d) :
      Edited slot d? (.list items) (.list items')

namespace Edited

variable {slot : Heap.Slot} {d? : Option Datum}

theorem set (hindex : slot.index? = none) (fields : Fields Key Datum) (d : Datum) :
    Edited slot (some d) (.record fields) (.record (Fields.set fields slot.key d)) := by
  refine .record hindex (fun key hkey => Fields.get?_set_of_ne fields d hkey.symm) fun f hf => ?_
  rcases Fields.mem_set hf with rfl | hf
  · exact .inr rfl
  · exact .inl hf

theorem erase (hindex : slot.index? = none) (fields : Fields Key Datum) :
    Edited slot d? (.record fields) (.record (Fields.erase fields slot.key)) :=
  .record hindex (fun _ hkey => Fields.get?_erase_of_ne fields hkey.symm)
    fun _ hf => .inl (Fields.mem_of_mem_erase hf)

/-- What is held after an edit was held before, or has come in. -/
theorem data {old new : Cell} (h : Edited slot d? old new) {d : Datum} (hd : d ∈ new.data) :
    d ∈ old.data ∨ d? = some d := by
  cases h with
  | list hnew => exact hnew d hd
  | record _ _ hnew =>
    obtain ⟨f, hf, rfl⟩ := List.mem_map.1 hd
    exact (hnew f hf).imp (fun hf => List.mem_map_of_mem hf) id

/-- A node can be gone through after an edit as before, if what comes in is a record or list. -/
theorem passable {old new : Cell} (h : Edited slot d? old new)
    (hd : ∀ d, d? = some d → ∃ r, d = .ref r) (hold : old.Passable) : new.Passable := by
  cases h with
  | list _ => trivial
  | record _ _ hnew =>
    intro htyped f hf hname
    obtain ⟨type, htype⟩ := isTyped_iff.1 htyped
    rcases hnew _ htype with htype | htype
    · rcases hnew f hf with hf | hf
      · exact hold (isTyped_iff.2 ⟨type, htype⟩) f hf hname
      · obtain ⟨r, hr⟩ := hd _ hf
        rw [hr]
        rfl
    · obtain ⟨_, ⟨⟩⟩ := hd _ htype

end Edited

namespace Heap

variable {h : Heap} {slot : Slot} {d? : Option Datum}

theorem cell?_editSlot_or {onFields : Fields Key Datum → Fields Key Datum}
    {onItems : Int → List Datum → List Datum}
    (hfields : slot.index? = none →
      ∀ fields, Edited slot d? (.record fields) (.record (onFields fields)))
    (hitems : ∀ i items, Edited slot d? (.list items) (.list (onItems i items))) (x : Ref) :
    (h.editSlot slot onFields onItems).cell? x = h.cell? x ∨
      h.target? slot = some x ∧ ∃ old new, h.cell? x = some old ∧
        (h.editSlot slot onFields onItems).cell? x = some new ∧ Edited slot d? old new := by
  rw [cell?_editSlot]
  split
  · next ht =>
    cases hc : h.cell? x with
    | none => exact .inl rfl
    | some old =>
      refine .inr ⟨ht, old, _, rfl, rfl, ?_⟩
      cases old with
      | record fields =>
        -- a record that is edited is the one that the slot is a field of
        obtain ⟨_, _, -, -, -, ⟨hindex, -⟩ | ⟨_, _, -, -, hlist⟩⟩ := target?_eq_some h slot ht
        · exact hfields hindex fields
        · rw [hc] at hlist
          cases hlist
      | list items =>
        rw [Slot.editCell]
        split
        · exact hitems _ items
        · exact .list fun _ hd => .inl hd
  · exact .inl rfl

theorem cell?_replaceAt_or (d : Datum) (x : Ref) :
    (h.replaceAt slot d).cell? x = h.cell? x ∨ h.target? slot = some x ∧ ∃ old new,
      h.cell? x = some old ∧ (h.replaceAt slot d).cell? x = some new ∧
        Edited slot (some d) old new := by
  refine cell?_editSlot_or (fun hindex fields => .set hindex fields d) (fun i items => .list fun e he => ?_) x
  split at he
  · exact (List.mem_or_eq_of_mem_set he).imp id (congrArg some ∘ Eq.symm)
  · exact .inl he

theorem cell?_insertAt_or (d : Datum) (x : Ref) :
    (h.insertAt slot d).cell? x = h.cell? x ∨ h.target? slot = some x ∧ ∃ old new,
      h.cell? x = some old ∧ (h.insertAt slot d).cell? x = some new ∧
        Edited slot (some d) old new := by
  refine cell?_editSlot_or (fun hindex fields => .set hindex fields d) (fun i items => .list fun e he => ?_) x
  exact (List.eq_or_mem_of_mem_insertIdx he).symm.imp id (congrArg some ∘ Eq.symm)

theorem cell?_removeAt_or (x : Ref) :
    (h.removeAt slot).cell? x = h.cell? x ∨ h.target? slot = some x ∧ ∃ old new,
      h.cell? x = some old ∧ (h.removeAt slot).cell? x = some new ∧ Edited slot d? old new := by
  refine cell?_editSlot_or (fun hindex fields => .erase hindex fields) (fun i items => .list fun e he => ?_) x
  split at he
  · exact .inl (List.mem_of_mem_eraseIdx he)
  · exact .inl he

end Heap

/-- What is asked for is done in one cell, and there it is an edit of the slot. -/
theorem Request.cell?_edit (q : Request) (slot : Heap.Slot) (gone : Bool) (h : Heap) (x : Ref) :
    (q.edit slot gone h).cell? x = h.cell? x ∨ h.target? slot = some x ∧ ∃ old new,
      h.cell? x = some old ∧ (q.edit slot gone h).cell? x = some new ∧
        Edited slot q.effective? old new := by
  unfold Request.edit
  cases q.removed with
  | true =>
    cases gone with
    | true => exact .inl rfl
    | false => exact Heap.cell?_removeAt_or x
  | false =>
    cases q.effective? with
    | none => exact .inl rfl
    | some d =>
      cases gone with
      | true => exact Heap.cell?_insertAt_or d x
      | false => exact Heap.cell?_replaceAt_or d x

theorem Request.cell?_edit_of_ne {q : Request} {slot : Heap.Slot} {gone : Bool} {h : Heap} {x : Ref}
    (ht : h.target? slot ≠ some x) : (q.edit slot gone h).cell? x = h.cell? x :=
  (q.cell?_edit slot gone h x).resolve_right fun hx => ht hx.1

@[simp] theorem Request.size_edit (q : Request) (slot : Heap.Slot) (gone : Bool) (h : Heap) :
    (q.edit slot gone h).cells.size = h.cells.size := by
  unfold Request.edit
  repeat' split
  all_goals first | rfl | simp

/-- The same change keeps heaps in agreement. -/
theorem Request.agreeOn_edit {q : Request} {slot : Heap.Slot} {gone : Bool} {h h' : Heap}
    {S : Ref → Prop} (ha : h.AgreeOn S h') (ht : h'.target? slot = h.target? slot) :
    Heap.AgreeOn S (q.edit slot gone h) (q.edit slot gone h') := by
  unfold Request.edit
  repeat' split
  all_goals first | exact ha | exact ha.editSlot _ _ ht

/-- No other link comes about than one to the replacement. -/
theorem Request.links_edit {q : Request} {slot : Heap.Slot} {gone : Bool} {h : Heap} {x y : Ref}
    (hlink : (q.edit slot gone h).Links x y) : h.Links x y ∨ q.effective? = some (.ref y) := by
  obtain ⟨c, hc, hy⟩ := Heap.links_iff.1 hlink
  rcases q.cell?_edit slot gone h x with hsame | ⟨-, old, new, hold, hnew, hedited⟩
  · exact .inl (Heap.links_iff.2 ⟨c, hsame.symm.trans hc, hy⟩)
  · cases hnew.symm.trans hc
    exact (hedited.data hy).imp_left fun hy => Heap.links_iff.2 ⟨old, hold, hy⟩

/-! ## What is kept -/

namespace Heap

/-- The nodes of one heap are nodes of the other one, of the same types. -/
def KeepsTypes (h h' : Heap) : Prop :=
  ∀ r, h.isNode (.ref r) = true → h'.nodeType? (.ref r) = h.nodeType? (.ref r)

variable {h h' h'' : Heap} {r : Ref} {slot : Slot}

theorem KeepsTypes.refl (h : Heap) : h.KeepsTypes h := fun _ _ => rfl

theorem KeepsTypes.isNode (hk : h.KeepsTypes h') (hr : h.isNode (.ref r) = true) :
    h'.isNode (.ref r) = true := by
  rw [Heap.isNode, hk r hr]
  exact hr

theorem KeepsTypes.trans (hk : h.KeepsTypes h') (hk' : h'.KeepsTypes h'') : h.KeepsTypes h'' :=
  fun r hr => (hk' r (hk.isNode hr)).trans (hk r hr)

theorem KeepsTypes.opens (hk : h.KeepsTypes h') (hr : h.isNode (.ref r) = true) :
    h'.opens r = h.opens r := by
  rw [opens_eq, opens_eq, hk r hr]

theorem Grows.keepsTypes (hg : h.Grows h') : h.KeepsTypes h' := by
  intro r hr
  simp only [nodeType?, field, fields?, hg.cell? r (lt_of_isNode hr)]

/-- A slot is not the type of a node. -/
def Slot.SparesTypes (slot : Slot) (h : Heap) : Prop :=
  ∀ p, slot.parent? = some p → slot.index? = none → slot.key = .text "type" →
    h.isNode (.ref p) = false

/-- A slot in which a node hangs is not the type of a node. -/
theorem KeepsTypes.sparesTypes (hk : h.KeepsTypes h')
    (hheld : ∀ p, slot.parent? = some p → slot.index? = none →
      (h'.fields? p).bind (Fields.get? · slot.key) = some (.ref r)) : slot.SparesTypes h := by
  intro p hp hindex hkey
  refine Bool.eq_false_iff.2 fun hn => ?_
  have hn' := hk.isNode hn
  have hget := hheld p hp hindex
  rw [hkey] at hget
  obtain ⟨fields, hf, hg⟩ := Option.bind_eq_some_iff.1 hget
  simp [Heap.isNode, nodeType?, field, hf, hg] at hn'

/-- A change keeps the types of nodes, if it is not made at the type of one of them. -/
theorem KeepsTypes.edit (hk : h.KeepsTypes h') (hslot : slot.SparesTypes h) (q : Request)
    (gone : Bool) : h.KeepsTypes (q.edit slot gone h') := by
  intro x hx
  rw [← hk x hx]
  rcases q.cell?_edit slot gone h' x with hc | ⟨ht, old, new, hold, hnew, hedited⟩
  · simp only [nodeType?, field, fields?, hc]
  · cases hedited with
    | list _ => simp only [nodeType?, field, fields?, hold, hnew]
    | record hindex hother _ =>
      have hkey : slot.key ≠ .text "type" := by
        intro hkey
        obtain ⟨p, _, hp, -, -, ⟨-, rfl⟩ | ⟨_, _, hindex', -⟩⟩ := target?_eq_some h' slot ht
        · rw [hslot p hp hindex hkey] at hx
          cases hx
        · rw [hindex] at hindex'
          cases hindex'
      simp only [nodeType?, field, fields?, hold, hnew, hother _ hkey.symm]

/-- A tracker can go through a node after a change as before, if it can go through the replacement. -/
theorem Trackable.edit {q : Request} {gone : Bool} (hr : h.Trackable r)
    (hputs : ∀ d, q.effective? = some d → ∃ x, d = .ref x ∧ h.Trackable x) :
    (q.edit slot gone h).Trackable r := by
  refine trackable_of_closed (S := h.Trackable) (fun x hx => ?_) (fun x y hx hlink => ?_) hr
  · obtain ⟨c, hc, hpass⟩ := hx x .refl
    rcases q.cell?_edit slot gone h x with hsame | ⟨-, old, new, hold, hnew, hedited⟩
    · exact ⟨c, hsame.trans hc, hpass⟩
    · cases hold.symm.trans hc
      refine ⟨new, hnew, hedited.passable (fun d hd => ?_) hpass⟩
      obtain ⟨y, hy, -⟩ := hputs d hd
      exact ⟨y, hy⟩
  · rcases Request.links_edit hlink with hlink | hy
    · exact hx.links hlink
    · obtain ⟨_, ⟨⟩, hx⟩ := hputs _ hy
      exact hx

end Heap

end Arbor
