import Arbor.Proofs.Heap.Layout

set_option autoImplicit false

/-! # Edits of a slot

An edit of a slot changes the content of one cell: of the parent, when the slot is a field, or of the
list in the field, when it is an element (`Heap.target?`, `Heap.cell?_editSlot`). Two edits of the
same slot therefore combine as edits of that content: the last replacement counts, and a removal
after a replacement is a removal. Heaps that agree on the cells of a slot still agree after the same
edit. -/

namespace Arbor

namespace Fields

variable {K V : Type} [DecidableEq K]

@[simp] theorem keys_append {K V : Type} (fields fields' : Fields K V) :
    keys (fields ++ fields') = fields.keys ++ fields'.keys := List.map_append ..

theorem set_set (fields : Fields K V) (key : K) (v w : V) :
    (fields.set key v).set key w = fields.set key w := by
  induction fields with
  | nil => simp [set]
  | cons entry rest ih =>
    obtain ⟨k, u⟩ := entry
    by_cases h : k = key
    · simp [set, h]
    · simp [set, h, ih]

theorem erase_set (fields : Fields K V) (key : K) (v : V) :
    (fields.set key v).erase key = fields.erase key := by
  induction fields with
  | nil => simp [set, erase]
  | cons entry rest ih =>
    obtain ⟨k, u⟩ := entry
    by_cases h : k = key
    · simp [set, erase, h]
    · simp [set, erase, h, ih]

/-- Storing what is stored changes nothing. -/
theorem set_of_get? {fields : Fields K V} {key : K} {v : V} (h : get? fields key = some v) :
    fields.set key v = fields := by
  induction fields with
  | nil => simp at h
  | cons entry rest ih =>
    obtain ⟨k, u⟩ := entry
    rw [get?_cons] at h
    by_cases hk : k = key
    · rw [if_pos hk] at h
      cases h
      simp [set, hk]
    · rw [if_neg hk] at h
      simp [set, hk, ih h]

/-- What is there after storing was there before, or is what was stored. -/
theorem mem_set {fields : Fields K V} {key : K} {value : V} {f : K × V}
    (hf : f ∈ fields.set key value) : f = (key, value) ∨ f ∈ fields := by
  induction fields with
  | nil => exact .inl (List.mem_singleton.1 hf)
  | cons entry rest ih =>
    obtain ⟨k, v⟩ := entry
    rw [Fields.set] at hf
    split at hf
    · next hk =>
      subst hk
      exact (List.mem_cons.1 hf).imp id (List.mem_cons_of_mem _)
    · rcases List.mem_cons.1 hf with rfl | hf
      · exact .inr (List.mem_cons_self ..)
      · exact (ih hf).imp id (List.mem_cons_of_mem _)

theorem mem_of_mem_erase {fields : Fields K V} {key : K} {f : K × V} (hf : f ∈ fields.erase key) :
    f ∈ fields := by
  induction fields with
  | nil => exact hf
  | cons entry rest ih =>
    obtain ⟨k, v⟩ := entry
    rw [Fields.erase] at hf
    split at hf
    · exact List.mem_cons_of_mem _ hf
    · rcases List.mem_cons.1 hf with rfl | hf
      · exact List.mem_cons_self ..
      · exact List.mem_cons_of_mem _ (ih hf)

/-- Of keys that differ, each has stored what the fields hold for it. -/
theorem get?_of_mem {fields : Fields K V} {key : K} {v : V} (hk : fields.keys.Nodup)
    (hm : (key, v) ∈ fields) : get? fields key = some v := by
  induction fields with
  | nil => cases hm
  | cons entry rest ih =>
    obtain ⟨k, u⟩ := entry
    obtain ⟨hfirst, hrest⟩ := List.nodup_cons.1 hk
    rw [get?_cons]
    split
    · next heq =>
      subst heq
      rcases List.mem_cons.1 hm with heq | hm
      · rw [(Prod.mk.inj heq).2]
      · exact absurd (List.mem_map_of_mem hm) hfirst
    · next hne =>
      rcases List.mem_cons.1 hm with heq | hm
      · exact absurd (Prod.mk.inj heq).1.symm hne
      · exact ih hrest hm

/-- The first field with a key is the one that counts. -/
theorem get?_append_cons {pre : Fields K V} {key : K} (h : key ∉ pre.keys) (v : V) (rest : Fields K V) :
    get? (pre ++ (key, v) :: rest) key = some v := by
  induction pre with
  | nil => rw [List.nil_append, get?_cons, if_pos rfl]
  | cons entry pre ih =>
    obtain ⟨k, u⟩ := entry
    simp only [keys, List.map_cons, List.mem_cons, not_or] at h
    rw [List.cons_append, get?_cons, if_neg (Ne.symm h.1), ih h.2]

theorem set_append_of_not_mem {pre : Fields K V} {key : K} (h : key ∉ pre.keys)
    (rest : Fields K V) (v : V) : (pre ++ rest).set key v = pre ++ rest.set key v := by
  induction pre with
  | nil => rfl
  | cons entry pre ih =>
    obtain ⟨k, u⟩ := entry
    simp only [keys, List.map_cons, List.mem_cons, not_or] at h
    simp only [List.cons_append, set, if_neg (Ne.symm h.1), ih h.2]

theorem set_of_not_mem {fields : Fields K V} {key : K} (h : key ∉ fields.keys) (v : V) :
    fields.set key v = fields ++ [(key, v)] := by
  have := set_append_of_not_mem h [] v
  rwa [List.append_nil] at this

theorem erase_append_of_not_mem {pre : Fields K V} {key : K} (h : key ∉ pre.keys)
    (rest : Fields K V) : (pre ++ rest).erase key = pre ++ rest.erase key := by
  induction pre with
  | nil => rfl
  | cons entry pre ih =>
    obtain ⟨k, u⟩ := entry
    simp only [keys, List.map_cons, List.mem_cons, not_or] at h
    simp only [List.cons_append, erase, if_neg (Ne.symm h.1), ih h.2]

end Fields

namespace Heap

/-- Two heaps agree on the cells that `S` names. -/
def AgreeOn (S : Ref → Prop) (h h' : Heap) : Prop := ∀ x, S x → h'.cell? x = h.cell? x

theorem ext_cell? {h h' : Heap} (heq : ∀ x, h.cell? x = h'.cell? x) : h = h' := by
  obtain ⟨a⟩ := h
  obtain ⟨b⟩ := h'
  exact congrArg Heap.mk (Array.ext_getElem? heq)

/-! ## The cell that an edit changes -/

/-- The cell that an edit of a slot changes. -/
def target? (h : Heap) (slot : Slot) : Option Ref :=
  match slot.parent? with
  | none => none
  | some parent =>
    if slot.key = .null then none
    else match h.fields? parent, slot.index? with
      | none, _ => none
      | some _, none => some parent
      | some fields, some _ =>
        match Fields.get? fields slot.key with
        | some (.ref r) => if (h.items? r).isSome then some r else none
        | _ => none

/-- What an edit makes of the content of the cell. -/
def Slot.editCell (slot : Slot) (onFields : Fields Key Datum → Fields Key Datum)
    (onItems : Int → List Datum → List Datum) : Cell → Cell
  | .record fields => .record (onFields fields)
  | .list items =>
    match slot.index? with
    | some index => .list (onItems index items)
    | none => .list items

variable (h : Heap) (slot : Slot) (onFields : Fields Key Datum → Fields Key Datum)
  (onItems : Int → List Datum → List Datum)

theorem fields?_eq_some {r : Ref} {fields : Fields Key Datum} :
    h.fields? r = some fields ↔ h.cell? r = some (.record fields) := by
  rw [fields?]
  split
  · next hc => rw [hc]; simp
  · next hc => exact ⟨by simp, fun e => absurd e (hc fields)⟩

theorem items?_eq_some {r : Ref} {items : List Datum} :
    h.items? r = some items ↔ h.cell? r = some (.list items) := by
  rw [items?]
  split
  · next hc => rw [hc]; simp
  · next hc => exact ⟨by simp, fun e => absurd e (hc items)⟩

/-- An edit of a slot changes the content of its target and no other cell. -/
theorem cell?_editSlot (x : Ref) :
    (h.editSlot slot onFields onItems).cell? x =
      if h.target? slot = some x then (h.cell? x).map (slot.editCell onFields onItems)
      else h.cell? x := by
  -- wherever the slot leads, an edit puts at most one cell
  have put {r : Ref} {old new : Cell} (hc : h.cell? r = some old)
      (hnew : slot.editCell onFields onItems old = new) :
      (h.put r new).cell? x =
        if some r = some x then (h.cell? x).map (slot.editCell onFields onItems)
        else h.cell? x := by
    rw [cell?_put]
    by_cases hx : r = x
    · subst hx
      rw [if_pos ⟨rfl, cell?_lt hc⟩, if_pos rfl, hc, Option.map_some, hnew]
    · rw [if_neg (fun e => hx e.1), if_neg (fun e => hx (Option.some.inj e))]
  obtain ⟨parent?, key, index?⟩ := slot
  rcases parent? with _ | parent
  · rfl
  · simp only [editSlot, target?]
    by_cases hk : key = .null
    · simp only [if_pos hk, reduceCtorEq, if_false]
    · simp only [if_neg hk]
      rcases hf : h.fields? parent with _ | fields
      · rfl
      · rcases index? with _ | index
        · exact put ((fields?_eq_some h).1 hf) rfl
        · rcases hg : Fields.get? fields key with _ | (s | r)
          · simp [hg]
          · simp [hg]
          · rcases hi : h.items? r with _ | items
            · simp [hg, hi]
            · simp only [hg, hi, Option.isSome_some, if_true]
              exact put ((items?_eq_some h).1 hi) rfl

@[simp] theorem size_editSlot :
    (h.editSlot slot onFields onItems).cells.size = h.cells.size := by
  have put (r : Ref) (c : Cell) : (h.put r c).cells.size = h.cells.size := by simp [Heap.put]
  unfold editSlot
  repeat' split
  all_goals first | rfl | exact put _ _

@[simp] theorem size_replaceAt (d : Datum) : (h.replaceAt slot d).cells.size = h.cells.size :=
  size_editSlot ..

@[simp] theorem size_insertAt (d : Datum) : (h.insertAt slot d).cells.size = h.cells.size :=
  size_editSlot ..

@[simp] theorem size_removeAt : (h.removeAt slot).cells.size = h.cells.size := size_editSlot ..

/-- The target is a record, the parent itself, or a list. -/
theorem target?_eq_some {r : Ref} (ht : h.target? slot = some r) :
    ∃ parent fields, slot.parent? = some parent ∧ slot.key ≠ .null ∧
      h.cell? parent = some (.record fields) ∧
      ((slot.index? = none ∧ parent = r) ∨
        ∃ index items, slot.index? = some index ∧ Fields.get? fields slot.key = some (.ref r) ∧
          h.cell? r = some (.list items)) := by
  obtain ⟨parent?, key, index?⟩ := slot
  rcases parent? with _ | parent
  · cases ht
  · simp only [target?] at ht
    by_cases hk : key = .null
    · rw [if_pos hk] at ht
      cases ht
    · rw [if_neg hk] at ht
      rcases hf : h.fields? parent with _ | fields
      · simp [hf] at ht
      · have hcell := (fields?_eq_some h).1 hf
        rcases index? with _ | index
        · simp only [hf, Option.some.injEq] at ht
          exact ⟨parent, fields, rfl, hk, hcell, .inl ⟨rfl, ht⟩⟩
        · rcases hg : Fields.get? fields key with _ | (s | r')
          · simp [hf, hg] at ht
          · simp [hf, hg] at ht
          · rcases hi : h.items? r' with _ | items
            · simp [hf, hg, hi] at ht
            · simp only [hf, hg, hi, Option.isSome_some, if_true, Option.some.injEq] at ht
              subst ht
              exact ⟨parent, fields, rfl, hk, hcell,
                .inr ⟨index, items, rfl, hg, (items?_eq_some h).1 hi⟩⟩

variable {h slot}

theorem target?_field {parent : Ref} {key : Key} {fields : Fields Key Datum} (hk : key ≠ .null)
    (hp : h.cell? parent = some (.record fields)) :
    h.target? ⟨some parent, key, none⟩ = some parent := by
  simp only [target?, if_neg hk, (fields?_eq_some h).2 hp]

theorem target?_item {parent r : Ref} {key : Key} {fields : Fields Key Datum} {items : List Datum}
    (index : Int) (hk : key ≠ .null) (hp : h.cell? parent = some (.record fields))
    (hg : Fields.get? fields key = some (.ref r)) (hr : h.cell? r = some (.list items)) :
    h.target? ⟨some parent, key, some index⟩ = some r := by
  simp only [target?, if_neg hk, (fields?_eq_some h).2 hp, hg, (items?_eq_some h).2 hr,
    Option.isSome_some, if_true]

/-- A heap that agrees on the parent and the target of a slot has the same target. -/
theorem AgreeOn.target? {S : Ref → Prop} {h' : Heap} {r : Ref} (ha : AgreeOn S h h')
    (ht : h.target? slot = some r) (hr : S r) (hp : ∀ parent, slot.parent? = some parent → S parent) :
    h'.target? slot = some r := by
  obtain ⟨parent, fields, hparent, hk, hcell, ⟨hindex, rfl⟩ | ⟨index, items, hindex, hg, hlist⟩⟩ :=
    target?_eq_some h slot ht
  · obtain ⟨_, key, _⟩ := slot
    cases hparent
    cases hindex
    exact target?_field hk ((ha _ hr).trans hcell)
  · obtain ⟨_, key, _⟩ := slot
    cases hparent
    cases hindex
    exact target?_item index hk ((ha _ (hp _ rfl)).trans hcell) hg ((ha _ hr).trans hlist)

/-- An edit of a slot leaves the slot's target where it is. -/
theorem target?_editSlot {r : Ref} (ht : h.target? slot = some r) :
    (h.editSlot slot onFields onItems).target? slot = some r := by
  obtain ⟨parent, fields, hparent, hk, hcell, ⟨hindex, rfl⟩ | ⟨index, items, hindex, hg, hlist⟩⟩ :=
    target?_eq_some h slot ht
  · have hnew := cell?_editSlot h slot onFields onItems parent
    rw [if_pos ht, hcell] at hnew
    obtain ⟨_, key, _⟩ := slot
    cases hparent
    cases hindex
    exact target?_field hk hnew
  · -- the target is a list and the parent a record, so the edit leaves the parent as it is
    have hne : r ≠ parent := fun e => by simp [e, hcell] at hlist
    have hold := cell?_editSlot h slot onFields onItems parent
    rw [ht, if_neg (fun e => hne (Option.some.inj e)), hcell] at hold
    have hnew := cell?_editSlot h slot onFields onItems r
    rw [if_pos ht, hlist] at hnew
    obtain ⟨_, key, _⟩ := slot
    cases hparent
    cases hindex
    exact target?_item index hk hold hg hnew

/-- The same edit keeps heaps in agreement. -/
theorem AgreeOn.editSlot {S : Ref → Prop} {h' : Heap} (ha : AgreeOn S h h')
    (ht : h'.target? slot = h.target? slot) :
    AgreeOn S (h.editSlot slot onFields onItems) (h'.editSlot slot onFields onItems) := by
  intro x hx
  rw [cell?_editSlot, cell?_editSlot, ht, ha x hx]

/-! ## Edits one after the other -/

theorem editSlot_of_target?_eq_none (ht : h.target? slot = none) :
    h.editSlot slot onFields onItems = h := by
  refine ext_cell? fun x => ?_
  rw [cell?_editSlot, ht, if_neg (by simp)]

/-- Two edits of a slot are one edit of the content of the cell. -/
theorem editSlot_editSlot (onFields' : Fields Key Datum → Fields Key Datum)
    (onItems' : Int → List Datum → List Datum) :
    (h.editSlot slot onFields onItems).editSlot slot onFields' onItems' =
      h.editSlot slot (onFields' ∘ onFields) (fun i items => onItems' i (onItems i items)) := by
  rcases ht : h.target? slot with _ | r
  · rw [editSlot_of_target?_eq_none _ _ ht, editSlot_of_target?_eq_none _ _ ht,
      editSlot_of_target?_eq_none _ _ ht]
  · refine ext_cell? fun x => ?_
    rw [cell?_editSlot, cell?_editSlot, cell?_editSlot, target?_editSlot _ _ ht, ht]
    split
    · rw [Option.map_map]
      congr 1
      funext c
      obtain ⟨_, _, index?⟩ := slot
      cases c <;> cases index? <;> rfl
    · rfl

/-- The last replacement counts. -/
theorem replaceAt_replaceAt (h : Heap) (slot : Slot) (d₁ d₂ : Datum) :
    (h.replaceAt slot d₁).replaceAt slot d₂ = h.replaceAt slot d₂ := by
  rw [replaceAt, replaceAt, replaceAt, editSlot_editSlot]
  congr 1
  · funext fields
    exact Fields.set_set ..
  · funext index items
    by_cases hi : inList index items = true
    · have hi' : inList index (items.set index.toNat d₁) = true := by
        rwa [inList, List.length_set]
      simp only [hi, hi', if_true, List.set_set]
    · simp only [hi, if_false, Bool.false_eq_true]

/-- A replacement that is taken out again might as well not have been made. -/
theorem removeAt_replaceAt (h : Heap) (slot : Slot) (d : Datum) :
    (h.replaceAt slot d).removeAt slot = h.removeAt slot := by
  rw [replaceAt, removeAt, removeAt, editSlot_editSlot]
  congr 1
  · funext fields
    exact Fields.erase_set ..
  · funext index items
    by_cases hi : inList index items = true
    · have hi' : inList index (items.set index.toNat d) = true := by
        rwa [inList, List.length_set]
      simp only [hi, hi', if_true, List.eraseIdx_set_eq]
    · simp only [hi, if_false, Bool.false_eq_true]

/-! ## Slots that hold a datum -/

/-- A slot holds a datum: it is a field or an element that does, or the slot of a root. -/
inductive Leads (h : Heap) (d : Datum) : Slot → Prop
  | root : Leads h d .root
  | field {parent : Ref} {key : Key} {fields : Fields Key Datum} (hk : key ≠ .null)
      (hp : h.cell? parent = some (.record fields)) (hg : Fields.get? fields key = some d) :
      Leads h d ⟨some parent, key, none⟩
  | item {parent r : Ref} {key : Key} {fields : Fields Key Datum} {pre post : List Datum}
      (hk : key ≠ .null) (hp : h.cell? parent = some (.record fields))
      (hg : Fields.get? fields key = some (.ref r)) (hr : h.cell? r = some (.list (pre ++ d :: post))) :
      Leads h d ⟨some parent, key, some pre.length⟩

theorem inList_length (pre : List Datum) (d : Datum) (post : List Datum) :
    inList pre.length (pre ++ d :: post) = true := by
  have hlt : (pre.length : Int) < (pre ++ d :: post).length := by
    rw [List.length_append, List.length_cons]
    omega
  exact decide_eq_true hlt

theorem insertIdx_insertPosition (pre post : List Datum) (d : Datum) :
    (pre ++ post).insertIdx (insertPosition (pre ++ post).length pre.length) d = pre ++ d :: post := by
  have hpos : insertPosition (pre ++ post).length pre.length = pre.length := by
    rw [insertPosition, if_neg (Int.not_lt.2 (Int.natCast_nonneg _)), List.length_append]
    exact Nat.min_eq_left (Nat.le_add_right _ _)
  rw [hpos]
  clear hpos
  induction pre with
  | nil => rfl
  | cons e pre ih => exact congrArg (e :: ·) ih

/-- Putting what a slot holds in its place changes nothing. -/
theorem Leads.replaceAt_self {d : Datum} (hl : h.Leads d slot) : h.replaceAt slot d = h := by
  refine ext_cell? fun x => ?_
  rw [replaceAt, cell?_editSlot]
  split
  next ht =>
    cases hl with
    | root => simp [target?, Slot.root] at ht
    | field hk hp hg =>
      rw [target?_field hk hp, Option.some.injEq] at ht
      rw [← ht, hp, Option.map_some, Slot.editCell, Fields.set_of_get? hg]
    | item hk hp hg hr =>
      rw [target?_item _ hk hp hg hr, Option.some.injEq] at ht
      rw [← ht, hr, Option.map_some]
      simp [Slot.editCell, inList_length]
  · rfl

end Heap

end Arbor
