import Arbor.Proofs.Heap.Parts
import Arbor.Proofs.Scope.Shape
import Mathlib.Data.List.Flatten

set_option autoImplicit false

/-! # Names in a layout

What a tracker reads of a node, told from the layout of the node alone: the name of a node, the
elements of a field, and the identifiers that a pattern binds (`Layout.bound`). In a heap that holds the
layout the tracker reads just that (`Scope.boundIdentifiers_of_holds`), as long as the fields in which it
looks for lists can be gone through (`Layout.Iterable`), which they can if they hold lists
(`Layout.WellShaped`). -/

namespace Arbor

namespace Layout

/-! ## Fields -/

/-- What a field of a record holds, null if the record does not have it. -/
def field (t : Layout) (name : Text) : Layout :=
  match t with
  | record _ fields => (Fields.get? fields (.text name)).getD (scalar .null)
  | _ => scalar .null

/-- The elements of a list. -/
def items : Layout → List Layout
  | list _ items => items
  | _ => []

/-- The elements of the list in a field. -/
def elements (t : Layout) (name : Text) : List Layout := (t.field name).items

/-- The name of a syntax node, if it is a text that is not empty. -/
def name? (t : Layout) : Option Text :=
  if t.isNode then
    match t.field "name" with
    | scalar (.text name) => if name.isEmpty then none else some name
    | _ => none
  else none

/-- What may be in a field in which a tracker looks for a list: a list, or nothing. -/
def Listed : Layout → Prop
  | list _ _ => True
  | t => t = scalar .null

instance (t : Layout) : Decidable t.Listed :=
  match t with
  | list _ _ => isTrue trivial
  | scalar s => decidable_of_iff (s = .null) (by simp [Listed])
  | record _ _ => isFalse (by simp [Listed])

/-- In all nodes of a tree the fields in which a tracker looks for lists hold lists, if they hold
    anything. -/
def WellShaped (t : Layout) : Prop :=
  ∀ u ∈ t.parts, u.isNode = true → ∀ name ∈ Heap.listFields, (u.field name).Listed

instance (t : Layout) : Decidable t.WellShaped :=
  inferInstanceAs (Decidable (∀ u ∈ t.parts, u.isNode = true →
    ∀ name ∈ Heap.listFields, (u.field name).Listed))

/-- In all nodes of a tree the fields in which a tracker looks for lists can be gone through. -/
def Iterable (t : Layout) : Prop :=
  ∀ u ∈ t.parts, u.isNode = true → ∀ name ∈ Heap.listFields, (u.field name).datum.isIterable = true

instance (t : Layout) : Decidable t.Iterable :=
  inferInstanceAs (Decidable (∀ u ∈ t.parts, u.isNode = true →
    ∀ name ∈ Heap.listFields, (u.field name).datum.isIterable = true))

theorem WellShaped.iterable {t : Layout} (ht : t.WellShaped) : t.Iterable := by
  intro u hu hn name hname
  have hlisted := ht u hu hn name hname
  generalize u.field name = v at hlisted
  cases v with
  | list r items => rfl
  | scalar s =>
    cases (hlisted : scalar s = scalar .null)
    rfl
  | record r fields => rfl

/-- A field that cannot be gone through holds a scalar. -/
theorem exists_scalar_of_not_iterable {t : Layout} (ht : ¬ t.Iterable) :
    ∃ u ∈ t.parts, u.isNode = true ∧ ∃ name ∈ Heap.listFields, ∃ s : Scalar,
      u.field name = scalar s ∧ s.isIterable = false := by
  simp only [Iterable, not_forall, exists_prop, Bool.not_eq_true] at ht
  obtain ⟨u, hu, hn, name, hname, hdatum⟩ := ht
  refine ⟨u, hu, hn, name, hname, ?_⟩
  generalize u.field name = v at hdatum
  cases v with
  | scalar s => exact ⟨s, rfl, hdatum⟩
  | list r items => cases hdatum
  | record r fields => cases hdatum

/-! ## Patterns -/

mutual

/-- The identifiers that a pattern binds, in source order, each with its name. -/
def bound : Layout → List (Ref × Text)
  | scalar _ => []
  | list _ _ => []
  | record r fields =>
    match (record r fields).type? with
    | none => []
    | some type =>
      if type = "Identifier" then ((record r fields).name?.map fun name => (r, name)).toList
      else if type = "AssignmentPattern" then boundInField "left" fields
      else if type = "RestElement" then boundInField "argument" fields
      else if type = "ArrayPattern" then boundInElements "elements" fields
      else if type = "ObjectPattern" then boundInProperties "properties" fields
      else []

/-- The identifiers that the pattern in a field binds. -/
def boundInField (name : Text) : List (Key × Layout) → List (Ref × Text)
  | [] => []
  | (key, t) :: rest => if key = .text name then bound t else boundInField name rest

/-- The identifiers that the patterns of the list in a field bind. -/
def boundInElements (name : Text) : List (Key × Layout) → List (Ref × Text)
  | [] => []
  | (key, t) :: rest => if key = .text name then boundOfList t else boundInElements name rest

/-- The identifiers that the patterns in a list bind. -/
def boundOfList : Layout → List (Ref × Text)
  | list _ items => boundOfItems items
  | scalar _ => []
  | record _ _ => []

/-- The identifiers that several patterns bind. -/
def boundOfItems : List Layout → List (Ref × Text)
  | [] => []
  | t :: rest => bound t ++ boundOfItems rest

/-- The identifiers that the properties of the list in a field bind. -/
def boundInProperties (name : Text) : List (Key × Layout) → List (Ref × Text)
  | [] => []
  | (key, t) :: rest => if key = .text name then boundOfShapes t else boundInProperties name rest

/-- The identifiers that the properties in a list bind. -/
def boundOfShapes : Layout → List (Ref × Text)
  | list _ items => boundOfProperties items
  | scalar _ => []
  | record _ _ => []

/-- The identifiers that several properties bind. -/
def boundOfProperties : List Layout → List (Ref × Text)
  | [] => []
  | t :: rest => boundOfProperty t ++ boundOfProperties rest

/-- The identifiers that a property binds: those of its value, or of its argument if it takes up the
    rest. -/
def boundOfProperty : Layout → List (Ref × Text)
  | scalar _ => []
  | list _ _ => []
  | record r fields =>
    match (record r fields).type? with
    | none => []
    | some kind => boundInField (if kind = "RestElement" then "argument" else "value") fields

end

theorem field_cons (r : Ref) (name : Text) (key : Key) (t : Layout) (rest : List (Key × Layout)) :
    (record r ((key, t) :: rest)).field name =
      if key = .text name then t else (record r rest).field name := by
  rw [field, field, Fields.get?_cons]
  split <;> rfl

theorem boundInField_eq (r : Ref) (name : Text) (fields : List (Key × Layout)) :
    boundInField name fields = ((record r fields).field name).bound := by
  induction fields with
  | nil => rfl
  | cons f rest ih =>
    rw [boundInField, field_cons, ih]
    split <;> rfl

theorem boundOfItems_eq (items : List Layout) : boundOfItems items = items.flatMap bound := by
  induction items with
  | nil => rfl
  | cons t rest ih => rw [boundOfItems, ih, List.flatMap_cons]

theorem boundOfProperties_eq (items : List Layout) :
    boundOfProperties items = items.flatMap boundOfProperty := by
  induction items with
  | nil => rfl
  | cons t rest ih => rw [boundOfProperties, ih, List.flatMap_cons]

theorem boundOfList_eq (t : Layout) : boundOfList t = t.items.flatMap bound := by
  cases t with
  | list r items => exact boundOfItems_eq items
  | _ => rfl

theorem boundOfShapes_eq (t : Layout) : boundOfShapes t = t.items.flatMap boundOfProperty := by
  cases t with
  | list r items => exact boundOfProperties_eq items
  | _ => rfl

theorem boundInElements_eq (r : Ref) (name : Text) (fields : List (Key × Layout)) :
    boundInElements name fields = ((record r fields).elements name).flatMap bound := by
  rw [elements, ← boundOfList_eq]
  induction fields with
  | nil => rfl
  | cons f rest ih =>
    rw [boundInElements, field_cons, ih]
    split <;> rfl

theorem boundInProperties_eq (r : Ref) (name : Text) (fields : List (Key × Layout)) :
    boundInProperties name fields = ((record r fields).elements name).flatMap boundOfProperty := by
  rw [elements, ← boundOfShapes_eq]
  induction fields with
  | nil => rfl
  | cons f rest ih =>
    rw [boundInProperties, field_cons, ih]
    split <;> rfl

theorem bound_record {r : Ref} {fields : List (Key × Layout)} {type : Text}
    (ht : (record r fields).type? = some type) :
    (record r fields).bound =
      if type = "Identifier" then ((record r fields).name?.map fun name => (r, name)).toList
      else if type = "AssignmentPattern" then ((record r fields).field "left").bound
      else if type = "RestElement" then ((record r fields).field "argument").bound
      else if type = "ArrayPattern" then ((record r fields).elements "elements").flatMap bound
      else if type = "ObjectPattern" then
        ((record r fields).elements "properties").flatMap boundOfProperty
      else [] := by
  rw [bound, ht]
  simp only [boundInField_eq r, boundInElements_eq r, boundInProperties_eq r]

theorem bound_of_not_isNode {t : Layout} (hn : t.isNode = false) : t.bound = [] := by
  cases t with
  | record r fields =>
    rw [isNode, Option.isSome_eq_false_iff, Option.isNone_iff_eq_none] at hn
    rw [bound, hn]
  | _ => rfl

/-! ## Parts that are reached by fields -/

theorem field_of_record (r : Ref) (fields : List (Key × Layout)) (name : Text) :
    (record r fields).field name = scalar .null ∨
      ∃ f ∈ fields, f = (.text name, (record r fields).field name) := by
  rcases hg : Fields.get? fields (.text name) with _ | t
  · left
    simp [field, hg]
  · right
    exact ⟨(.text name, t), Fields.mem_of_get? hg, by simp [field, hg]⟩

theorem field_part (t : Layout) (name : Text) :
    t.field name = scalar .null ∨ t.field name ∈ t.parts := by
  cases t with
  | record r fields =>
    refine (field_of_record r fields name).imp id ?_
    rintro ⟨f, hf, rfl⟩
    exact parts_field hf (mem_parts_self _)
  | _ => exact .inl rfl

theorem mem_parts_of_items {t u : Layout} (hu : u ∈ t.items) : u ∈ t.parts := by
  cases t with
  | list r items => exact parts_item hu (mem_parts_self u)
  | _ => cases hu

/-- The elements of the list in a field lie in one field of the record. -/
theorem elements_of_record {r : Ref} {fields : List (Key × Layout)} {name : Text} {u : Layout}
    (hu : u ∈ (record r fields).elements name) : ∃ f ∈ fields, u ∈ f.2.parts := by
  rcases field_of_record r fields name with hnull | ⟨f, hf, heq⟩
  · rw [elements, hnull] at hu
    cases hu
  · exact ⟨f, hf, mem_parts_of_items (by rw [heq]; exact hu)⟩

/-- The elements of the list in a field are parts of the record. -/
theorem elements_parts (r : Ref) (fields : List (Key × Layout)) (name : Text) :
    (record r fields).elements name ⊆ (record r fields).parts := by
  intro u hu
  obtain ⟨f, hf, hpart⟩ := elements_of_record hu
  exact parts_field hf hpart

/-- What a field binds lies in one field of the record. -/
theorem bound_field {r : Ref} {fields : List (Key × Layout)} {name : Text} {b : Ref × Text}
    (hb : b ∈ ((record r fields).field name).bound) :
    ∃ f ∈ fields, (record r fields).field name ∈ f.2.parts := by
  rcases field_of_record r fields name with hnull | ⟨f, hf, heq⟩
  · rw [hnull] at hb
    cases hb
  · refine ⟨f, hf, ?_⟩
    rw [heq]
    exact mem_parts_self _

/-- What a property binds its value binds, or its argument. -/
theorem bound_property {u : Layout} {b : Ref × Text} (hb : b ∈ u.boundOfProperty) :
    ∃ v ∈ u.parts, b ∈ v.bound := by
  cases u with
  | record p fs =>
    cases htype : (record p fs).type? with
    | none =>
      rw [boundOfProperty, htype] at hb
      cases hb
    | some kind =>
      rw [boundOfProperty, htype] at hb
      simp only [boundInField_eq p] at hb
      obtain ⟨f, hf, hpart⟩ := bound_field hb
      exact ⟨_, parts_field hf hpart, hb⟩
  | _ => cases hb

/-- The identifiers that a pattern binds lie in it and have the names that are bound. -/
theorem exists_of_mem_bound {t : Layout} {b : Ref × Text} (hb : b ∈ t.bound) :
    ∃ v ∈ t.parts, v.datum = .ref b.1 ∧ v.name? = some b.2 := by
  induction t using induction_parts with
  | scalar s => cases hb
  | list r items => cases hb
  | record r fields ih =>
    -- what is bound below the node lies in one of its fields
    have below {f : Key × Layout} (hf : f ∈ fields) {v : Layout} (hv : v ∈ f.2.parts)
        (hb : b ∈ v.bound) :
        ∃ v ∈ (record r fields).parts, v.datum = .ref b.1 ∧ v.name? = some b.2 := by
      obtain ⟨x, hx, hfound⟩ := ih f hf v hv hb
      exact ⟨x, parts_field hf (parts_subset hv hx), hfound⟩
    have field {name : Text} (hb : b ∈ ((record r fields).field name).bound) :
        ∃ v ∈ (record r fields).parts, v.datum = .ref b.1 ∧ v.name? = some b.2 := by
      obtain ⟨f, hf, hpart⟩ := bound_field hb
      exact below hf hpart hb
    cases htype : (record r fields).type? with
    | none =>
      rw [bound_of_not_isNode (by rw [isNode, htype]; rfl)] at hb
      cases hb
    | some type =>
      rw [bound_record htype] at hb
      split at hb
      · obtain ⟨name, hname, rfl⟩ := by simpa using hb
        exact ⟨_, mem_parts_self _, rfl, hname⟩
      split at hb
      · exact field hb
      split at hb
      · exact field hb
      split at hb
      · obtain ⟨u, hu, hb⟩ := List.mem_flatMap.1 hb
        obtain ⟨f, hf, hpart⟩ := elements_of_record hu
        exact below hf hpart hb
      split at hb
      · obtain ⟨u, hu, hb⟩ := List.mem_flatMap.1 hb
        obtain ⟨f, hf, hpart⟩ := elements_of_record hu
        obtain ⟨v, hv, hb⟩ := bound_property hb
        exact below hf (parts_subset hpart hv) hb
      · cases hb

theorem field_refs (t : Layout) (name : Text) : (t.field name).refs.Sublist t.refs := by
  rcases t.field_part name with hnull | hpart
  · rw [hnull]
    exact List.nil_sublist _
  · exact refs_part hpart

theorem elements_refs (t : Layout) (name : Text) : (refsOf (t.elements name)).Sublist t.refs := by
  refine List.Sublist.trans ?_ (field_refs t name)
  rw [elements]
  cases t.field name with
  | list r items => exact (refs_list r items).symm ▸ List.sublist_cons_self r _
  | _ => exact List.nil_sublist _

/-- The identifiers that a pattern binds lie in its cells, in their order. -/
theorem bound_refs (t : Layout) : (t.bound.map Prod.fst).Sublist t.refs := by
  induction t using induction_parts with
  | scalar s => exact List.nil_sublist _
  | list r items => exact List.nil_sublist _
  | record r fields ih =>
    -- what is reached through a field lies below the node
    have field {p : Ref} {fs : List (Key × Layout)}
        (hbelow : ∀ f ∈ fs, (f.2.bound.map Prod.fst).Sublist f.2.refs) (name : Text) :
        (((record p fs).field name).bound.map Prod.fst).Sublist (record p fs).refs := by
      refine List.Sublist.trans ?_ (field_refs _ name)
      rcases field_of_record p fs name with hnull | ⟨f, hf, heq⟩
      · rw [hnull]
        exact List.nil_sublist _
      · have hfield := hbelow f hf
        rwa [heq] at hfield
    have elements {name : Text} {g : Layout → List (Ref × Text)}
        (hbelow : ∀ u ∈ (record r fields).elements name, ((g u).map Prod.fst).Sublist u.refs) :
        ((((record r fields).elements name).flatMap g).map Prod.fst).Sublist (record r fields).refs := by
      rw [List.map_flatMap]
      exact (List.Sublist.flatMap_right _ hbelow).trans (elements_refs _ name)
    cases htype : (record r fields).type? with
    | none =>
      rw [bound_of_not_isNode (by rw [isNode, htype]; rfl)]
      exact List.nil_sublist _
    | some type =>
      rw [bound_record htype]
      split
      · cases (record r fields).name? with
        | none => exact List.nil_sublist _
        | some name => exact List.singleton_sublist.2 (mem_refs_of_datum rfl)
      split
      · exact field (fun f hf => ih f hf _ (mem_parts_self _)) "left"
      split
      · exact field (fun f hf => ih f hf _ (mem_parts_self _)) "argument"
      split
      · refine elements fun u hu => ?_
        obtain ⟨f, hf, hpart⟩ := elements_of_record hu
        exact ih f hf u hpart
      split
      · refine elements fun u hu => ?_
        obtain ⟨f, hf, hpart⟩ := elements_of_record hu
        cases u with
        | record p fs =>
          rw [boundOfProperty]
          split
          · exact List.nil_sublist _
          · rw [boundInField_eq p]
            exact field (fun f' hf' => ih f hf _
              (parts_subset hpart (parts_field hf' (mem_parts_self _)))) _
        | _ => exact List.nil_sublist _
      · exact List.nil_sublist _

theorem Iterable.of_part {t u : Layout} (ht : t.Iterable) (hu : u ∈ t.parts) : u.Iterable :=
  fun v hv => ht v (parts_subset hu hv)

theorem Iterable.of_field {t : Layout} (ht : t.Iterable) (name : Text) : (t.field name).Iterable := by
  rcases t.field_part name with hnull | hpart
  · rw [hnull]
    intro u hu hn
    rw [List.mem_singleton.1 hu] at hn
    cases hn
  · exact ht.of_part hpart

end Layout

namespace Heap

open Layout

variable {h : Heap} {t : Layout} {r : Ref} {fields : List (Key × Layout)}

theorem holds_scalar (h : Heap) (s : Scalar) : h.Holds (.scalar s) :=
  fun _ he => absurd he List.not_mem_nil

theorem Holds.field_eq (ht : h.Holds (.record r fields)) (name : Text) :
    h.field r name = ((record r fields).field name).datum := by
  rw [ht.field, Layout.field]
  cases Fields.get? fields (.text name) <;> rfl

theorem Holds.asRecord (ht : h.Holds (.record r fields)) : h.asRecord (.ref r) = .ok r := by
  rw [asRecord_ref, ht.fields?]
  rfl

theorem Holds.of_field (ht : h.Holds t) (name : Text) : h.Holds (t.field name) := by
  rcases t.field_part name with hnull | hpart
  · rw [hnull]
    exact holds_scalar h _
  · exact ht.of_part hpart

theorem Holds.name?_eq (ht : h.Holds t) : h.name? t.datum = t.name? := by
  cases t with
  | record r fields =>
    have hnode : h.nodeType? (.ref r) = (record r fields).type? := ht.nodeType?
    rw [Layout.name?, Layout.isNode]
    cases htype : (record r fields).type? with
    | none =>
      rw [htype] at hnode
      simp [Heap.name?, hnode]
    | some type =>
      rw [htype] at hnode
      simp only [datum_record, Heap.name?, hnode, ht.field_eq]
      rcases (record r fields).field "name" with (_ | _ | _ | _ | _) | _ | _ <;> rfl
  | list r items =>
    have hnode : h.nodeType? (.ref r) = none := ht.nodeType?
    simp [Heap.name?, hnode, Layout.name?, Layout.isNode, Layout.type?]
  | scalar s => rfl

/-- What is reached by one link from a part of a tree that the heap holds lies in the tree. -/
theorem Holds.exists_part_of_links (ht : h.Holds t) {u : Layout} (hu : u ∈ t.parts) {x y : Ref}
    (hy : u.datum = .ref y) (hlink : h.Links y x) : ∃ v ∈ t.parts, v.datum = .ref x := by
  have hheld := ht.of_part hu
  cases u with
  | scalar s => cases hy
  | list l items =>
    cases hy
    have hc := ((holds_list_iff h _ items).1 hheld).1
    rcases hlink with ⟨_, _, hf, -⟩ | ⟨items', hi, hmem⟩
    · simp [Heap.fields?, hc] at hf
    · simp only [Heap.items?, hc, Option.some.injEq] at hi
      subst hi
      obtain ⟨v, hv, hdatum⟩ := List.mem_map.1 hmem
      exact ⟨v, parts_subset hu (parts_item hv (mem_parts_self v)), hdatum⟩
  | record l fields =>
    cases hy
    have hc := ((holds_record_iff h _ fields).1 hheld).1
    rcases hlink with ⟨fields', key, hf, hmem⟩ | ⟨_, hi, -⟩
    · simp only [Heap.fields?, hc, Option.some.injEq] at hf
      subst hf
      obtain ⟨f, hf, hdatum⟩ := List.mem_map.1 hmem
      exact ⟨f.2, parts_subset hu (parts_field hf (mem_parts_self _)), congrArg Prod.snd hdatum⟩
    · simp [Heap.items?, hc] at hi

/-- What is reached from the root of a tree that the heap holds lies in the tree. -/
theorem Holds.exists_part_of_reaches (ht : h.Holds t) (hr : t.datum = .ref r) {x : Ref}
    (hx : h.Reaches r x) : ∃ u ∈ t.parts, u.datum = .ref x := by
  induction hx with
  | refl => exact ⟨t, mem_parts_self t, hr⟩
  | tail _ hlink ih =>
    obtain ⟨u, hu, hy⟩ := ih
    exact ht.exists_part_of_links hu hy hlink

/-- A tracker can enter the nodes of a tree that the heap holds, unless a list in the tree cannot be gone
    through. -/
theorem Holds.failsBy (ht : h.Holds t) {u : Layout} (hu : u ∈ t.parts) (hr : u.datum = .ref r) :
    h.FailsBy (fun f => f = .notIterable ∧ ¬ t.Iterable) r := by
  intro x hx hnode name hname f hf
  obtain ⟨v, hv, hdatum⟩ := (ht.of_part hu).exists_part_of_reaches hr hx
  have hpart := Layout.parts_subset hu hv
  have hheld := ht.of_part hpart
  rw [← hdatum, hheld.isNode] at hnode
  cases v with
  | record l fields =>
    cases hdatum
    obtain ⟨hfault, hscalar⟩ := elements_eq_error hf
    refine ⟨hfault, fun hiter => ?_⟩
    rw [hheld.field_eq, hiter _ hpart hnode name hname] at hscalar
    cases hscalar
  | _ => cases hnode

/-- The elements of a field in which a tracker looks for a list. -/
theorem Holds.elements_eq (ht : h.Holds (.record r fields)) (hw : (record r fields).Iterable)
    (hn : (record r fields).isNode = true) {name : Text} (hname : name ∈ Heap.listFields) :
    h.elements (h.field r name) = .ok (((record r fields).elements name).map datum) := by
  have hiter := hw _ (mem_parts_self _) hn name hname
  have hfield := ht.of_field name
  rw [ht.field_eq, Layout.elements]
  generalize (record r fields).field name = u at hiter hfield
  cases u with
  | list l items =>
    have hc := ((holds_list_iff h l items).1 hfield).1
    cases items with
    | nil => simp [Heap.elements, Heap.isTruthy, hc, Layout.items]
    | cons v rest => simp [Heap.elements, Heap.isTruthy, Heap.items?, hc, Layout.items]
  | scalar s =>
    exact (elements_scalar h s).trans (if_pos hiter)
  | record l fields =>
    have hc := ((holds_record_iff h l fields).1 hfield).1
    rw [datum_record, Heap.elements]
    split <;> simp [Heap.items?, hc, Layout.items]

end Heap

namespace Scope

open Layout

variable {h : Heap} {r : Ref} {fields : List (Key × Layout)} {name : Text}

/-- What is found of each element is found of the list. -/
theorem mapM_map_eq_ok {α β γ ε : Type} {d : α → β} {f : β → Except ε γ} {g : α → γ} {l : List α}
    (hf : ∀ a ∈ l, f (d a) = .ok (g a)) : (l.map d).mapM f = .ok (l.map g) := by
  induction l with
  | nil => rfl
  | cons a l ih =>
    obtain ⟨ha, hl⟩ := List.forall_mem_cons.1 hf
    rw [List.map_cons, List.mapM_cons, ha, ih hl]
    rfl

/-- The pattern in a field is followed if those in all fields are. -/
theorem boundWithin_field {depth : Nat} (ht : h.Holds (.record r fields))
    (hf : ∀ f ∈ fields, boundWithin h depth f.2.datum = .ok (f.2.bound.map Prod.fst)) (name : Text) :
    boundWithin h depth (h.field r name) =
      .ok (((record r fields).field name).bound.map Prod.fst) := by
  rw [ht.field_eq]
  rcases field_of_record r fields name with hnull | ⟨f, hmem, heq⟩
  · rw [hnull]
    cases depth <;> rfl
  · have hfield := hf f hmem
    rwa [heq] at hfield

/-- What the elements of a field bind is bound together. -/
theorem boundIn_elements (ht : h.Holds (.record r fields)) (hw : (record r fields).Iterable)
    (hn : (record r fields).isNode = true) (hname : name ∈ Heap.listFields)
    {f : Datum → Except Fault (List Ref)} {g : Layout → List (Ref × Text)}
    (hf : ∀ u ∈ (record r fields).elements name, f u.datum = .ok ((g u).map Prod.fst)) :
    (do
      let items ← h.elements (h.field r name)
      pure (← items.mapM f).flatten) =
      .ok ((((record r fields).elements name).flatMap g).map Prod.fst) := by
  rw [ht.elements_eq hw hn hname]
  simp only [bind, Except.bind]
  rw [mapM_map_eq_ok hf, List.map_flatMap, List.flatMap_def]
  rfl

/-- Of properties the values are followed, or the arguments. -/
theorem boundIn_properties (depth : Nat) (ht : h.Holds (.record r fields))
    (hw : (record r fields).Iterable) (hn : (record r fields).isNode = true)
    (hbelow : ∀ f ∈ fields, ∀ v ∈ f.2.parts,
      boundWithin h depth v.datum = .ok (v.bound.map Prod.fst))
    {f : Datum → Except Fault (List Ref)} (hnone : ∀ d, h.nodeType? d = none → f d = .ok [])
    (hsome : ∀ p kind, h.nodeType? (.ref p) = some kind → f (.ref p) =
      boundWithin h depth (h.field p (if kind = "RestElement" then "argument" else "value"))) :
    (do
      let items ← h.elements (h.field r "properties")
      pure (← items.mapM f).flatten) =
      .ok ((((record r fields).elements "properties").flatMap boundOfProperty).map Prod.fst) := by
  refine boundIn_elements ht hw hn (by decide) fun u hu => ?_
  obtain ⟨g, hg, hpart⟩ := elements_of_record hu
  have hheld := ht.of_part (elements_parts r fields _ hu)
  cases htype : u.type? with
  | none =>
    rw [hnone _ (hheld.nodeType?.trans htype)]
    cases u <;> simp [boundOfProperty, htype]
  | some kind =>
    cases u with
    | record p fs =>
      rw [datum_record, hsome p kind (hheld.nodeType?.trans htype),
        boundWithin_field hheld fun f' hf' =>
          hbelow g hg _ (parts_subset hpart (parts_field hf' (mem_parts_self _))),
        boundOfProperty, htype]
      simp only [boundInField_eq p]
    | _ => cases htype

/-- The nodes through which a pattern is followed are all different, so that their number is bounded by
    the number of cells. -/
theorem boundWithin_of_holds (depth : Nat) {t : Layout} (ht : h.Holds t) (hw : t.Iterable)
    (seen : List Ref) (hseen : seen.Nodup) (hlt : ∀ x ∈ seen, x < h.cells.size)
    (hapart : ∀ x ∈ seen, x ∉ t.refs) (hdepth : h.cells.size < seen.length + depth) :
    boundWithin h depth t.datum = .ok (t.bound.map Prod.fst) := by
  induction depth generalizing t seen with
  | zero =>
    have hsub : seen ⊆ List.range h.cells.size := fun x hx => List.mem_range.2 (hlt x hx)
    have hle := (hseen.subperm hsub).length_le
    rw [List.length_range] at hle
    omega
  | succ depth ih =>
    cases t with
    | scalar s => rfl
    | list l items =>
      have htype : h.nodeType? (.ref l) = none := ht.nodeType?
      simp only [datum_list, boundWithin, htype]
      rfl
    | record r fields =>
      -- what lies in the fields is followed through one node more
      have below {f : Key × Layout} (hf : f ∈ fields) {u : Layout} (hu : u ∈ f.2.parts) :
          boundWithin h depth u.datum = .ok (u.bound.map Prod.fst) := by
        have hpart := parts_field (r := r) hf hu
        have hr : r ∉ u.refs := fun hr =>
          ht.not_mem_refs_field hf ((refs_part hu).subset hr)
        refine ih (ht.of_part hpart) (hw.of_part hpart) (r :: seen) ?_ ?_ ?_ ?_
        · refine List.nodup_cons.2 ⟨fun hmem => hapart r hmem ?_, hseen⟩
          exact mem_refs_of_datum rfl
        · exact List.forall_mem_cons.2 ⟨ht.lt (mem_refs_of_datum rfl), hlt⟩
        · refine List.forall_mem_cons.2 ⟨hr, fun x hx hmem => hapart x hx ?_⟩
          exact (refs_part hpart).subset hmem
        · rw [List.length_cons]
          omega
      have field := boundWithin_field ht fun f hf => below hf (mem_parts_self f.2)
      rcases htype : (record r fields).type? with _ | type
      · have hnode : h.nodeType? (.ref r) = none := ht.nodeType?.trans htype
        simp only [datum_record, boundWithin, hnode, bound, htype]
        rfl
      · have hnode : h.nodeType? (.ref r) = some type := ht.nodeType?.trans htype
        have hn := isNode_of_type htype
        have hname : h.name? (.ref r) = (record r fields).name? := ht.name?_eq
        simp only [datum_record, boundWithin, hnode, hname, bound_record htype]
        split
        · cases (record r fields).name? <;> rfl
        split
        · exact field _
        split
        · exact field _
        split
        · refine boundIn_elements ht hw hn (by decide) fun u hu => ?_
          obtain ⟨f, hf, hpart⟩ := elements_of_record hu
          exact below hf hpart
        split
        · refine boundIn_properties depth ht hw hn (fun _ hf _ hv => below hf hv) (fun d hd => ?_)
            (fun p kind hp => ?_)
          · cases d <;> simp only [hd]
          · simp only [hp]
        · rfl

/-- A tracker finds the identifiers that a pattern binds. -/
theorem boundIdentifiers_of_holds {t : Layout} (ht : h.Holds t) (hw : t.Iterable) :
    boundIdentifiers h t.datum = .ok (t.bound.map Prod.fst) :=
  boundWithin_of_holds _ ht hw [] .nil (by simp) (by simp) (by simp)

end Scope

end Arbor
