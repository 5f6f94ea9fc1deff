import Arbor.Proofs.Heap.Load
import Arbor.Proofs.Value.Occurrences
import Arbor.Proofs.Value.Tidy

set_option autoImplicit false

/-! # Patterns as values

What a pattern binds, told from its value, with one rule for each form of pattern (`Value.Binds`). Fields that no
rule reads can be stored in a pattern without changing what it binds (`Value.Binds.set`). Wherever the value is laid
out, a tracker is told of identifiers that spell just these names where they stand (`Value.Binds.bound`). -/

namespace Arbor

/-- A name, and the offset at which it stands. -/
structure Naming where
  name : Text
  start : Int

/-- Where a pattern stands: by itself, or as a member of an object pattern. -/
inductive PatternPlace where
  | alone
  | member

namespace Value

/-- A value binds names, in their order. An element that is left out of an array pattern binds nothing. -/
inductive Binds : PatternPlace → Value → List Naming → Prop
  | hole : Binds .alone .null []
  | identifier {fields : List (Key × Value)} {name : Text} {start : Int}
      (type : typeOf? fields = some "Identifier")
      (name_eq : Fields.get? fields (.text "name") = some (.text name)) (named : name.isEmpty = false)
      (start_eq : startOf? fields = some start) : Binds .alone (.record fields) [⟨name, start⟩]
  | assignment {fields : List (Key × Value)} {v : Value} {ns : List Naming}
      (type : typeOf? fields = some "AssignmentPattern")
      (left : Fields.get? fields (.text "left") = some v) (binds : Binds .alone v ns) :
      Binds .alone (.record fields) ns
  | array {fields : List (Key × Value)} {elements : List (Value × List Naming)}
      (type : typeOf? fields = some "ArrayPattern")
      (list : Fields.get? fields (.text "elements") = some (.list (elements.map Prod.fst)))
      (each : ∀ e ∈ elements, Binds .alone e.1 e.2) :
      Binds .alone (.record fields) (elements.flatMap Prod.snd)
  | object {fields : List (Key × Value)} {members : List (Value × List Naming)}
      (type : typeOf? fields = some "ObjectPattern")
      (list : Fields.get? fields (.text "properties") = some (.list (members.map Prod.fst)))
      (each : ∀ e ∈ members, Binds .member e.1 e.2) :
      Binds .alone (.record fields) (members.flatMap Prod.snd)
  | rest {place : PatternPlace} {fields : List (Key × Value)} {v : Value} {ns : List Naming}
      (type : typeOf? fields = some "RestElement")
      (argument : Fields.get? fields (.text "argument") = some v) (binds : Binds .alone v ns) :
      Binds place (.record fields) ns
  | property {fields : List (Key × Value)} {type : Text} {v : Value} {ns : List Naming}
      (type_eq : typeOf? fields = some type) (not_rest : type ≠ "RestElement")
      (value : Fields.get? fields (.text "value") = some v) (binds : Binds .alone v ns) :
      Binds .member (.record fields) ns

/-- The names of the fields that tell what a pattern binds. -/
def patternKeys : List Text :=
  ["type", "start", "name", "left", "elements", "properties", "argument", "value"]

section

variable {place : PatternPlace} {fields : List (Key × Value)} {ns : List Naming}

/-- What a pattern binds is told from a few of its fields. -/
theorem Binds.congr (h : Binds place (.record fields) ns) {fields' : List (Key × Value)}
    (hkeys : ∀ name ∈ patternKeys, Fields.get? fields' (.text name) = Fields.get? fields (.text name)) :
    Binds place (.record fields') ns := by
  simp only [patternKeys, List.forall_mem_cons] at hkeys
  obtain ⟨htype, hstart, hname, hleft, helements, hproperties, hargument, hvalue, -⟩ := hkeys
  have htypeOf : typeOf? fields' = typeOf? fields := by rw [typeOf?, htype, typeOf?]
  have hstartOf : startOf? fields' = startOf? fields := by rw [startOf?, hstart, startOf?]
  cases h with
  | identifier type name_eq named start_eq =>
    exact .identifier (htypeOf.trans type) (hname.trans name_eq) named (hstartOf.trans start_eq)
  | assignment type left binds => exact .assignment (htypeOf.trans type) (hleft.trans left) binds
  | array type list each => exact .array (htypeOf.trans type) (helements.trans list) each
  | object type list each => exact .object (htypeOf.trans type) (hproperties.trans list) each
  | rest type argument binds => exact .rest (htypeOf.trans type) (hargument.trans argument) binds
  | property type not_rest value binds =>
    exact .property (htypeOf.trans type) not_rest (hvalue.trans value) binds

/-- A pattern binds what it did before when something is stored in it that does not tell what it binds. -/
theorem Binds.set (h : Binds place (.record fields) ns) {name : Text} (hname : name ∉ patternKeys)
    (v : Value) : Binds place (.record (Fields.set fields (.text name) v)) ns := by
  refine h.congr fun name' hname' => Fields.get?_set_of_ne fields v fun heq => hname ?_
  rwa [Scalar.text.inj heq]

end

/-! ## Several patterns -/

/-- Values bind names together, each some of them. -/
def AllBind (place : PatternPlace) (vs : List Value) (ns : List Naming) : Prop :=
  ∃ es : List (Value × List Naming), vs = es.map Prod.fst ∧ ns = es.flatMap Prod.snd ∧
    ∀ e ∈ es, Binds place e.1 e.2

section

variable {place : PatternPlace} {vs : List Value} {fields : List (Key × Value)} {ns : List Naming}

theorem AllBind.nil (place : PatternPlace) : AllBind place [] [] := ⟨[], rfl, rfl, by simp⟩

theorem AllBind.cons {v : Value} {ms : List Naming} (hv : Binds place v ms) (h : AllBind place vs ns) :
    AllBind place (v :: vs) (ms ++ ns) := by
  obtain ⟨es, rfl, rfl, heach⟩ := h
  exact ⟨(v, ms) :: es, rfl, rfl, List.forall_mem_cons.2 ⟨hv, heach⟩⟩

theorem AllBind.array (h : AllBind .alone vs ns) (type : typeOf? fields = some "ArrayPattern")
    (list : Fields.get? fields (.text "elements") = some (.list vs)) : Binds .alone (.record fields) ns := by
  obtain ⟨es, rfl, rfl, heach⟩ := h
  exact .array type list heach

theorem AllBind.object (h : AllBind .member vs ns) (type : typeOf? fields = some "ObjectPattern")
    (list : Fields.get? fields (.text "properties") = some (.list vs)) : Binds .alone (.record fields) ns := by
  obtain ⟨es, rfl, rfl, heach⟩ := h
  exact .object type list heach

end

end Value

/-! ## Patterns that are laid out -/

namespace Layout

variable {r : Ref} {fields : List (Key × Layout)} {name : Text}

theorem exists_record {t : Layout} {fields : List (Key × Value)} (h : t.value = .record fields) :
    ∃ r fs, t = record r fs ∧ fields = valuesOfFields fs := by
  cases t with
  | record r fs =>
    rw [value, Value.record.injEq] at h
    exact ⟨r, fs, rfl, h.symm⟩
  | _ => cases h

theorem eq_scalar {t : Layout} {s : Scalar} (h : t.value = .scalar s) : t = scalar s := by
  cases t with
  | scalar s' => exact congrArg scalar (Value.scalar.inj h)
  | _ => cases h

/-- What is in a field of a value is laid out in the field. -/
theorem field_of_get? {v : Value} (h : Fields.get? (valuesOfFields fields) (.text name) = some v) :
    ((record r fields).field name).value = v ∧ (record r fields).field name ∈ (record r fields).parts := by
  rw [get?_valuesOfFields, Option.map_eq_some_iff] at h
  obtain ⟨u, hu, rfl⟩ := h
  have hfield : (record r fields).field name = u := by rw [field, hu, Option.getD_some]
  rw [hfield]
  exact ⟨rfl, parts_field (Fields.mem_of_get? hu) (mem_parts_self u)⟩

theorem elements_of_get? {vs : List Value}
    (h : Fields.get? (valuesOfFields fields) (.text name) = some (.list vs)) :
    ((record r fields).elements name).map value = vs := by
  obtain ⟨hvalue, -⟩ := field_of_get? (r := r) h
  rw [elements]
  cases hfield : (record r fields).field name with
  | list l us =>
    rw [hfield, value, Value.list.injEq] at hvalue
    rw [items, ← valuesOfItems_eq, hvalue]
  | _ =>
    rw [hfield] at hvalue
    cases hvalue

theorem name?_of_get? {type spelled : Text} (htype : (record r fields).type? = some type)
    (h : Fields.get? (valuesOfFields fields) (.text "name") = some (.text spelled))
    (hspelled : spelled.isEmpty = false) : (record r fields).name? = some spelled := by
  obtain ⟨hvalue, -⟩ := field_of_get? (r := r) h
  rw [name?, isNode, htype, eq_scalar hvalue]
  simp [hspelled]

/-- The identifiers that a layout binds where it stands. -/
def boundAs : PatternPlace → Layout → List (Ref × Text)
  | .alone => bound
  | .member => boundOfProperty

/-- An identifier that is bound lies in a tree and spells a name where it stands. -/
def Spells (t : Layout) (b : Ref × Text) (n : Naming) : Prop :=
  ∃ fields, record b.1 fields ∈ t.parts ∧ (record b.1 fields).name? = some n.name ∧
    Value.startOf? (valuesOfFields fields) = some n.start

/-- What is spelled in a part of a tree is spelled in the tree. -/
theorem spells_part {t u : Layout} (hu : u ∈ t.parts) {bs : List (Ref × Text)} {ns : List Naming}
    (h : List.Forall₂ u.Spells bs ns) : List.Forall₂ t.Spells bs ns := by
  refine h.imp fun b n hspelled => ?_
  obtain ⟨fields, hpart, hname⟩ := hspelled
  exact ⟨fields, parts_subset hu hpart, hname⟩

theorem spells_flatMap {t : Layout} {us : List Layout} {es : List (Value × List Naming)}
    {g : Layout → List (Ref × Text)} (hvalues : us.map value = es.map Prod.fst) (hparts : us ⊆ t.parts)
    (h : ∀ e ∈ es, ∀ u, u.value = e.1 → List.Forall₂ u.Spells (g u) e.2) :
    List.Forall₂ t.Spells (us.flatMap g) (es.flatMap Prod.snd) := by
  induction es generalizing us with
  | nil =>
    rw [List.map_nil, List.map_eq_nil_iff] at hvalues
    rw [hvalues]
    exact .nil
  | cons e es ih =>
    cases us with
    | nil => cases hvalues
    | cons u us =>
      obtain ⟨hu, hus⟩ := List.cons_eq_cons.1 hvalues
      obtain ⟨he, hes⟩ := List.forall_mem_cons.1 h
      obtain ⟨hpart, hrest⟩ := List.cons_subset.1 hparts
      rw [List.flatMap_cons, List.flatMap_cons]
      exact List.rel_append (spells_part hpart (he u hu)) (ih hus hrest hes)

end Layout

open Layout in
/-- A tracker that is shown a pattern finds identifiers that spell the names it binds, one for each. -/
theorem Value.Binds.bound {place : PatternPlace} {v : Value} {ns : List Naming} (h : v.Binds place ns)
    (t : Layout) (ht : t.value = v) : List.Forall₂ t.Spells (t.boundAs place) ns := by
  induction h generalizing t with
  | hole =>
    rw [eq_scalar ht]
    exact .nil
  | identifier type name_eq named start_eq =>
    obtain ⟨r, fields, rfl, rfl⟩ := exists_record ht
    have htype := (type?_record r fields).trans type
    have hname := name?_of_get? htype name_eq named
    rw [boundAs, bound_record htype, if_pos rfl, hname]
    exact .cons ⟨fields, mem_parts_self _, hname, start_eq⟩ .nil
  | assignment type left binds ih =>
    obtain ⟨r, fields, rfl, rfl⟩ := exists_record ht
    obtain ⟨hvalue, hpart⟩ := field_of_get? (r := r) left
    rw [boundAs, bound_record ((type?_record r fields).trans type), if_neg (by decide), if_pos rfl]
    exact spells_part hpart (ih _ hvalue)
  | array type list each ih =>
    obtain ⟨r, fields, rfl, rfl⟩ := exists_record ht
    rw [boundAs, bound_record ((type?_record r fields).trans type), if_neg (by decide), if_neg (by decide),
      if_neg (by decide), if_pos rfl]
    exact spells_flatMap (elements_of_get? list) (elements_parts r fields _) ih
  | object type list each ih =>
    obtain ⟨r, fields, rfl, rfl⟩ := exists_record ht
    rw [boundAs, bound_record ((type?_record r fields).trans type), if_neg (by decide), if_neg (by decide),
      if_neg (by decide), if_neg (by decide), if_pos rfl]
    exact spells_flatMap (elements_of_get? list) (elements_parts r fields _) ih
  | @rest place _ _ _ type argument binds ih =>
    obtain ⟨r, fields, rfl, rfl⟩ := exists_record ht
    have htype := (type?_record r fields).trans type
    obtain ⟨hvalue, hpart⟩ := field_of_get? (r := r) argument
    cases place with
    | alone =>
      rw [boundAs, bound_record htype, if_neg (by decide), if_neg (by decide), if_pos rfl]
      exact spells_part hpart (ih _ hvalue)
    | member =>
      rw [boundAs, boundOfProperty, htype]
      simp only [boundInField_eq r]
      exact spells_part hpart (ih _ hvalue)
  | property type not_rest value binds ih =>
    obtain ⟨r, fields, rfl, rfl⟩ := exists_record ht
    obtain ⟨hvalue, hpart⟩ := field_of_get? (r := r) value
    rw [boundAs, boundOfProperty, (type?_record r fields).trans type]
    simp only [if_neg not_rest, boundInField_eq r]
    exact spells_part hpart (ih _ hvalue)

/-- The name that an identifier spells, where it stands. -/
def Heap.naming? (h : Heap) (r : Ref) : Option Naming := do
  let name ← h.name? (.ref r)
  let start ← h.startOf? r
  pure ⟨name, start⟩

theorem Layout.Spells.naming? {h : Heap} {t : Layout} (ht : h.Holds t) {b : Ref × Text} {n : Naming}
    (hb : t.Spells b n) : h.naming? b.1 = some n := by
  obtain ⟨fields, hpart, hname, hstart⟩ := hb
  have hheld := ht.of_part hpart
  have hspelled : h.name? (.ref b.1) = some n.name := hheld.name?_eq.trans hname
  rw [Heap.naming?, hspelled, hheld.startOf?, hstart]
  rfl

/-- Wherever a value is loaded, a tracker that is shown it as a pattern finds identifiers that are all different,
    one for each of these names. -/
def Scope.Finds (v : Value) (ns : List Naming) : Prop :=
  ∀ h : Heap, ∃ refs, boundIdentifiers (h.load v).2 (h.load v).1 = .ok refs ∧ refs.Nodup ∧
    refs.map (h.load v).2.naming? = ns.map some

/-- A tracker finds the names that a tidy pattern binds. -/
theorem Value.Binds.finds {v : Value} {ns : List Naming} (h : v.Binds .alone ns) (hv : v.Tidy) :
    Scope.Finds v ns := by
  intro heap
  obtain ⟨hvalue, hnodup, hheld⟩ := heap.holds_loaded v
  have hiter : (heap.loaded v).Iterable := Layout.iterable_of_tidy (by rwa [hvalue])
  have hfound := Scope.boundIdentifiers_of_holds hheld hiter
  rw [heap.datum_loaded] at hfound
  refine ⟨_, hfound, (Layout.bound_refs _).nodup hnodup, ?_⟩
  have hspelled := (h.bound _ hvalue).imp fun b n hb => Layout.Spells.naming? hheld hb
  rw [List.map_map, ← List.forall₂_eq_eq_eq, List.forall₂_map_left_iff, List.forall₂_map_right_iff]
  exact hspelled

end Arbor
