import Arbor.Proofs.Scope.Environments
import Arbor.Proofs.Scope.Names
import Arbor.Scope.Binding

set_option autoImplicit false

/-! # Identifiers that introduce names

Some types of nodes have fields in which names stand that are introduced or selected, and not used
(`Layout.namingFields`). In a tree whose lists can be gone through it is always told whether an identifier
introduces a name, and one that does hangs in such a field (`Scope.told_isBindingIdentifier`). -/

namespace Arbor

namespace Scope

/-- The types of nodes that name something, each with the fields in which the names stand. -/
def namingFields : List (Text × List Text) := [
  ("FunctionDeclaration", ["id", "params"]), ("FunctionExpression", ["id", "params"]),
  ("ArrowFunctionExpression", ["params"]), ("ClassDeclaration", ["id"]), ("ClassExpression", ["id"]),
  ("MethodDefinition", ["key"]), ("PropertyDefinition", ["key"]), ("VariableDeclarator", ["id"]),
  ("CatchClause", ["param"]), ("Property", ["key"]), ("MemberExpression", ["property"])]

end Scope

namespace Layout

/-- The fields of a node in which names stand that it introduces or selects. -/
def namingFields (t : Layout) : List Text :=
  match t.type? with
  | some type => (Scope.namingFields.lookup type).getD []
  | none => []

/-- Whether a cell belongs to a field of a node in which names stand. -/
def Names (t : Layout) (r : Ref) : Prop := ∃ name ∈ t.namingFields, r ∈ (t.field name).refs

theorem names_of_type {t : Layout} {type name : Text} (htype : t.type? = some type)
    (hname : name ∈ (Scope.namingFields.lookup type).getD []) {r : Ref}
    (hr : r ∈ (t.field name).refs) : t.Names r := by
  refine ⟨name, ?_, hr⟩
  simp only [namingFields, htype]
  exact hname

/-- What lies in a cell of a field in which names stand is part of what the field holds. -/
theorem exists_field_of_names {p : Ref} {fields : List (Key × Layout)} {r : Ref}
    (hr : (record p fields).Names r) :
    ∃ key ∈ (record p fields).namingFields, ∃ f ∈ fields, f.1 = .text key ∧
      ∃ u ∈ f.2.parts, u.datum = .ref r := by
  obtain ⟨key, hkey, hmem⟩ := hr
  rcases field_of_record p fields key with hnull | ⟨f, hf, heq⟩
  · rw [hnull] at hmem
    cases hmem
  · refine ⟨key, hkey, f, hf, congrArg Prod.fst heq, ?_⟩
    rw [heq]
    exact exists_part hmem

end Layout

namespace Scope

open Layout

variable {h : Heap} {p : Ref} {fields : List (Key × Layout)}

/-- In each of several patterns an identifier is looked for. -/
theorem boundByAny_of_holds {us : List Layout} (hus : ∀ u ∈ us, h.Holds u ∧ u.Iterable) (r : Ref) :
    boundByAny h r (us.map datum) = .ok (us.any fun u => (u.bound.map Prod.fst).contains r) := by
  induction us with
  | nil => rfl
  | cons u rest ih =>
    obtain ⟨⟨hheld, hshaped⟩, hrest⟩ := List.forall_mem_cons.1 hus
    rw [List.map_cons, boundByAny, boundIdentifiers_of_holds hheld hshaped, ih hrest, List.any_cons]
    simp only [bind, Except.bind]
    cases (u.bound.map Prod.fst).contains r <;> rfl

/-- An answer that is given, and is only yes for what stands in a field that names something. -/
def Told (t : Layout) (r : Ref) (answer : Except Fault Bool) : Prop :=
  ∃ b, answer = .ok b ∧ (b = true → t.Names r)

section

variable {type : Text} (ht : h.Holds (.record p fields)) (hw : (record p fields).Iterable)
  (htype : (record p fields).type? = some type)

include ht htype

theorem told_holds (name : Text) (hname : name ∈ (namingFields.lookup type).getD []) (r : Ref)
    {b : Bool} (hb : b = true → h.field p name = .ref r) : Told (.record p fields) r (.ok b) := by
  refine ⟨b, rfl, fun h => names_of_type htype hname (mem_refs_of_datum ?_)⟩
  rw [← ht.field_eq, hb h]

include hw

theorem told_pattern {name : Text} (hname : name ∈ (namingFields.lookup type).getD []) (r : Ref) :
    Told (.record p fields) r (boundByAny h r [h.field p name]) := by
  rw [ht.field_eq, ← List.map_singleton]
  refine ⟨_, boundByAny_of_holds (fun u hu => ?_) r, fun hany => ?_⟩
  · rw [List.mem_singleton.1 hu]
    exact ⟨ht.of_field name, hw.of_field name⟩
  · rw [List.any_cons, List.any_nil, Bool.or_false, List.contains_iff_mem] at hany
    exact names_of_type htype hname ((bound_refs _).subset hany)

theorem told_patterns {name : Text} (hname : name ∈ (namingFields.lookup type).getD [])
    (hlist : name ∈ Heap.listFields) (r : Ref) :
    Told (.record p fields) r (do boundByAny h r (← h.elements (h.field p name))) := by
  have hn := isNode_of_type htype
  have hpart := elements_parts p fields name
  rw [ht.elements_eq hw hn hlist]
  refine ⟨_, boundByAny_of_holds (fun u hu => ⟨ht.of_part (hpart hu), hw.of_part (hpart hu)⟩) r,
    fun hany => ?_⟩
  obtain ⟨u, hu, hmem⟩ := List.any_eq_true.1 hany
  refine names_of_type htype hname ((refs_part (mem_parts_of_items hu)).subset ?_)
  exact (bound_refs u).subset (List.contains_iff_mem.1 hmem)

/-- Whether an identifier introduces a name is told for every type of nodes. -/
theorem told_bindsUnder (r : Ref) : Told (record p fields) r (bindsUnder h r p type) := by
  have hid : ∀ type ∈ functionTypes, type ≠ "ArrowFunctionExpression" →
      ("id" : Text) ∈ (namingFields.lookup type).getD [] := by decide
  have hparams : ∀ type ∈ functionTypes, ("params" : Text) ∈ (namingFields.lookup type).getD [] := by
    decide
  unfold bindsUnder
  simp only
  split
  · next hfunction =>
    have hmem : type ∈ functionTypes := List.contains_iff_mem.1 hfunction
    split
    · next hnamed =>
      exact told_holds ht htype "id" (hid type hmem hnamed.1) r fun _ => of_decide_eq_true hnamed.2
    · exact told_patterns ht hw htype (hparams type hmem) (by decide) r
  split
  · next hclass =>
    refine told_holds ht htype "id" ?_ r of_decide_eq_true
    rcases hclass with rfl | rfl <;> decide
  split
  · next hmember =>
    refine told_holds ht htype "key" ?_ r of_decide_eq_true
    rcases hmember with rfl | rfl <;> decide
  split
  · next hdeclarator =>
    subst hdeclarator
    exact told_pattern ht hw htype (by decide) r
  split
  · next hcatch =>
    subst hcatch
    exact told_pattern ht hw htype (by decide) r
  split
  · next hproperty =>
    subst hproperty
    refine told_holds ht htype "key" (by decide) r fun hb => ?_
    rw [Bool.and_eq_true] at hb
    exact of_decide_eq_true hb.1
  split
  · next hselected =>
    subst hselected
    exact told_holds ht htype "property" (by decide) r of_decide_eq_true
  · exact ⟨false, rfl, fun hb => by cases hb⟩

end

/-- Of every node it is told whether it is an identifier that introduces a name, and one that does hangs
    in a field of its parent in which names stand. -/
theorem told_isBindingIdentifier (ht : h.Holds (.record p fields)) (hw : (record p fields).Iterable)
    {r : Ref} {fs : List (Key × Layout)} (hr : h.Holds (.record r fs)) :
    Told (record p fields) r (isBindingIdentifier h (.ref r) (.ref p)) := by
  rw [isBindingIdentifier, if_neg (by simp [Datum.isNull, Datum.null]), hr.asRecord]
  simp only [bind, Except.bind]
  split
  · exact ⟨false, rfl, fun hb => by cases hb⟩
  · rw [ht.asRecord]
    simp only
    split
    · next type htype =>
      have hnode : (record p fields).type? = some type := by
        rw [← ht.nodeType?, datum_record]
        simp only [Heap.nodeType?, htype]
      exact told_bindsUnder ht hw hnode r
    · exact ⟨false, rfl, fun hb => by cases hb⟩

end Scope

end Arbor
