import Arbor.Proofs.Heap.Load
import Arbor.Proofs.Lowering.Outcome
import Arbor.Proofs.Walk.FreeNames
import Mathlib.Data.List.Pairwise

set_option autoImplicit false

/-! # The names that a parsed function uses

In a program there are identifiers that name no variable: those behind a dot, the keys of members, labels, and
the words of `new.target`. No name is reported for a function because of an identifier of the first two sorts,
whatever the syntax tree was that the function comes from; of the other two every one is reported for which
nothing is declared (`undeclaredNames_lowered`). -/

namespace Arbor

open Scope (undeclaredNames isBindingIdentifier bindsUnder)

variable {h : Heap}

namespace Scope

/-- The fields that hold the names of members, by the types of the nodes that have them. -/
def memberFields : List (Text × List Text) := [
  ("MemberExpression", ["property"]), ("Property", ["key"]), ("MethodDefinition", ["key"]),
  ("PropertyDefinition", ["key"])]

/-- The fields that hold labels and the words of a meta property. -/
def labelFields : List (Text × List Text) := [
  ("LabeledStatement", ["label"]), ("BreakStatement", ["label"]), ("ContinueStatement", ["label"]),
  ("MetaProperty", ["meta", "property"])]

end Scope

/-- Whether a node stands in one of the given fields of the node it is reached from, and not in brackets. -/
def Spot.StandsIn (a : Spot) (t : Layout) (places : List (Text × List Text)) : Prop :=
  ∃ u ∈ t.parts, u.datum = a.parent ∧ (u.field "computed").datum ≠ .scalar (.bool true) ∧
    ∃ place ∈ places, u.type? = some place.1 ∧ ∃ key ∈ place.2, (u.field key).datum = .ref a.node

instance (a : Spot) (t : Layout) (places : List (Text × List Text)) : Decidable (a.StandsIn t places) :=
  inferInstanceAs (Decidable (∃ u ∈ t.parts, u.datum = a.parent ∧
    (u.field "computed").datum ≠ .scalar (.bool true) ∧
    ∃ place ∈ places, u.type? = some place.1 ∧ ∃ key ∈ place.2, (u.field key).datum = .ref a.node))

namespace Layout

/-- Two fields of a record without sharing do not hold the same node. -/
theorem eq_of_field_datum {p r : Ref} {fields : List (Key × Layout)}
    (hrefs : (record p fields).refs.Nodup) {key key' : Text}
    (hkey : ((record p fields).field key).datum = .ref r)
    (hkey' : ((record p fields).field key').datum = .ref r) : key = key' := by
  have stored {key : Text} (hkey : ((record p fields).field key).datum = .ref r) :
      ∃ f ∈ fields, f.1 = .text key ∧ r ∈ f.2.refs := by
    rcases field_of_record p fields key with hnull | ⟨f, hf, heq⟩
    · rw [hnull] at hkey
      cases hkey
    · exact ⟨f, hf, congrArg Prod.fst heq, mem_refs_of_datum (heq ▸ hkey)⟩
  obtain ⟨f, hf, hname, hr⟩ := stored hkey
  obtain ⟨f', hf', hname', hr'⟩ := stored hkey'
  rw [refs_record, List.nodup_cons, refsOf, List.flatMap_map, List.nodup_flatMap] at hrefs
  have hsymm : Std.Symm (Function.onFun List.Disjoint fun f : Key × Layout => f.2.refs) :=
    ⟨fun _ _ hapart _ hx hy => hapart hy hx⟩
  -- two fields have no cells in common
  have hsame : f = f' := of_not_not fun hne => hrefs.2.2.forall hf hf' hne hr hr'
  rw [hsame, hname'] at hname
  cases hname
  rfl

end Layout

namespace Scope

open Layout

variable {p : Ref} {fields : List (Key × Layout)} {a : Spot} {type : Text}

/-- Whether an identifier introduces a name is told by the type of the node it is reached from. -/
theorem isBindingIdentifier_of_holds (ht : h.Holds (record p fields)) (ha : h.Holds a.layout)
    (htype : (record p fields).type? = some type) {name : Text} (hid : a.identifier? = some name) :
    isBindingIdentifier h (.ref a.node) (.ref p) = bindsUnder h a.node p type := by
  have hnode : h.nodeType? (.ref p) = some type := by
    rw [← htype, ← ht.nodeType?]
    rfl
  have hidentifier := ((identifier?_of_holds ha name).1 hid).1
  have hrecord : h.asRecord (.ref a.node) = .ok a.node := Heap.Holds.asRecord ha
  rw [isBindingIdentifier, if_neg (by simp [Datum.isNull, Datum.null]), hrecord]
  simp only [bind, Except.bind, hidentifier, ht.asRecord, field_of_type hnode]
  rfl

/-- An identifier that names a member counts as one that introduces a name. -/
theorem bindsUnder_memberFields (ht : h.Holds (record p fields))
    (hrefs : (record p fields).refs.Nodup) {place : Text × List Text} (hplace : place ∈ memberFields)
    {key : Text} (hkey : key ∈ place.2) {r : Ref}
    (hfield : ((record p fields).field key).datum = .ref r) :
    bindsUnder h r p place.1 = .ok true := by
  have hheld := ht.field_eq key
  rw [hfield] at hheld
  simp only [memberFields, List.mem_cons, List.not_mem_nil, or_false] at hplace
  rcases hplace with rfl | rfl | rfl | rfl <;> rw [List.mem_singleton.1 hkey] at hheld hfield
  case inr.inl =>
    -- the value of a property is another node than its key
    have hvalue : h.field p "value" ≠ .ref r := by
      rw [ht.field_eq]
      intro hvalue
      have hsame := eq_of_field_datum hrefs hfield hvalue
      revert hsame
      decide
    simp [bindsUnder, functionTypes, hheld, hvalue]
  all_goals simp [bindsUnder, functionTypes, hheld]

/-- A label, or a word of a meta property, does not. -/
theorem bindsUnder_labelFields {place : Text × List Text} (hplace : place ∈ labelFields) (r p : Ref) :
    bindsUnder h r p place.1 = .ok false := by
  simp only [labelFields, List.mem_cons, List.not_mem_nil, or_false] at hplace
  rcases hplace with rfl | rfl | rfl | rfl <;> rfl

end Scope

/-! ## Places of identifiers -/

section

variable {t : Layout} {a : Spot} {name : Text}

/-- What an identifier counts as in one of the given fields. -/
theorem Spot.StandsIn.binds {places : List (Text × List Text)} (hplaced : a.StandsIn t places)
    (ht : h.Holds t) (ha : a.layout ∈ t.parts) (hid : a.identifier? = some name) :
    ∃ p fields, Layout.record p fields ∈ t.parts ∧ ∃ place ∈ places, ∃ key ∈ place.2,
      ((Layout.record p fields).field key).datum = .ref a.node ∧
      isBindingIdentifier h (.ref a.node) a.parent = bindsUnder h a.node p place.1 := by
  obtain ⟨u, hu, hdatum, -, place, hplace, htype, key, hkey, hfield⟩ := hplaced
  cases u with
  | record p fields =>
    refine ⟨p, fields, hu, place, hplace, key, hkey, hfield, ?_⟩
    rw [← hdatum]
    exact Scope.isBindingIdentifier_of_holds (ht.of_part hu) (ht.of_part ha) htype hid
  | _ => cases htype

theorem Spot.StandsIn.binds_member (hplaced : a.StandsIn t Scope.memberFields)
    (hrefs : t.refs.Nodup) (ht : h.Holds t) (ha : a.layout ∈ t.parts)
    (hid : a.identifier? = some name) :
    isBindingIdentifier h (.ref a.node) a.parent = .ok true := by
  obtain ⟨p, fields, hu, place, hplace, key, hkey, hfield, hbinds⟩ := hplaced.binds ht ha hid
  rw [hbinds]
  exact Scope.bindsUnder_memberFields (ht.of_part hu) ((Layout.refs_part hu).nodup hrefs) hplace hkey
    hfield

theorem Spot.StandsIn.binds_label (hplaced : a.StandsIn t Scope.labelFields) (ht : h.Holds t)
    (ha : a.layout ∈ t.parts) (hid : a.identifier? = some name) :
    isBindingIdentifier h (.ref a.node) a.parent = .ok false := by
  obtain ⟨p, -, -, place, hplace, -, -, -, hbinds⟩ := hplaced.binds ht ha hid
  rw [hbinds]
  exact Scope.bindsUnder_labelFields hplace a.node p

end

/-- Of a function in a tidy tree no name is reported because of the names of members alone, while all labels
    are reported for which nothing is declared. -/
theorem undeclaredNames_of_tidy {t : Layout} (htidy : t.value.Tidy) (hrefs : t.refs.Nodup)
    (ht : h.Holds t) {type : Text} (htype : t.type? = some type)
    (hfunction : type ∈ Scope.functionTypes) :
    ∃ names, undeclaredNames h t.datum = .ok names ∧
      (∀ name ∈ names, ∃ a ∈ t.spots skipNone, a.identifier? = some name ∧
        (∀ f ∈ t.filings skipNone, f.1 <+: a.path → f.2.name ≠ name) ∧
        ¬ a.StandsIn t Scope.memberFields) ∧
      ∀ a ∈ t.spots skipNone, ∀ name, a.identifier? = some name →
        (∀ f ∈ t.filings skipNone, f.1 <+: a.path → f.2.name ≠ name) →
          a.StandsIn t Scope.labelFields → name ∈ names := by
  have hn : t.isNode = true := by
    rw [Layout.isNode, htype]
    rfl
  have hwithin (a : Spot) (ha : a ∈ t.spots skipNone) : a.layout ∈ t.parts :=
    (Layout.spots_within hn skipNone a ha).1
  obtain ⟨hnames, -⟩ := undeclaredNames_of_function hfunction htype hrefs
    (Layout.keysOnce_of_tidy htidy) (Layout.iterable_of_tidy htidy) ht
  refine ⟨_, hnames, fun name hname => ?_, fun a ha name hid hfree hplaced => ?_⟩
  · rw [List.mem_eraseDups, Layout.uses, List.mem_flatMap] at hname
    obtain ⟨a, ha, hname⟩ := hname
    obtain ⟨hid, hbinds, hfree⟩ := Spot.mem_uses.1 hname
    refine ⟨a, ha, hid, Spot.not_sees.1 hfree, fun hplaced => ?_⟩
    rw [hplaced.binds_member hrefs ht (hwithin a ha) hid] at hbinds
    cases hbinds
  · rw [List.mem_eraseDups, Layout.uses, List.mem_flatMap]
    exact ⟨a, ha, Spot.mem_uses.2 ⟨hid, hplaced.binds_label ht (hwithin a ha) hid,
      Spot.not_sees.2 hfree⟩⟩

/-- Whatever the syntax tree of a source is, for every function in its program the analysis ends, and of the
    names that are reported each is that of an identifier for which nothing is declared and that does not name
    a member. Labels and the words of meta properties are reported as if they were read. -/
theorem undeclaredNames_lowered {source : Source} {sourceType : Scalar} {root : Cst} {program : Value}
    (hprogram : Lowering.programOf source (.scalar sourceType) root = .ok program) (h : Heap)
    {t : Layout} (ht : t ∈ (h.loaded program).parts) {type : Text} (htype : t.type? = some type)
    (hfunction : type ∈ Scope.functionTypes) :
    ∃ names, undeclaredNames (h.load program).2 t.datum = .ok names ∧
      (∀ name ∈ names, ∃ a ∈ t.spots skipNone, a.identifier? = some name ∧
        (∀ f ∈ t.filings skipNone, f.1 <+: a.path → f.2.name ≠ name) ∧
        ¬ a.StandsIn t Scope.memberFields) ∧
      ∀ a ∈ t.spots skipNone, ∀ name, a.identifier? = some name →
        (∀ f ∈ t.filings skipNone, f.1 <+: a.path → f.2.name ≠ name) →
          a.StandsIn t Scope.labelFields → name ∈ names := by
  obtain ⟨hvalue, hrefs, hheld⟩ := h.holds_loaded program
  have hallows : root.Everywhere fun u =>
      Lowering.Allows (fun _ => True) source u.token (u.children.map Tree.token) := by
    intro u hu
    exact ⟨fun body _ => by cases Literal.unescape body <;> trivial, fun _ _ => trivial,
      fun c _ _ => .inr ⟨trivial, trivial⟩⟩
  have hyields := Lowering.programOf_yields hallows (.scalar sourceType)
  rw [hprogram] at hyields
  have htidy : (h.loaded program).value.Tidy := by
    rw [hvalue]
    exact hyields (.scalar sourceType)
  exact undeclaredNames_of_tidy (Layout.tidy_part htidy ht) ((Layout.refs_part ht).nodup hrefs)
    (hheld.of_part ht) htype hfunction

namespace Sample

/-- The syntax of `function f(){a:b.c}`. -/
def labelled : Cst :=
  .branch "program" 0 19 none [
    .branch "function_declaration" 0 19 none [
      .leaf "function" false 0 8 none,
      .leaf "identifier" true 9 10 (some "name"),
      .branch "formal_parameters" 10 12 (some "parameters") [
        .leaf "(" false 10 11 none, .leaf ")" false 11 12 none],
      .branch "statement_block" 12 19 (some "body") [
        .leaf "\x7b" false 12 13 none,
        .branch "labeled_statement" 13 18 none [
          .leaf "statement_identifier" true 13 14 (some "label"),
          .leaf ":" false 14 15 none,
          .branch "expression_statement" 15 18 (some "body") [
            .branch "member_expression" 15 18 none [
              .leaf "identifier" true 15 16 (some "object"),
              .leaf "." false 16 17 none,
              .leaf "property_identifier" true 17 18 (some "property")]]],
        .leaf "\x7d" false 18 19 none]]]

def labelledSource : Source := .ofText "function f()\x7ba:b.c\x7d"

def labelledProgram : Value :=
  (Lowering.programOf labelledSource (.scalar (.text "module")) labelled).toOption.getD .null

/-- The function of this program. -/
def labelledFunction : Layout :=
  ((Heap.empty.loaded labelledProgram).parts.find? fun t =>
    t.type? = some ("FunctionDeclaration" : Text)).getD (.scalar .null)

theorem labelledFunction_part : labelledFunction ∈ (Heap.empty.loaded labelledProgram).parts :=
  List.mem_of_find?_eq_some (p := fun t => t.type? = some ("FunctionDeclaration" : Text)) rfl

/-- The name of the member is not reported, but the label is. -/
theorem undeclaredNames_lowered_labelled :
    ∃ names, undeclaredNames (Heap.empty.load labelledProgram).2 labelledFunction.datum = .ok names ∧
      ("c" : Text) ∉ names ∧ ("a" : Text) ∈ names := by
  have hprogram : Lowering.programOf labelledSource (.scalar (.text "module")) labelled =
      .ok labelledProgram := rfl
  obtain ⟨names, hnames, hreads, hlabels⟩ :=
    undeclaredNames_lowered hprogram Heap.empty labelledFunction_part rfl (by decide)
  refine ⟨names, hnames, fun hc => ?_, ?_⟩
  · obtain ⟨a, ha, hid, -, hplaced⟩ := hreads "c" hc
    have hmembers : ∀ a ∈ labelledFunction.spots skipNone, a.identifier? = some ("c" : Text) →
        a.StandsIn labelledFunction Scope.memberFields := by decide
    exact hplaced (hmembers a ha hid)
  · obtain ⟨a, ha, hid, hfree, hplaced⟩ : ∃ a ∈ labelledFunction.spots skipNone,
        a.identifier? = some ("a" : Text) ∧
          (∀ f ∈ labelledFunction.filings skipNone, f.1 <+: a.path → f.2.name ≠ "a") ∧
          a.StandsIn labelledFunction Scope.labelFields := by decide
    exact hlabels a ha "a" hid hfree hplaced

/-- The label is reported beside the name that is read, and stands nowhere else in the function. -/
theorem undeclaredNames_label :
    Lowering.programOf labelledSource (.scalar (.text "module")) labelled = .ok labelledProgram ∧
      undeclaredNames (Heap.empty.load labelledProgram).2 labelledFunction.datum = .ok ["a", "b"] ∧
      ∀ a ∈ labelledFunction.spots skipNone, a.identifier? = some ("a" : Text) →
        a.StandsIn labelledFunction Scope.labelFields := by
  obtain ⟨-, hrefs, hheld⟩ := Heap.empty.holds_loaded labelledProgram
  have hfunction : ("FunctionDeclaration" : Text) ∈ Scope.functionTypes := by decide
  obtain ⟨hnames, -⟩ :=
    undeclaredNames_of_function hfunction rfl ((Layout.refs_part labelledFunction_part).nodup hrefs)
      (by decide) (by decide) (hheld.of_part labelledFunction_part)
  refine ⟨rfl, ?_, by decide⟩
  rw [hnames]
  decide

end Sample

end Arbor
