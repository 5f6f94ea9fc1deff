import Arbor.Lowering.Rule
import Arbor.Proofs.Concrete.Tree
import Mathlib.Tactic.MkIffOfInductiveProp

set_option autoImplicit false

/-! # What grammars give

The ranges of a tree nest when each node lies inside its parent (`Lowering.Nests`): a node that has delimiters is
not empty, and where lowering builds a node around several children, these stand one after another. A tree is in
order (`Lowering.InOrder`) when children stand in the order of the source and those that a rule tells apart in the
order in which grammars give them (`grammarOrder`). In a tree in order nothing stands where lowering takes parts out of
the order of the source: templates have no expressions, and a node without a rule has its parts together that
are kept together, and those without a field last. -/

namespace Arbor.Lowering

/-! ## Seats -/

/-- A place among the children of a node. -/
inductive Seat where
  /-- Under a field. -/
  | under (field : String)
  /-- Of a kind. -/
  | ofKind (kind : String)
  deriving DecidableEq

/-- Whether a token takes a seat. -/
def Seat.Holds (t : Token) : Seat → Prop
  | under field => t.field? = some field
  | ofKind kind => t.kind = kind

instance (t : Token) : DecidablePred (Seat.Holds t)
  | .under field => inferInstanceAs (Decidable (t.field? = some field))
  | .ofKind kind => inferInstanceAs (Decidable (t.kind = kind))

/-- What takes one seat ends before what takes another starts. -/
def Precede (children : List Token) (x y : Seat) : Prop :=
  ∀ b ∈ children, ∀ c ∈ children, x.Holds b → y.Holds c → b.stop ≤ c.start

instance (children : List Token) (x y : Seat) : Decidable (Precede children x y) :=
  inferInstanceAs (Decidable (∀ b ∈ children, ∀ c ∈ children, x.Holds b → y.Holds c → b.stop ≤ c.start))

/-- Children stand in an order of groups of seats. -/
def Ranked (order : List (List Seat)) (children : List Token) : Prop :=
  order.Pairwise fun g h => ∀ x ∈ g, ∀ y ∈ h, Precede children x y

instance (order : List (List Seat)) (children : List Token) : Decidable (Ranked order children) :=
  inferInstanceAs (Decidable (order.Pairwise fun g h => ∀ x ∈ g, ∀ y ∈ h, Precede children x y))

/-- Whether a seat comes before another in an order. -/
def comesBefore (x y : Seat) : List (List Seat) → Bool
  | [] => false
  | g :: rest => (g.contains x && rest.any fun h => h.contains y) || comesBefore x y rest

theorem Ranked.precede {order : List (List Seat)} {children : List Token} (h : Ranked order children)
    {x y : Seat} (hxy : comesBefore x y order = true) : Precede children x y := by
  induction order with
  | nil => cases hxy
  | cons g rest ih =>
    obtain ⟨hfirst, hrest⟩ := List.pairwise_cons.1 h
    simp only [comesBefore, Bool.or_eq_true, Bool.and_eq_true, List.contains_iff_mem, List.any_eq_true] at hxy
    rcases hxy with ⟨hx, group, hgroup, hy⟩ | hxy
    · exact hfirst group hgroup x hx y hy
    · exact ih hrest hxy

/-! ## The order of grammars -/

/-- The order of a function. -/
def signatureOrder : List (List Seat) :=
  [[.under "name"], [.under "type_parameters"], [.under "parameters", .under "parameter"],
    [.under "return_type"], [.under "body"]]

def decoratorSeats : List Seat := [.under "decorator", .ofKind "decorator"]

/-- The order of a class. -/
def classOrder : List (List Seat) :=
  [decoratorSeats, [.under "name"], [.under "type_parameters"], [.ofKind "class_heritage"], [.under "body"]]

/-- The order of a tag. -/
def tagOrder : List (List Seat) :=
  [[.under "name"], [.under "type_arguments"],
    [.under "attribute", .ofKind "jsx_attribute", .ofKind "jsx_expression"]]

/-- The order in which grammars give the children of a kind that its rule tells apart. -/
def grammarOrders : List (String × List (List Seat)) := [
  ("variable_declarator", [[.under "name"], [.under "type"], [.under "value"]]),
  ("if_statement", [[.under "condition"], [.under "consequence"], [.under "alternative"]]),
  ("while_statement", [[.under "condition"], [.under "body"]]),
  ("do_statement", [[.under "body"], [.under "condition"]]),
  ("for_statement", [[.under "initializer"], [.under "condition"], [.under "increment"], [.under "body"]]),
  ("for_in_statement", [[.under "kind"], [.under "left"], [.under "right"], [.under "body"]]),
  ("labeled_statement", [[.under "label"], [.under "body"]]),
  ("with_statement", [[.under "object"], [.under "body"]]),
  ("try_statement", [[.under "body"], [.under "handler"], [.under "finalizer"]]),
  ("catch_clause", [[.under "parameter"], [.under "type"], [.under "body"]]),
  ("switch_statement", [[.under "value"], [.under "body"]]),
  ("switch_case", [[.under "value"], [.under "body"]]),
  ("function_declaration", signatureOrder),
  ("generator_function_declaration", signatureOrder),
  ("function_signature", signatureOrder),
  ("function_expression", signatureOrder),
  ("function", signatureOrder),
  ("generator_function", signatureOrder),
  ("arrow_function", signatureOrder),
  ("required_parameter", [[.under "pattern"], [.under "type"], [.under "value"]]),
  ("optional_parameter", [[.under "pattern"], [.under "type"], [.under "value"]]),
  ("assignment_pattern", [[.under "left"], [.under "right"]]),
  ("object_assignment_pattern", [[.under "left"], [.under "right"]]),
  ("pair_pattern", [[.under "key"], [.under "value"]]),
  ("pair", [[.under "key"], [.under "value"]]),
  ("assignment_expression", [[.under "left"], [.under "right"]]),
  ("augmented_assignment_expression", [[.under "left"], [.under "right"]]),
  ("binary_expression", [[.under "left"], [.under "right"]]),
  ("ternary_expression", [[.under "condition"], [.under "consequence"], [.under "alternative"]]),
  ("call_expression", [[.under "function"], [.under "type_arguments"], [.under "arguments"]]),
  ("new_expression", [[.under "constructor"], [.under "type_arguments"], [.under "arguments"]]),
  ("member_expression", [[.under "object"], [.under "property"]]),
  ("nested_identifier", [[.under "object"], [.under "property"]]),
  ("subscript_expression", [[.under "object"], [.under "index"]]),
  ("method_definition", decoratorSeats :: signatureOrder),
  ("field_definition", [decoratorSeats, [.under "property"], [.under "type"], [.under "value"]]),
  ("public_field_definition", [decoratorSeats, [.under "name"], [.under "type"], [.under "value"]]),
  ("class_declaration", classOrder),
  ("abstract_class_declaration", classOrder),
  ("class", classOrder),
  ("import_statement", [[.ofKind "import_clause"], [.under "source"]]),
  ("import_specifier", [[.under "name"], [.under "alias"]]),
  ("export_statement", [[.ofKind "namespace_export", .ofKind "export_clause"], [.under "source"]]),
  ("export_specifier", [[.under "name"], [.under "alias"]]),
  ("jsx_opening_element", tagOrder),
  ("jsx_self_closing_element", tagOrder),
  ("generic_type", [[.under "name"], [.under "type_arguments"]]),
  ("type_parameter", [[.under "name"], [.under "constraint"], [.under "value"]])]

/-- The order in which grammars give the children of a kind. -/
def grammarOrder (kind : String) : List (List Seat) := (grammarOrders.lookup kind).getD []

/-- Where lowering builds a node from one child to another, the first of them comes before the other: a
    pattern before its type, the word of a loop before the variable, and the parameters of a method before
    its result type and its body. -/
def alignments : List (String × Seat × Seat) := [
  ("variable_declarator", .under "name", .under "type"),
  ("required_parameter", .under "pattern", .under "type"),
  ("optional_parameter", .under "pattern", .under "type"),
  ("for_in_statement", .under "kind", .under "left"),
  ("method_definition", .under "parameters", .under "return_type"),
  ("method_definition", .under "parameters", .under "body")]

theorem comesBefore_of_mem_alignments :
    ∀ entry ∈ alignments, comesBefore entry.2.1 entry.2.2 (grammarOrder entry.1) = true := by decide

/-! ## Ranges -/

/-- The kinds of nodes that begin with a delimiter. -/
def delimitedKinds : List String := ["template_string", "jsx_expression"]

/-- A node lies around its children. -/
@[mk_iff]
structure Ranged (t : Token) (children : List Token) : Prop where
  wide : t.start ≤ t.stop
  inside : ∀ c ∈ children, t.start ≤ c.start ∧ c.stop ≤ t.stop
  delimited : t.kind ∈ delimitedKinds → t.start < t.stop

instance (t : Token) (children : List Token) : Decidable (Ranged t children) :=
  decidable_of_iff _ (ranged_iff t children).symm

/-- A node lies around its children, and children around which a node is built stand one after another. -/
@[mk_iff]
structure Nests (t : Token) (children : List Token) : Prop extends Ranged t children where
  aligned : ∀ entry ∈ alignments, entry.1 = t.kind → Precede children entry.2.1 entry.2.2

instance (t : Token) (children : List Token) : Decidable (Nests t children) :=
  decidable_of_iff _ (nests_iff t children).symm

/-! ## Order -/

/-- Whether equal elements of a list stand together. -/
def Grouped {α : Type} : List α → Prop
  | [] => True
  | a :: rest => (a ∈ rest → rest.head? = some a) ∧ Grouped rest

instance Grouped.decidable {α : Type} [DecidableEq α] : (l : List α) → Decidable (Grouped l)
  | [] => isTrue trivial
  | a :: rest =>
    have : Decidable (Grouped rest) := Grouped.decidable rest
    inferInstanceAs (Decidable ((a ∈ rest → rest.head? = some a) ∧ Grouped rest))

section

variable {α β : Type}

/-- What is left of a list after its head begins with elements equal to the head, if there are any. -/
theorem Grouped.head?_of_sublist {a : α} {l l' : List α} (h : Grouped (a :: l)) (hsub : l'.Sublist l)
    (hmem : a ∈ l') : l'.head? = some a := by
  induction l generalizing l' with
  | nil =>
    rw [List.sublist_nil.1 hsub] at hmem
    cases hmem
  | cons b rest ih =>
    obtain rfl : b = a := Option.some.inj (h.1 (hsub.subset hmem))
    cases hsub with
    | cons _ hsub => exact ih h.2 hsub hmem
    | cons_cons _ hsub => rfl

theorem Grouped.sublist {l l' : List α} (h : Grouped l) (hsub : l'.Sublist l) : Grouped l' := by
  induction hsub with
  | slnil => trivial
  | cons a _ ih => exact ih h.2
  | cons_cons a hsub ih => exact ⟨h.head?_of_sublist hsub, ih h.2⟩

theorem Grouped.map {f : α → β} (hf : Function.Injective f) {l : List α} (h : Grouped l) :
    Grouped (l.map f) := by
  induction l with
  | nil => trivial
  | cons a rest ih =>
    refine ⟨fun hmem => ?_, ih h.2⟩
    obtain ⟨b, hb, heq⟩ := List.mem_map.1 hmem
    rw [List.head?_map, h.1 (hf heq ▸ hb)]
    rfl

/-- Of elements that differ only the last one comes again. -/
theorem Grouped.exists_eq_concat {a : α} {l more : List α} (h : Grouped (l ++ a :: more)) (honce : l.Nodup)
    (hmem : a ∈ l) : ∃ pre, l = pre ++ [a] ∧ a ∉ pre := by
  induction l with
  | nil => cases hmem
  | cons b rest ih =>
    obtain ⟨hb, hrest⟩ := List.nodup_cons.1 honce
    by_cases hin : a ∈ rest
    · obtain ⟨pre, rfl, hpre⟩ := ih h.2 hrest hin
      refine ⟨b :: pre, rfl, fun hmem => ?_⟩
      rcases List.mem_cons.1 hmem with rfl | hmem
      · exact hb hin
      · exact hpre hmem
    · obtain rfl : a = b := (List.mem_cons.1 hmem).resolve_right hin
      have hhead := h.1 (List.mem_append_right rest (List.mem_cons_self ..))
      cases rest with
      | nil => exact ⟨[], rfl, List.not_mem_nil⟩
      | cons c rest =>
        obtain rfl : c = a := Option.some.inj hhead
        exact absurd (List.mem_cons_self ..) hin

end

/-- Whether a child counts as a part of its parent. -/
def isPartToken (t : Token) : Bool := t.named && !t.isSkipped

/-- The name under which a part of a node without a rule is kept. -/
def keptKey (t : Token) : Text :=
  match t.field? with
  | none => "children"
  | some field => genericKey field

/-- The kinds of names that stand for themselves. -/
def leafKinds : List String := ["identifier", "property_identifier", "type_identifier", "string"]

/-- The fields that hold a pattern to which a type may be added. -/
def typedSeats : List (String × String) := [
  ("variable_declarator", "name"), ("required_parameter", "pattern"), ("optional_parameter", "pattern"),
  ("catch_clause", "parameter")]

/-- The kinds of patterns that have no type of their own. -/
def patternKinds : List String :=
  ["identifier", "array_pattern", "object_pattern", "rest_pattern", "this", "undefined"]

/-- A node has its children in the order of the source and of the grammars. -/
@[mk_iff]
structure InOrder (t : Token) (children : List Token) : Prop extends Ranged t children where
  apart : children.Pairwise fun b c => b.stop ≤ c.start
  ranked : Ranked (grammarOrder t.kind) children
  /-- An expression in a template would come after the text that follows it. -/
  unbroken : t.kind = "template_string" → ∀ c ∈ children, c.kind ≠ "template_substitution"
  /-- Parts that are kept together have to stand together. -/
  grouped : rules.lookup t.kind = none ∨ t.kind = "export_statement" →
    Grouped ((children.filter isPartToken).map keptKey)
  /-- Parts without a field come last. -/
  unnamed_last : rules.lookup t.kind = none ∨ t.kind = "export_statement" →
    (children.filter isPartToken).Pairwise fun b c => b.field? = none → c.field? = none
  /-- A name that stands for two is no more than a name. -/
  names : t.kind = "import_specifier" ∨ t.kind = "export_specifier" →
    ∀ c ∈ children, c.field? = some "name" → c.kind ∈ leafKinds
  /-- A pattern with a type has no type already. -/
  patterns : ∀ seat ∈ typedSeats, seat.1 = t.kind → ∀ c ∈ children, c.field? = some "type" →
    ∀ b ∈ children, b.field? = some seat.2 → b.kind ∈ patternKinds
  /-- A member with a default value begins with its name. -/
  defaulted : t.kind = "object_assignment_pattern" → ∀ c ∈ children, c.field? = some "left" →
    c.kind = "shorthand_property_identifier_pattern" → c.start = t.start
  /-- A method has parameters. -/
  parameters : t.kind = "method_definition" →
    ∃ c ∈ children, isPartToken c = true ∧ c.field? = some "parameters"
  /-- What a class implements comes after what it extends. -/
  heritage : t.kind = "class_heritage" → (children.filter isPartToken).Pairwise fun b c =>
    b.kind = "implements_clause" → c.kind = "implements_clause"
  /-- An interpreter line comes before all else. -/
  interpreter : (children.filter isPartToken).Pairwise fun _ c => c.kind ≠ "hash_bang_line"
  /-- The tags of an element stand at its ends. -/
  tags : t.kind = "jsx_element" → (children.filter isPartToken).Pairwise fun b c =>
    c.field? ≠ some "open_tag" ∧ b.field? ≠ some "close_tag"
  tagKinds : t.kind = "jsx_element" → ∀ c ∈ children,
    (c.field? = some "open_tag" → c.kind = "jsx_opening_element") ∧
      (c.field? = some "close_tag" → c.kind = "jsx_closing_element")

set_option synthInstance.maxSize 400 in
instance (t : Token) (children : List Token) : Decidable (InOrder t children) :=
  decidable_of_iff _ (inOrder_iff t children).symm

/-- In a tree in order ranges nest. -/
theorem InOrder.nests {t : Token} {children : List Token} (h : InOrder t children) : Nests t children := by
  refine ⟨h.toRanged, fun entry hentry hkind => ?_⟩
  have hbefore := comesBefore_of_mem_alignments entry hentry
  rw [hkind] at hbefore
  exact h.ranked.precede hbefore

end Arbor.Lowering
