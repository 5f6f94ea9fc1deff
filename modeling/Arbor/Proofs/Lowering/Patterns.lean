import Arbor.Proofs.Heap.Load
import Arbor.Proofs.Lowering.Filling
import Arbor.Proofs.Parsed
import Arbor.Proofs.Value.Binds

set_option autoImplicit false

/-! # Patterns of a syntax tree

In the syntax of a pattern some tokens bind names: the identifiers that are no keys and do not stand in a default
value or a type (`Pattern`). Each form of pattern becomes a value that binds the names of its tokens
(`Lowering.lower_binds`), so that a tracker is told of these names and of no others
(`boundIdentifiers_lowered`). -/

namespace Arbor

open Literal (TooLarge)
open Lowering (literalBodies lower lowered)

namespace Tree

variable {α : Type}

/-- The parts of a node. -/
def parts (t : Tree α) : List (Tree α) := t.children.filter isPart

/-- The first part under a field. -/
def part? (t : Tree α) (field : String) : Option (Tree α) :=
  t.parts.find? fun c => c.token.field? = some field

theorem mem_parts_of_part? {t c : Tree α} {field : String} (h : t.part? field = some c) : c ∈ t.parts :=
  List.mem_of_find?_eq_some h

theorem mem_parts_of_head? {t c : Tree α} (h : t.parts.head? = some c) : c ∈ t.parts := List.mem_of_mem_head? h

/-- The nodes below several parts come in the order in which they stand in the tree. -/
theorem nodes_parts (t : Tree α) : (t.parts.flatMap nodes).Sublist t.nodes := by
  cases t with
  | node token note children =>
    rw [nodes, nodesOf_eq]
    exact (List.filter_sublist.flatMap _).trans (List.sublist_cons_self _ _)

theorem nodes_part {t c : Tree α} (h : c ∈ t.parts) : c.nodes.Sublist t.nodes :=
  (List.sublist_flatten_of_mem (List.mem_map_of_mem h)).trans (nodes_parts t)

end Tree

/-- A syntax tree is a pattern, and these tokens bind the names in it. Keys, default values and types are parts
    of their own, of which nothing is asked, and comments are no parts. -/
inductive Pattern : PatternPlace → Cst → List Token → Prop
  | identifier {t : Cst} (kind : t.kind = "identifier") : Pattern .alone t [t.token]
  | array {t : Cst} {elements : List (Cst × List Token)} (kind : t.kind = "array_pattern")
      (parts : t.parts = elements.map Prod.fst) (each : ∀ e ∈ elements, Pattern .alone e.1 e.2) :
      Pattern .alone t (elements.flatMap Prod.snd)
  | object {t : Cst} {members : List (Cst × List Token)} (kind : t.kind = "object_pattern")
      (parts : t.parts = members.map Prod.fst) (each : ∀ e ∈ members, Pattern .member e.1 e.2) :
      Pattern .alone t (members.flatMap Prod.snd)
  | assignment {t left : Cst} {names : List Token} (kind : t.kind = "assignment_pattern")
      (part : t.part? "left" = some left) (pattern : Pattern .alone left names) : Pattern .alone t names
  | parameter {t inner : Cst} {names : List Token}
      (kind : t.kind = "required_parameter" ∨ t.kind = "optional_parameter")
      (part : t.part? "pattern" = some inner) (pattern : Pattern .alone inner names) : Pattern .alone t names
  | rest {place : PatternPlace} {t inner : Cst} {names : List Token} (kind : t.kind = "rest_pattern")
      (part : t.parts.head? = some inner) (pattern : Pattern .alone inner names) : Pattern place t names
  | shorthand {t : Cst} (kind : t.kind = "shorthand_property_identifier_pattern") :
      Pattern .member t [t.token]
  | pair {t value : Cst} {names : List Token} (kind : t.kind = "pair_pattern")
      (part : t.part? "value" = some value) (pattern : Pattern .alone value names) : Pattern .member t names
  | defaulted {t left : Cst} (kind : t.kind = "object_assignment_pattern")
      (part : t.part? "left" = some left) (shorthand : left.kind = "shorthand_property_identifier_pattern") :
      Pattern .member t [left.token]

theorem tokens_flatMap {elements : List (Cst × List Token)}
    (h : ∀ e ∈ elements, e.2.Sublist (e.1.nodes.map Tree.token)) :
    (elements.flatMap Prod.snd).Sublist (((elements.map Prod.fst).flatMap Tree.nodes).map Tree.token) := by
  rw [List.map_flatMap, List.flatMap_map]
  exact List.Sublist.flatMap_right _ h

/-- The tokens that bind names are tokens of different nodes, and come in the order in which these stand. -/
theorem Pattern.tokens {place : PatternPlace} {t : Cst} {names : List Token} (h : Pattern place t names) :
    names.Sublist (t.nodes.map Tree.token) := by
  have here (t : Cst) : [t.token].Sublist (t.nodes.map Tree.token) := by
    cases t
    exact List.singleton_sublist.2 (List.mem_cons_self ..)
  have inside {t c : Cst} (hc : c ∈ t.parts) {names : List Token} (h : names.Sublist (c.nodes.map Tree.token)) :
      names.Sublist (t.nodes.map Tree.token) := h.trans ((Tree.nodes_part hc).map _)
  induction h with
  | identifier kind => exact here _
  | array kind parts each ih => exact (tokens_flatMap ih).trans (parts ▸ (Tree.nodes_parts _).map _)
  | object kind parts each ih => exact (tokens_flatMap ih).trans (parts ▸ (Tree.nodes_parts _).map _)
  | assignment kind part pattern ih => exact inside (Tree.mem_parts_of_part? part) ih
  | parameter kind part pattern ih => exact inside (Tree.mem_parts_of_part? part) ih
  | rest kind part pattern ih => exact inside (Tree.mem_parts_of_head? part) ih
  | shorthand kind => exact here _
  | pair kind part pattern ih => exact inside (Tree.mem_parts_of_part? part) ih
  | defaulted kind part shorthand => exact inside (Tree.mem_parts_of_part? part) (here _)

/-- The name that a token spells, where it stands. -/
def Token.naming (source : Source) (t : Token) : Naming := ⟨t.text source, t.start⟩

/-- A token covers a text that is not empty. -/
def Token.IsNamed (source : Source) (t : Token) : Prop := (t.text source).isEmpty = false

instance (source : Source) (t : Token) : Decidable (t.IsNamed source) :=
  inferInstanceAs (Decidable (_ = false))

namespace Lowering

open Value (AllBind Binds headKeys patternKeys startOf? typeOf?)

/-- A value that binds names and is no hole. -/
def IsPattern (place : PatternPlace) (ns : List Naming) (v : Value) : Prop :=
  v.isNull = false ∧ Binds place v ns

/-- What the children of a node become is at hand where the node is lowered. -/
def siteOf (source : Source) (t : Cst) : Site := ⟨t.token, t.children.map (lowered source (some t.kind))⟩

section

variable {source : Source} {t c : Cst}

theorem site_lowered (parent? : Option String) : (lowered source parent? t).site = siteOf source t := by
  cases t
  rw [Branch.site, siteOf, lowered, loweredAll_eq]
  rfl

theorem parts_siteOf : (siteOf source t).parts = t.parts.map (lowered source (some t.kind)) := by
  rw [Site.parts, siteOf, List.filter_map, Tree.parts]
  congr 2
  funext c
  simp [Tree.isPart]

theorem field?_siteOf (field : String) :
    (siteOf source t).field? field = (t.part? field).map (lowered source (some t.kind)) := by
  rw [Site.field?, Site.fieldAll, parts_siteOf, List.head?_filter, List.find?_map, Tree.part?]
  congr 2
  funext c
  simp

/-- A node of a kind that has a rule is lowered by it. -/
theorem lower_eq {rule : Rule} (hrule : ruleOf t.kind = rule) (hown : rule ≠ .generic) (parent? : Option String) :
    lower source parent? t = rule.lower source parent? (siteOf source t) := by
  cases t with
  | node token note children =>
    have hskip : token.isSkipped = false := not_isSkipped_of_rule (lookup_of_rule hrule hown)
    rw [lower, lowered, Branch.value, Tree.note_node, loweredAll_eq, readingOf, hskip, ← hrule]
    rfl

/-! ## Fields that hold patterns -/

/-- What a filler leaves is in the node that is made, with what is known of it. -/
theorem node_tells (name : String) {type : String} {fields : List (String × Filler)} {filler : Filler}
    {Q : Value → Prop} (hrule : ruleOf t.kind = .node type fields) (hlookup : fields.lookup name = some filler)
    (hname : (.text name : Key) ∉ headKeys) (parent? : Option String)
    (hfill : IfOk (fun v? => ∃ v, v? = some v ∧ Q v) (filler.fill source (siteOf source t))) :
    IfOk (fun v => ∃ fs w, v = .record fs ∧ typeOf? fs = some (type : Text) ∧
      startOf? fs = some t.token.start ∧ Fields.get? fs (.text name) = some w ∧ Q w) (lower source parent? t) := by
  rw [lower_eq hrule (by simp), Rule.lower]
  refine (fillAll_filled source (siteOf source t) fields).bind fun filled hfilled => ?_
  obtain ⟨w, hw, hq⟩ := hfilled.exists_of_lookup hlookup hfill
  exact ⟨_, w, nodeOf_eq _ _ _, rfl, rfl, (Value.get?_nodeFields _ _ _ _ hname).trans hw, hq⟩

theorem child_tells {field : String} {Q : Value → Prop} (hpart : t.part? field = some c)
    (h : IfOk Q (lower source (some t.kind) c)) :
    IfOk (fun v? => ∃ v, v? = some v ∧ Q v) ((Filler.child field).fill source (siteOf source t)) := by
  rw [Filler.fill, field?_siteOf, hpart]
  exact h.map fun v hv => ⟨v, rfl, hv⟩

theorem first_tells {Q : Value → Prop} (hpart : t.parts.head? = some c)
    (h : IfOk Q (lower source (some t.kind) c)) :
    IfOk (fun v? => ∃ v, v? = some v ∧ Q v) (Filler.first.fill source (siteOf source t)) := by
  rw [Filler.fill, firstOf, Site.first?, parts_siteOf, List.head?_map, hpart]
  exact h.map fun v hv => ⟨v, rfl, hv⟩

/-! ## Several patterns -/

/-- Elements that are separated by commas bind what each of them binds, whatever is left out between them. -/
theorem elementsOf_binds {es : List (Branch × List Naming)} {branches : List Branch} (pending : Bool)
    (hparts : branches.filter Tree.isPart = es.map Prod.fst)
    (h : ∀ e ∈ es, e.1.kind ≠ "," ∧ IfOk (IsPattern .alone e.2) (Branch.value e.1)) :
    IfOk (fun vs => AllBind .alone vs (es.flatMap Prod.snd)) (elementsOf pending branches) := by
  induction branches generalizing es pending with
  | nil =>
    rw [List.filter_nil, eq_comm, List.map_eq_nil_iff] at hparts
    rw [hparts]
    exact AllBind.nil .alone
  | cons b rest ih =>
    rw [elementsOf]
    by_cases hpart : b.isPart = true
    · rw [List.filter_cons_of_pos hpart] at hparts
      cases es with
      | nil => cases hparts
      | cons e es =>
        obtain ⟨rfl, hrest⟩ := List.cons_eq_cons.1 hparts
        obtain ⟨⟨hkind, hvalue⟩, hes⟩ := List.forall_mem_cons.1 h
        rw [if_neg hkind, if_pos hpart]
        exact hvalue.bind fun v hv => (ih true hrest hes).bind fun vs hvs => AllBind.cons hv.2 hvs
    · rw [List.filter_cons_of_neg hpart] at hparts
      rw [if_neg hpart]
      split
      · refine (ih false hparts h).bind fun vs hvs => ?_
        cases pending with
        | true => exact hvs
        | false => exact AllBind.cons .hole hvs
      · exact ih pending hparts h

/-- The members of an object pattern bind what each of them binds. -/
theorem valuesOf_binds {es : List (Branch × List Naming)}
    (h : ∀ e ∈ es, IfOk (IsPattern .member e.2) (Branch.value e.1)) :
    IfOk (fun vs => AllBind .member vs (es.flatMap Prod.snd)) (valuesOf (es.map Prod.fst)) := by
  have all : IfOk (fun vs => AllBind .member vs (es.flatMap Prod.snd) ∧ ∀ v ∈ vs, v.isNull = false)
      ((es.map Prod.fst).mapM Branch.value) := by
    induction es with
    | nil => exact ⟨AllBind.nil .member, by simp⟩
    | cons e es ih =>
      obtain ⟨he, hes⟩ := List.forall_mem_cons.1 h
      rw [List.map_cons, List.mapM_cons]
      refine he.bind fun v hv => (ih hes).bind fun vs hvs => ?_
      exact ⟨AllBind.cons hv.2 hvs.1, List.forall_mem_cons.2 ⟨hv.1, hvs.2⟩⟩
  refine all.bind fun vs hvs => ?_
  rw [List.filter_eq_self.2 fun v hv => by rw [hvs.2 v hv]; rfl]
  exact hvs.1

/-! ## Patterns with a type or a default value -/

theorem setField_binds {place : PatternPlace} {v : Value} {ns : List Naming} (h : IsPattern place ns v)
    {name : Text} (hname : name ∉ patternKeys) (w : Value) : IfOk (IsPattern place ns) (setField v name w) := by
  cases v with
  | record fields => exact ⟨rfl, h.2.set hname w⟩
  | _ => trivial

theorem withType_binds {v : Value} {ns : List Naming} (h : IsPattern .alone ns v) (type? : Option Branch)
    (extend : Bool) : IfOk (IsPattern .alone ns) (withType v type? extend) := by
  cases type? with
  | none => exact h
  | some type =>
    rw [withType, h.1]
    refine (ifOk_true _).bind fun w _ => (setField_binds h (by decide) w).bind fun typed htyped => ?_
    cases extend with
    | true => exact setField_binds htyped (by decide) _
    | false => exact htyped

theorem withAccess_binds {v : Value} {ns : List Naming} (h : IsPattern .alone ns v) (source : Source)
    (branches : List Branch) : IfOk (IsPattern .alone ns) (withAccess source v branches) := by
  induction branches generalizing v with
  | nil => exact h
  | cons b rest ih =>
    rw [withAccess]
    split
    · exact (setField_binds h (by decide) _).bind fun _ hv => ih hv
    · exact ih h

/-- A parameter binds what its pattern binds, with or without a type, modifiers and a default value. -/
theorem typedPattern_binds {v : Value} {ns : List Naming} (h : IsPattern .alone ns v) (source : Source)
    (s : Site) : IfOk (IsPattern .alone ns) (typedPattern source s v) := by
  refine (withType_binds h _ true).bind fun pattern hpattern => ?_
  refine (withAccess_binds hpattern source _).bind fun pattern hpattern => (ifOk_true _).bind fun value _ => ?_
  split
  · exact hpattern
  · exact ⟨rfl, .assignment rfl rfl hpattern.2⟩

theorem typedParameter_binds {ns : List Naming} (hpart : t.part? "pattern" = some c)
    (h : IfOk (IsPattern .alone ns) (lower source (some t.kind) c)) (optional : Bool) :
    IfOk (IsPattern .alone ns) (typedParameter source (siteOf source t) optional) := by
  rw [typedParameter_eq, field?_siteOf "pattern", hpart]
  refine Yields.bind h fun pattern hpattern => ?_
  rw [hpattern.1]
  cases optional with
  | false => exact typedPattern_binds hpattern source _
  | true => exact (setField_binds hpattern (by decide) _).bind fun _ hv => typedPattern_binds hv source _

theorem identifierOf_binds {token : Token} (hnamed : token.IsNamed source) :
    Binds .alone (identifierOf source token) [token.naming source] :=
  .identifier rfl rfl hnamed rfl

/-- A shorthand member with a default value binds its name. -/
theorem defaultedMember_binds (hpart : t.part? "left" = some c)
    (hshort : c.kind = "shorthand_property_identifier_pattern") (hnamed : c.token.IsNamed source) :
    IfOk (IsPattern .member [c.token.naming source]) (defaultedMember source (siteOf source t)) := by
  rw [defaultedMember, field?_siteOf "left", hpart]
  refine (ifOk_true _).bind fun right _ => ?_
  have hkind : (lowered source (some t.kind) c).kind = "shorthand_property_identifier_pattern" := by
    rw [kind_lowered]
    exact hshort
  simp only [Option.map_some, hkind, if_true, token_lowered]
  refine ⟨rfl, .property rfl (by decide) rfl (.assignment rfl rfl (identifierOf_binds hnamed))⟩

end

/-! ## Every pattern -/

/-- No pattern is a comma. -/
theorem ne_comma_of_pattern {place : PatternPlace} {t : Cst} {names : List Token} (h : Pattern place t names) :
    t.kind ≠ "," := by
  intro hcomma
  cases h <;> simp_all

/-- What several patterns in a node become, with the names that their tokens spell. -/
def loweredEach (source : Source) (t : Cst) (es : List (Cst × List Token)) : List (Branch × List Naming) :=
  es.map fun e => (lowered source (some t.kind) e.1, e.2.map (Token.naming source))

section

variable {source : Source} {t : Cst} {es : List (Cst × List Token)}

theorem parts_loweredEach (hparts : t.parts = es.map Prod.fst) :
    (siteOf source t).parts = (loweredEach source t es).map Prod.fst := by
  rw [parts_siteOf, hparts, loweredEach, List.map_map, List.map_map]
  rfl

theorem names_loweredEach : (loweredEach source t es).flatMap Prod.snd =
    (es.flatMap Prod.snd).map (Token.naming source) := by
  rw [loweredEach, List.flatMap_map, List.map_flatMap]

theorem value_loweredEach {place : PatternPlace}
    (h : ∀ e ∈ es, IfOk (IsPattern place (e.2.map (Token.naming source))) (lower source (some t.kind) e.1)) :
    ∀ e ∈ loweredEach source t es, IfOk (IsPattern place e.2) (Branch.value e.1) := by
  rw [loweredEach, List.forall_mem_map]
  exact h

theorem elements_tell (hparts : t.parts = es.map Prod.fst) (hkind : ∀ e ∈ es, e.1.kind ≠ ",")
    (h : ∀ e ∈ es, IfOk (IsPattern .alone (e.2.map (Token.naming source))) (lower source (some t.kind) e.1)) :
    IfOk (fun v? => ∃ v, v? = some v ∧ ∃ vs, v = .list vs ∧
        AllBind .alone vs ((es.flatMap Prod.snd).map (Token.naming source)))
      (Filler.elements.fill source (siteOf source t)) := by
  have hcomma : ∀ e ∈ loweredEach source t es, e.1.kind ≠ "," := by
    rw [loweredEach, List.forall_mem_map]
    intro e he
    rw [kind_lowered]
    exact hkind e he
  have hbinds := elementsOf_binds false (parts_loweredEach hparts) fun e he =>
    ⟨hcomma e he, value_loweredEach h e he⟩
  rw [names_loweredEach] at hbinds
  exact hbinds.map fun vs hvs => ⟨_, rfl, vs, rfl, hvs⟩

theorem members_tell (hparts : t.parts = es.map Prod.fst)
    (h : ∀ e ∈ es, IfOk (IsPattern .member (e.2.map (Token.naming source))) (lower source (some t.kind) e.1)) :
    IfOk (fun v? => ∃ v, v? = some v ∧ ∃ vs, v = .list vs ∧
        AllBind .member vs ((es.flatMap Prod.snd).map (Token.naming source)))
      (Filler.all.fill source (siteOf source t)) := by
  have hbinds := valuesOf_binds (value_loweredEach h)
  rw [names_loweredEach, ← parts_loweredEach hparts] at hbinds
  exact hbinds.map fun vs hvs => ⟨_, rfl, vs, rfl, hvs⟩

end

/-- If a pattern is lowered, its value binds the names that its tokens spell. -/
theorem lower_binds {source : Source} {place : PatternPlace} {t : Cst} {names : List Token}
    (h : Pattern place t names) (hnamed : ∀ n ∈ names, n.IsNamed source) (parent? : Option String) :
    IfOk (IsPattern place (names.map (Token.naming source))) (lower source parent? t) := by
  induction h generalizing parent? with
  | @identifier t kind =>
    have hrule : ruleOf t.kind = .node "Identifier" [("name", .source)] := by rw [kind]; rfl
    have hname : IfOk (fun v? => ∃ v, v? = some v ∧ v = .text (t.token.text source))
        (Filler.source.fill source (siteOf source t)) := ⟨_, rfl, rfl⟩
    refine (node_tells "name" hrule rfl (by decide) parent? hname).mono ?_
    rintro v ⟨fs, w, rfl, htype, hstart, hget, rfl⟩
    exact ⟨rfl, .identifier htype hget (hnamed _ (List.mem_singleton_self _)) hstart⟩
  | @array t elements kind parts each ih =>
    have hrule : ruleOf t.kind = .node "ArrayPattern" [("elements", .elements)] := by rw [kind]; rfl
    have helements := elements_tell parts (fun e he => ne_comma_of_pattern (each e he)) fun e he =>
      ih e he (fun n hn => hnamed n (List.mem_flatMap_of_mem he hn)) _
    refine (node_tells "elements" hrule rfl (by decide) parent? helements).mono ?_
    rintro v ⟨fs, w, rfl, htype, -, hget, vs, rfl, hall⟩
    exact ⟨rfl, hall.array htype hget⟩
  | @object t members kind parts each ih =>
    have hrule : ruleOf t.kind = .node "ObjectPattern" [("properties", .all)] := by rw [kind]; rfl
    have hmembers := members_tell parts fun e he =>
      ih e he (fun n hn => hnamed n (List.mem_flatMap_of_mem he hn)) _
    refine (node_tells "properties" hrule rfl (by decide) parent? hmembers).mono ?_
    rintro v ⟨fs, w, rfl, htype, -, hget, vs, rfl, hall⟩
    exact ⟨rfl, hall.object htype hget⟩
  | @assignment t left names kind part pattern ih =>
    have hrule : ruleOf t.kind = .node "AssignmentPattern"
        [("left", .child "left"), ("right", .child "right")] := by rw [kind]; rfl
    refine (node_tells "left" hrule rfl (by decide) parent? (child_tells part (ih hnamed _))).mono ?_
    rintro v ⟨fs, w, rfl, htype, -, hget, hw⟩
    exact ⟨rfl, .assignment htype hget hw.2⟩
  | @parameter t inner names kind part pattern ih =>
    obtain ⟨optional, hrule⟩ : ∃ optional, ruleOf t.kind = .typedParameter optional := by
      rcases kind with kind | kind <;> rw [kind]
      · exact ⟨false, rfl⟩
      · exact ⟨true, rfl⟩
    rw [lower_eq hrule (by simp)]
    exact typedParameter_binds part (ih hnamed _) optional
  | @rest place t inner names kind part pattern ih =>
    have hrule : ruleOf t.kind = .node "RestElement" [("argument", .first)] := by rw [kind]; rfl
    refine (node_tells "argument" hrule rfl (by decide) parent? (first_tells part (ih hnamed _))).mono ?_
    rintro v ⟨fs, w, rfl, htype, -, hget, hw⟩
    exact ⟨rfl, .rest htype hget hw.2⟩
  | @shorthand t kind =>
    have hrule : ∃ fields, ruleOf t.kind = .node "Property" fields ∧
        fields.lookup "value" = some .identifier := by rw [kind]; exact ⟨_, rfl, rfl⟩
    obtain ⟨fields, hrule, hlookup⟩ := hrule
    have hvalue : IfOk (fun v? => ∃ v, v? = some v ∧ Binds .alone v [t.token.naming source])
        (Filler.identifier.fill source (siteOf source t)) :=
      ⟨_, rfl, identifierOf_binds (hnamed _ (List.mem_singleton_self t.token))⟩
    refine (node_tells "value" hrule hlookup (by decide) parent? hvalue).mono ?_
    rintro v ⟨fs, w, rfl, htype, -, hget, hw⟩
    exact ⟨rfl, .property htype (by decide) hget hw⟩
  | @pair t value names kind part pattern ih =>
    have hrule : ruleOf t.kind = pairRule := by rw [kind]; rfl
    refine (node_tells "value" hrule rfl (by decide) parent? (child_tells part (ih hnamed _))).mono ?_
    rintro v ⟨fs, w, rfl, htype, -, hget, hw⟩
    exact ⟨rfl, .property htype (by decide) hget hw.2⟩
  | @defaulted t left kind part short =>
    have hrule : ruleOf t.kind = .defaultedMember := by rw [kind]; rfl
    rw [lower_eq hrule (by simp)]
    exact defaultedMember_binds part short (hnamed _ (List.mem_singleton_self _))

end Lowering

/-- Of a pattern that is lowered a tracker finds the names that bind, each once and in the order in which they
    stand, and nothing else. Only an escape beyond the last code point, in a literal of a default value, a key or
    a type, keeps a pattern from being lowered. -/
theorem boundIdentifiers_lowered {source : Source} {t : Cst} {names : List Token} (h : Pattern .alone t names)
    (hg : GrammaticalTree t) (hnamed : ∀ n ∈ names, n.IsNamed source) (parent? : Option String) :
    names.Sublist (t.nodes.map Tree.token) ∧
      ((∃ v, lower source parent? t = .ok v ∧ Scope.Finds v (names.map (Token.naming source))) ∨
        ∃ f, lower source parent? t = .error f ∧ TooLarge f ∧ HasOverlong source t) := by
  refine ⟨h.tokens, ?_⟩
  have hbinds := Lowering.lower_binds h hnamed parent?
  have hyields : Yields _ _ (lower source parent? t) :=
    (Lowering.lowered_behaves (allows_of_grammatical hg source) parent?).here.value
  cases hlower : lower source parent? t with
  | ok v =>
    rw [hlower] at hbinds hyields
    exact .inl ⟨v, rfl, hbinds.2.finds hyields.tidy⟩
  | error f =>
    rw [hlower] at hyields
    exact .inr ⟨f, rfl, hyields⟩

namespace Sample

/-- The source `[a,,{b,c:d=1,e=2,...f}]`. -/
def nestedSource : Source := .ofText "[a,,\x7bb,c:d=1,e=2,...f\x7d]"

/-- The members of the object pattern. -/
def nestedMembers : List (Cst × List Token) :=
  let b : Cst := .leaf "shorthand_property_identifier_pattern" true 5 6 none
  let d : Cst := .leaf "identifier" true 9 10 (some "left")
  let e : Cst := .leaf "shorthand_property_identifier_pattern" true 13 14 (some "left")
  let f : Cst := .leaf "identifier" true 20 21 none
  [(b, [b.token]),
    (.branch "pair_pattern" 7 12 none [
      .leaf "property_identifier" true 7 8 (some "key"),
      .leaf ":" false 8 9 none,
      .branch "assignment_pattern" 9 12 (some "value") [
        d, .leaf "=" false 10 11 none, .leaf "number" true 11 12 (some "right")]], [d.token]),
    (.branch "object_assignment_pattern" 13 16 none [
      e, .leaf "=" false 14 15 none, .leaf "number" true 15 16 (some "right")], [e.token]),
    (.branch "rest_pattern" 17 21 none [.leaf "..." false 17 20 none, f], [f.token])]

def nestedObject : Cst :=
  .branch "object_pattern" 4 22 none
    (.leaf "\x7b" false 4 5 none :: nestedMembers.map Prod.fst ++ [.leaf "\x7d" false 21 22 none])

def nestedElements : List (Cst × List Token) :=
  let a : Cst := .leaf "identifier" true 1 2 none
  [(a, [a.token]), (nestedObject, nestedMembers.flatMap Prod.snd)]

/-- The syntax of a pattern in which another is nested, with an element left out between commas. -/
def nestedPattern : Cst :=
  .branch "array_pattern" 0 23 none [
    .leaf "[" false 0 1 none,
    .leaf "identifier" true 1 2 none,
    .leaf "," false 2 3 none,
    .leaf "," false 3 4 none,
    nestedObject,
    .leaf "]" false 22 23 none]

theorem pattern_nested : Pattern .alone nestedPattern (nestedElements.flatMap Prod.snd) := by
  have hmembers : ∀ e ∈ nestedMembers, Pattern .member e.1 e.2 := by
    simp only [nestedMembers, List.forall_mem_cons]
    exact ⟨.shorthand rfl, .pair rfl rfl (.assignment rfl rfl (.identifier rfl)), .defaulted rfl rfl rfl,
      .rest rfl rfl (.identifier rfl), by simp⟩
  refine .array rfl rfl ?_
  simp only [nestedElements, List.forall_mem_cons]
  exact ⟨.identifier rfl, .object rfl rfl hmembers, by simp⟩

/-- All names of the pattern are found, and neither the key `c` nor a default value. -/
theorem boundIdentifiers_lowered_nested :
    ∃ v, lower nestedSource none nestedPattern = .ok v ∧
      Scope.Finds v [⟨"a", 1⟩, ⟨"b", 5⟩, ⟨"d", 9⟩, ⟨"e", 13⟩, ⟨"f", 20⟩] := by
  have hnone : ∀ u ∈ nestedPattern.nodes,
      literalBodies nestedSource u.token (u.children.map Tree.token) = [] := by decide
  have hnamed : ∀ n ∈ nestedElements.flatMap Prod.snd, n.IsNamed nestedSource := by decide
  obtain ⟨-, ⟨v, hv, hfound⟩ | ⟨f, -, -, u, hu, body, hbody, -⟩⟩ :=
    boundIdentifiers_lowered pattern_nested (by decide) hnamed none
  · exact ⟨v, hv, hfound⟩
  · rw [hnone u hu] at hbody
    cases hbody

/-- The parameter `a="\u{110000}"` of the function in the source `function f(a="\u{110000}"){}`. -/
def overlongParameter : Cst :=
  .branch "assignment_pattern" 11 25 none [
    .leaf "identifier" true 11 12 (some "left"),
    .leaf "=" false 12 13 none,
    .branch "string" 13 25 (some "right") [
      .leaf "\"" false 13 14 none,
      .leaf "escape_sequence" true 14 24 none,
      .leaf "\"" false 24 25 none]]

/-- The default value of a parameter keeps its name from being found if it holds an escape that denotes no code
    point. -/
theorem lower_overlong :
    let source : Source := .ofText "function f(a=\"\\u\x7b110000\x7d\")\x7b\x7d"
    let name : Token := ⟨"identifier", true, false, 11, 12, some "left"⟩
    Pattern .alone overlongParameter [name] ∧ GrammaticalTree overlongParameter ∧ name.IsNamed source ∧
      lower source (some "formal_parameters") overlongParameter = .error .codePointTooLarge :=
  ⟨.assignment rfl rfl (.identifier rfl), by decide, by decide, rfl⟩

end Sample

end Arbor
