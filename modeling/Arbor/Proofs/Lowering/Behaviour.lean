import Arbor.Lowering.Filler
import Arbor.Proofs.Concrete.Tree
import Arbor.Proofs.Outcomes
import Arbor.Proofs.Value.Tidy

set_option autoImplicit false

/-! # What fillers yield

What a node becomes is told from what its children become. A child behaves when it becomes a tidy value or
fails only by certain faults (`Branch.Behaves`), and where the children of a node behave every filler yields
something tidy, or one of these faults (`Lowering.fill_yields`). The faults `F` are left open: which of them
are possible depends on the tree. -/

namespace Arbor.Lowering

open Value (Tidy Grown)

/-! ## Nodes with tidy fields -/

/-- The faults `F` include those of a list that stands where a record is looked for. -/
def TakesLists (F : Fault → Prop) : Prop := F .listInsteadOfRecord ∧ F .notARecord

/-- A tidy value that is a record or null, or a list if the faults `F` include those that lists lead to. -/
structure Plain (F : Fault → Prop) (v : Value) : Prop extends Grown v where
  list : ∀ items, v = .list items → TakesLists F

/-- The names of the fields in which a tracker looks for lists. -/
def listNames : List String := ["params", "declarations", "specifiers", "elements", "properties"]

/-- Whether a node can have fields of these names beside its type and its range. -/
def areFieldNames (names : List String) : Bool :=
  decide names.Nodup && names.all fun name => name ∉ ["type", "start", "end"]

/-- A value that may be stored under a name. -/
structure Fit (name : String) (v : Value) : Prop where
  tidy : v.Tidy
  list : name ∈ listNames → v.isIterable = true

theorem fit_of_grown {v : Value} (h : v.Grown) (name : String) : Fit name v :=
  ⟨h.tidy, fun _ => h.isIterable⟩

section

variable {F : Fault → Prop} {v : Value}

theorem Plain.fit (h : Plain F v) (name : String) : Fit name v := fit_of_grown h.toGrown name

theorem fit_list {items : List Value} (h : ∀ v ∈ items, v.Tidy) (name : String) :
    Fit name (.list items) := ⟨.list h, fun _ => rfl⟩

@[simp] theorem fit_nil (name : String) : Fit name (.list []) := fit_list (by simp) name

@[simp] theorem fit_null (name : String) : Fit name .null := ⟨.scalar _, fun _ => rfl⟩

@[simp] theorem fit_text (name : String) (t : Text) : Fit name (.text t) := ⟨.scalar _, fun _ => rfl⟩

theorem fit_of_tidy (hv : v.Tidy) {name : String} (h : name ∉ listNames) : Fit name v :=
  ⟨hv, fun hname => absurd hname h⟩

theorem fit_bool {name : String} (h : name ∉ listNames) (b : Bool) : Fit name (.bool b) :=
  fit_of_tidy (.scalar _) h

theorem plain_null : Plain F .null := ⟨Value.grown_null, fun _ h => by cases h⟩

theorem plain_record {fields : List (Key × Value)} (h : Tidy (.record fields)) :
    Plain F (.record fields) := ⟨h.grown, fun _ h => by cases h⟩

end

/-- A field in which a tracker looks for a list is one of them by its name. -/
theorem mem_listNames {name : String} (h : (name : Text) ∈ Heap.listFields) : name ∈ listNames := by
  have heq : Heap.listFields = listNames.map Text.ofString := rfl
  rwa [heq, List.mem_map_of_injective fun _ _ h => Text.ofString_inj.1 h] at h

/-- Two texts in a record that is no node, under names in which a tracker looks for no list. -/
theorem tidy_texts {first second : String} (hne : first ≠ second) (hfirst : first ∉ listNames)
    (hsecond : second ∉ listNames) (t u : Text) :
    Tidy (.record [(.text first, .text t), (.text second, .text u)]) := by
  refine .record ?_ ?_ ?_
  · show ([.text first, .text second] : List Key).Nodup
    simpa using hne
  · simp only [List.forall_mem_cons]
    exact ⟨.scalar _, .scalar _, by simp⟩
  · simp only [List.forall_mem_cons, Scalar.text.injEq]
    exact ⟨fun name hname h => absurd (mem_listNames (h ▸ hname)) hfirst,
      fun name hname h => absurd (mem_listNames (h ▸ hname)) hsecond, by simp⟩

section

variable {type : Text} {fields : List (String × Value)}

/-- The fields of a node have names that differ from each other and from those of its type and range. -/
theorem nodup_keys_nodeAt (hnames : areFieldNames (fields.map Prod.fst) = true) :
    (([.text "type", .text "start", .text "end"] : List Key) ++
      (fields.map Prod.fst).map fun name => Scalar.text (Text.ofString name)).Nodup := by
  simp only [areFieldNames, Bool.and_eq_true, decide_eq_true_eq, List.all_eq_true] at hnames
  obtain ⟨hnodup, hapart⟩ := hnames
  have hinj : Function.Injective fun name => Scalar.text (Text.ofString name) := fun a b h => by
    simpa using h
  refine List.nodup_append.2 ⟨by decide, hnodup.map hinj, fun key hkey key' hkey' heq => ?_⟩
  obtain ⟨name, hname, rfl⟩ := List.mem_map.1 hkey'
  have hkeys : ([.text "type", .text "start", .text "end"] : List Key) =
      ["type", "start", "end"].map fun name => Scalar.text (Text.ofString name) := rfl
  rw [heq, hkeys, List.mem_map_of_injective hinj] at hkey
  exact hapart name hname hkey

/-- A node is tidy if its fields have names of their own and hold what fits. -/
theorem grown_nodeAt {start stop : Int} (hnames : areFieldNames (fields.map Prod.fst) = true)
    (hfit : ∀ f ∈ fields, Fit f.1 f.2) : Grown (nodeAt type start stop fields) := by
  refine Tidy.grown (.record ?_ (fun f hf => ?_) (fun f hf name hname heq => ?_))
  · simpa [Fields.keys, Function.comp_def] using nodup_keys_nodeAt hnames
  · simp only [List.mem_cons, List.mem_map] at hf
    rcases hf with rfl | rfl | rfl | ⟨g, hg, rfl⟩
    · exact .scalar _
    · exact .scalar _
    · exact .scalar _
    · exact (hfit g hg).tidy
  · simp only [List.mem_cons, List.mem_map] at hf
    have hrange : ∀ name ∈ Heap.listFields, name ≠ "start" ∧ name ≠ "end" := by decide
    rcases hf with rfl | rfl | rfl | ⟨g, hg, rfl⟩ <;> rw [← Scalar.text.inj heq] at hname
    · rfl
    · exact absurd rfl (hrange _ hname).1
    · exact absurd rfl (hrange _ hname).2
    · exact (hfit g hg).list (mem_listNames hname)

theorem grown_nodeOf {token : Token} (hnames : areFieldNames (fields.map Prod.fst) = true)
    (hfit : ∀ f ∈ fields, Fit f.1 f.2) : Grown (nodeOf type token fields) := grown_nodeAt hnames hfit

theorem plain_nodeOf {F : Fault → Prop} {token : Token}
    (hnames : areFieldNames (fields.map Prod.fst) = true) (hfit : ∀ f ∈ fields, Fit f.1 f.2) :
    Plain F (nodeOf type token fields) := plain_record (grown_nodeOf hnames hfit).tidy

end

/-! ## Children that behave -/

/-- The kinds of nodes that have arguments. -/
def callKinds : List String := ["call_expression", "new_expression", "ERROR"]

/-- What a node of a kind may become: a list only if it is made of arguments, or if the faults `F` include
    those that lists lead to. -/
structure Becomes (F : Fault → Prop) (kind : String) (v : Value) : Prop extends Grown v where
  list : kind ≠ "arguments" → ∀ items, v = .list items → TakesLists F

theorem Plain.becomes {F : Fault → Prop} {v : Value} (h : Plain F v) (kind : String) :
    Becomes F kind v := ⟨h.toGrown, fun _ => h.list⟩

theorem Becomes.plain {F : Fault → Prop} {kind : String} {v : Value} (h : Becomes F kind v)
    (hkind : kind = "arguments" → TakesLists F) : Plain F v := by
  refine ⟨h.toGrown, fun items hitems => ?_⟩
  by_cases hk : kind = "arguments"
  · exact hkind hk
  · exact h.list hk items hitems

/-- What a node becomes is tidy, or one of the faults `F`. Arguments are held by calls. -/
structure Branch.Behaves (F : Fault → Prop) (b : Branch) : Prop where
  value : Yields F (Becomes F b.kind) (Branch.value b)
  link : Yields F (fun found => found.1.Grown) b.note.link
  jsxName : Yields F Grown b.note.jsxName
  arguments : ∀ c ∈ b.children, c.kind = "arguments" → b.kind ∈ callKinds ∨ TakesLists F

/-- Branches that behave, and all below them. -/
def AllBehave (F : Fault → Prop) (branches : List Branch) : Prop :=
  ∀ b ∈ branches, b.Everywhere (Branch.Behaves F)

/-- A branch, if there is one, that behaves, and all below it. -/
def SomeBehaves (F : Fault → Prop) (b? : Option Branch) : Prop :=
  ∀ b, b? = some b → b.Everywhere (Branch.Behaves F)

/-- A place whose children behave. -/
structure Site.Behaves (F : Fault → Prop) (s : Site) : Prop where
  children : AllBehave F s.children
  arguments : ∀ c ∈ s.children, c.kind = "arguments" → s.token.kind ∈ callKinds ∨ TakesLists F

section

variable {F : Fault → Prop} {s : Site} {b : Branch} {b? c? : Option Branch} {branches : List Branch}

theorem value_yields (hb : b.Everywhere (Branch.Behaves F)) : Yields F Grown (Branch.value b) :=
  hb.here.value.mono fun _ h => h.toGrown

theorem site_behaves (hb : b.Everywhere (Branch.Behaves F)) : (Branch.site b).Behaves F :=
  ⟨fun _ hc => hb.child hc, hb.here.arguments⟩

theorem SomeBehaves.none : SomeBehaves F none := fun _ h => by cases h

theorem SomeBehaves.of_mem (h : AllBehave F branches) (hb : ∀ b, b? = some b → b ∈ branches) :
    SomeBehaves F b? := fun b heq => h b (hb b heq)

theorem SomeBehaves.orElse (hb : SomeBehaves F b?) (hc : SomeBehaves F c?) :
    SomeBehaves F (b? <|> c?) := by
  cases b? with
  | none => exact hc
  | some b => exact hb

theorem SomeBehaves.filter (hb : SomeBehaves F b?) (p : Branch → Bool) : SomeBehaves F (b?.filter p) :=
  fun b h => hb b (Option.eq_some_of_filter_eq_some h)

theorem AllBehave.head? (h : AllBehave F branches) : SomeBehaves F branches.head? :=
  .of_mem h fun _ => List.mem_of_mem_head?

theorem AllBehave.getLast? (h : AllBehave F branches) : SomeBehaves F branches.getLast? :=
  .of_mem h fun _ => List.mem_of_getLast?

theorem AllBehave.getElem? (h : AllBehave F branches) (i : Nat) : SomeBehaves F branches[i]? :=
  .of_mem h fun _ => List.mem_of_getElem?

theorem AllBehave.subset {branches' : List Branch} (h : AllBehave F branches)
    (hsub : branches' ⊆ branches) : AllBehave F branches' := fun b hb => h b (hsub hb)

variable (hs : s.Behaves F)

include hs

theorem parts_behave : AllBehave F s.parts := hs.children.subset (List.filter_subset_self _)

theorem partsOf_behave (kind : String) : AllBehave F (s.partsOf kind) :=
  (parts_behave hs).subset (List.filter_subset_self _)

theorem fieldAll_behave (field : String) : AllBehave F (s.fieldAll field) :=
  (parts_behave hs).subset (List.filter_subset_self _)

theorem field?_behaves (field : String) : SomeBehaves F (s.field? field) :=
  (fieldAll_behave hs field).head?

theorem first?_behaves : SomeBehaves F s.first? := (parts_behave hs).head?

/-- Where no arguments are held, no child becomes a list without one of the faults `F`. -/
theorem plain_child (hkind : s.token.kind ∉ callKinds) (hb : b ∈ s.children) :
    Yields F (Plain F) (Branch.value b) :=
  (hs.children b hb).here.value.mono fun _ h =>
    h.plain fun harguments => (hs.arguments b hb harguments).resolve_left hkind

theorem plain_field (hkind : s.token.kind ∉ callKinds) (field : String) :
    Yields F (Plain F) (valueOf (s.field? field)) := by
  cases hfield : s.field? field with
  | none => exact plain_null
  | some b =>
    have hmem : b ∈ s.children :=
      List.mem_of_mem_filter (List.mem_of_mem_filter (List.mem_of_mem_head? hfield))
    exact plain_child hs hkind hmem

end

/-! ## What several children yield -/

section

variable {F : Fault → Prop} {s : Site} {b : Branch} {b? : Option Branch} {branches : List Branch}

theorem valueOf_yields (h : SomeBehaves F b?) : Yields F Grown (valueOf b?) := by
  cases b? with
  | none => exact Value.grown_null
  | some b => exact value_yields (h b rfl)

/-- Several children yield tidy values. -/
theorem mapM_yields {f : Branch → Except Fault Value} (h : ∀ b ∈ branches, Yields F Grown (f b)) :
    Yields F (fun values => ∀ v ∈ values, v.Tidy) (branches.mapM f) :=
  Yields.mapM fun b hb => (h b hb).mono fun _ hv => hv.tidy

theorem valuesOf_yields (h : AllBehave F branches) :
    Yields F (fun values => ∀ v ∈ values, v.Tidy) (valuesOf branches) := by
  refine (mapM_yields fun b hb => value_yields (h b hb)).bind fun values hvalues => ?_
  exact fun v hv => hvalues v (List.mem_of_mem_filter hv)

/-- One expression is what it is alone, and several become a node. -/
theorem sequenceOf_yields {Q : Value → Prop} (hnode : ∀ v, Plain F v → Q v) (h : AllBehave F branches)
    (hvalue : ∀ b ∈ branches, Yields F Q (Branch.value b)) (t : Token) :
    Yields F Q (sequenceOf t branches) := by
  have several : Yields F Q (do
      pure (nodeOf "SequenceExpression" t [("expressions", .list (← valuesOf branches))])) :=
    (valuesOf_yields h).bind fun values hvalues =>
      hnode _ (plain_nodeOf rfl (by simpa using fit_list hvalues "expressions"))
  rcases branches with _ | ⟨b, _ | ⟨c, rest⟩⟩
  · exact several
  · exact hvalue b (List.mem_singleton_self b)
  · exact several

/-- The parts of a node yield one expression. -/
theorem expression_yields {Q : Value → Prop} (hnode : ∀ v, Plain F v → Q v) (hs : s.Behaves F)
    (hvalue : ∀ b ∈ s.parts, Yields F Q (Branch.value b)) : Yields F Q (expressionOf s) := by
  have hsequence := sequenceOf_yields hnode (parts_behave hs) hvalue s.token
  unfold expressionOf
  split
  · exact hnode _ plain_null
  · exact hsequence

theorem expressionOf_yields (hs : s.Behaves F) : Yields F Grown (expressionOf s) :=
  expression_yields (fun _ h => h.toGrown) hs fun b hb => value_yields (parts_behave hs b hb)

theorem expressionOf_plain (hs : s.Behaves F) (hkind : s.token.kind ∉ callKinds) :
    Yields F (Plain F) (expressionOf s) :=
  expression_yields (fun _ h => h) hs fun _ hb => plain_child hs hkind (List.mem_of_mem_filter hb)

theorem firstOf_yields (hs : s.Behaves F) : Yields F Grown (firstOf s) :=
  valueOf_yields (first?_behaves hs)

theorem elementsOf_yields (h : AllBehave F branches) (pending : Bool) :
    Yields F (fun values => ∀ v ∈ values, v.Tidy) (elementsOf pending branches) := by
  induction branches generalizing pending with
  | nil => exact fun _ hv => absurd hv List.not_mem_nil
  | cons b rest ih =>
    obtain ⟨hb, hrest⟩ := List.forall_mem_cons.1 h
    rw [elementsOf]
    split
    · refine (ih hrest false).bind fun after hafter => ?_
      cases pending with
      | true => exact hafter
      | false => exact List.forall_mem_cons.2 ⟨.scalar _, hafter⟩
    · split
      · refine (value_yields hb).bind fun v hv => (ih hrest true).bind fun after hafter => ?_
        exact List.forall_mem_cons.2 ⟨hv.tidy, hafter⟩
      · exact ih hrest pending

theorem clauseOf_yields (h : SomeBehaves F b?) : Yields F Grown (clauseOf b?) := by
  cases b? with
  | none => exact Value.grown_null
  | some b =>
    rw [clauseOf]
    split
    · exact Value.grown_null
    · split
      · exact expressionOf_yields (site_behaves (h b rfl))
      · exact value_yields (h b rfl)

theorem keyOf_yields (h : SomeBehaves F b?) : Yields F Grown (keyOf b?) := by
  cases b? with
  | none => exact Value.grown_null
  | some b =>
    rw [keyOf]
    split
    · exact expressionOf_yields (site_behaves (h b rfl))
    · exact value_yields (h b rfl)

theorem keyOf_plain (hs : s.Behaves F) (hkind : s.token.kind ∉ callKinds) (field : String) :
    Yields F (Plain F) (keyOf (s.field? field)) := by
  have hplain := plain_field hs hkind field
  have hbehaves := field?_behaves hs field
  cases hfield : s.field? field with
  | none => exact plain_null
  | some b =>
    rw [hfield] at hplain hbehaves
    rw [keyOf]
    split
    · next hcomputed =>
      refine expressionOf_plain (site_behaves (hbehaves b rfl)) ?_
      show b.kind ∉ callKinds
      rw [hcomputed]
      decide
    · exact hplain

theorem grown_identifierOf (source : Source) (t : Token) : (identifierOf source t).Grown :=
  grown_nodeOf rfl (by simp)

theorem grown_shorthandOf (source : Source) (t : Token) : (shorthandOf source t).Grown := by
  have hname := fit_of_grown (grown_identifierOf source t)
  exact grown_nodeOf rfl (by simp [hname, fit_bool, listNames])

theorem membersOf_yields (h : AllBehave F branches) (source : Source) :
    Yields F (fun values => ∀ v ∈ values, v.Tidy) (membersOf source branches) := by
  refine (mapM_yields fun b hb => ?_).bind fun values hvalues => ?_
  · split
    · exact grown_shorthandOf source b.token
    · exact value_yields (h b hb)
  · exact fun v hv => hvalues v (List.mem_of_mem_filter hv)

theorem paramsOf_yields (h : SomeBehaves F b?) :
    Yields F (fun values => ∀ v ∈ values, v.Tidy) (paramsOf b?) := by
  cases b? with
  | none => exact fun _ hv => absurd hv List.not_mem_nil
  | some b =>
    rw [paramsOf]
    split
    · exact valuesOf_yields (parts_behave (site_behaves (h b rfl)))
    · exact valuesOf_yields fun c hc => h c (by rw [List.mem_singleton.1 hc])

theorem decoratorsOf_yields (hs : s.Behaves F) :
    Yields F (fun values => ∀ v ∈ values, v.Tidy) (decoratorsOf s) := by
  have hfield := fieldAll_behave hs "decorator"
  unfold decoratorsOf
  split
  · exact valuesOf_yields (partsOf_behave hs "decorator")
  · exact valuesOf_yields hfield

theorem heritageClauses_yields (h : AllBehave F branches) {base : Value} (hbase : base.Grown)
    {implemented : List Value} (himplemented : ∀ v ∈ implemented, v.Tidy) :
    Yields F (fun found => found.1.Grown ∧ ∀ v ∈ found.2, v.Tidy)
      (heritageClauses base implemented branches) := by
  induction branches generalizing base implemented with
  | nil => exact ⟨hbase, himplemented⟩
  | cons clause rest ih =>
    obtain ⟨hclause, hrest⟩ := List.forall_mem_cons.1 h
    have hsite := site_behaves hclause
    rw [heritageClauses]
    split
    · have hvalue := valueOf_yields ((field?_behaves hsite "value").orElse (first?_behaves hsite))
      exact hvalue.bind fun base hbase => ih hrest hbase himplemented
    · split
      · refine (valuesOf_yields (parts_behave hsite)).bind fun more hmore => ?_
        exact ih hrest hbase (List.forall_mem_append.2 ⟨himplemented, hmore⟩)
      · split
        · exact (value_yields hclause).bind fun base hbase => ih hrest hbase himplemented
        · exact ih hrest hbase himplemented

theorem heritageOf_yields (hs : s.Behaves F) :
    Yields F (fun found => found.1.Grown ∧ ∀ v ∈ found.2, v.Tidy) (heritageOf s) := by
  have hlast := (partsOf_behave hs "class_heritage").getLast?
  unfold heritageOf
  split
  · next heritage hheritage =>
    exact heritageClauses_yields (parts_behave (site_behaves (hlast heritage hheritage)))
      Value.grown_null (by simp)
  · exact ⟨Value.grown_null, by simp⟩

theorem importSpecifierOf_yields (hb : b.Everywhere (Branch.Behaves F)) :
    Yields F Grown (importSpecifierOf b) := by
  have hsite := site_behaves hb
  have hname := field?_behaves hsite "name"
  refine (valueOf_yields hname).bind fun imported himported => ?_
  refine (valueOf_yields ((field?_behaves hsite "alias").orElse hname)).bind fun localName hlocal => ?_
  exact grown_nodeOf rfl (by simp [fit_of_grown himported, fit_of_grown hlocal])

theorem clauseSpecifiers_yields (hb : b.Everywhere (Branch.Behaves F)) :
    Yields F (fun values => ∀ v ∈ values, v.Tidy) (clauseSpecifiers b) := by
  have hsite := site_behaves hb
  have single {type : Text} {v : Value} (hv : v.Grown) :
      ∀ w ∈ [nodeOf type b.token [("local", v)]], w.Tidy := by
    rw [List.forall_mem_singleton]
    exact (grown_nodeOf rfl (by simp [fit_of_grown hv])).tidy
  unfold clauseSpecifiers
  split
  · exact (value_yields hb).bind fun v hv => single hv
  · split
    · exact (firstOf_yields hsite).bind fun v hv => single hv
    · split
      · exact mapM_yields fun c hc => importSpecifierOf_yields (partsOf_behave hsite _ c hc)
      · exact fun _ hv => absurd hv List.not_mem_nil

theorem importSpecifiersOf_yields (hs : s.Behaves F) :
    Yields F (fun values => ∀ v ∈ values, v.Tidy) (importSpecifiersOf s) := by
  refine (Yields.mapM (R := fun values => ∀ v ∈ values, v.Tidy) fun clause hclause => ?_).bind
    fun found hfound => ?_
  · obtain ⟨b, hb, hclause⟩ := List.mem_flatMap.1 hclause
    exact clauseSpecifiers_yields
      (parts_behave (site_behaves (partsOf_behave hs _ b hb)) clause hclause)
  · intro v hv
    obtain ⟨values, hvalues, hv⟩ := List.mem_flatten.1 hv
    exact hfound values hvalues v hv

theorem jsxAttributesOf_yields (hs : s.Behaves F) :
    Yields F (fun values => ∀ v ∈ values, v.Tidy) (jsxAttributesOf s) := by
  have hfield := fieldAll_behave hs "attribute"
  unfold jsxAttributesOf
  split
  · exact valuesOf_yields ((parts_behave hs).subset (List.filter_subset_self _))
  · exact valuesOf_yields hfield

theorem jsxNameOf_yields (h : SomeBehaves F b?) : Yields F Grown (jsxNameOf b?) := by
  cases b? with
  | none => exact Value.grown_null
  | some b => exact (h b rfl).here.jsxName

theorem jsxOpeningOf_yields (hs : s.Behaves F) (selfClosing : Bool) :
    Yields F Grown (jsxOpeningOf s selfClosing) := by
  have htypes := field?_behaves hs "type_arguments"
  refine (jsxNameOf_yields (field?_behaves hs "name")).bind fun name hname => ?_
  have attributes {typeArguments : List (String × Value)}
      (hnames : areFieldNames (("name" :: typeArguments.map Prod.fst) ++
        ["attributes", "selfClosing"]) = true)
      (hfit : ∀ f ∈ typeArguments, Fit f.1 f.2) :
      Yields F Grown (do
        let attributes ← jsxAttributesOf s
        let closing : List (String × Value) :=
          [("attributes", .list attributes), ("selfClosing", .bool selfClosing)]
        pure (nodeOf "JSXOpeningElement" s.token (("name", name) :: typeArguments ++ closing))) := by
    refine (jsxAttributesOf_yields hs).bind fun attributes hattributes => ?_
    refine grown_nodeOf (by simpa using hnames) ?_
    simp only [List.cons_append, List.forall_mem_cons, List.forall_mem_append]
    exact ⟨fit_of_grown hname _, hfit, fit_list hattributes _, fit_bool (by decide) _, by simp⟩
  cases htype : s.field? "type_arguments" with
  | none => exact attributes rfl (by simp)
  | some b =>
    refine (value_yields (htypes b htype)).bind fun v hv => attributes rfl ?_
    simpa using fit_of_grown hv "typeArguments"

theorem typeOf_yields (h : SomeBehaves F b?) (source : Source) : Yields F Grown (typeOf source b?) := by
  cases b? with
  | none => exact Value.grown_null
  | some b =>
    rw [typeOf]
    split
    · have hname := fit_of_grown (grown_identifierOf source b.token) "typeName"
      exact grown_nodeOf rfl (by simpa using hname)
    · exact value_yields (h b rfl)

/-! ## Patterns -/

/-- Where a list can be one of the faults, a field can be stored in what is plain. -/
theorem setField_yields {v : Value} (hv : Plain F v) (hnull : v.isNull = false) (name : String)
    (hname : name ∉ listNames) {w : Value} (hw : w.Tidy) :
    Yields F (fun v => Plain F v ∧ v.isNull = false) (setField v name w) := by
  cases v with
  | scalar s =>
    cases hv.null s rfl
    cases hnull
  | list items => exact (hv.list items rfl).1
  | record fields =>
    refine ⟨plain_record (hv.tidy.set hw fun n hn heq => ?_), rfl⟩
    rw [← Scalar.text.inj heq] at hn
    exact absurd (mem_listNames hn) hname

theorem withType_yields {pattern : Value} (hp : Plain F pattern) {type? : Option Branch}
    (h : SomeBehaves F type?) (extend : Bool) :
    Yields F (fun v => Plain F v ∧ (pattern.isNull = false → v.isNull = false))
      (withType pattern type? extend) := by
  cases type? with
  | none => exact ⟨hp, id⟩
  | some type =>
    rw [withType]
    split
    · exact ⟨hp, id⟩
    · next hnull =>
      refine (value_yields (h type rfl)).bind fun v hv => ?_
      have hset := setField_yields hp (Bool.eq_false_iff.2 hnull) "typeAnnotation" (by decide)
        hv.tidy
      refine hset.bind fun typed htyped => ?_
      cases extend with
      | false => exact ⟨htyped.1, fun _ => htyped.2⟩
      | true =>
        refine (setField_yields htyped.1 htyped.2 "end" (by decide) (.scalar _)).mono ?_
        exact fun v hv => ⟨hv.1, fun _ => hv.2⟩

end

/-! ## Fillers -/

/-- Whether a filler may yield a number or a truth value. -/
def Filler.isFlag : Filler → Bool
  | constant s => !s.isIterable
  | token _ | tokenBefore _ _ | operatorFirst | expressionBody | computed _ | number => true
  | _ => false

/-- The text between the quotes of a string literal. -/
def stringBody (source : Source) (t : Token) : Text := ((t.text source).dropLast 1).drop 1

/-- What a filler asks of a place so that it yields something or one of the faults `F`. -/
def Filler.Asks (F : Fault → Prop) (source : Source) (s : Site) : Filler → Prop
  | declarationWord => s.children = [] → F .noSuchElement
  | string => Yields F (fun _ => True) (Literal.unescape (stringBody source s.token))
  | binding => s.token.kind ∉ callKinds
  | caught => s.token.kind ∉ callKinds
  | _ => True

/-- What a filler may leave in a field: something tidy, that can be gone through unless it is a flag. -/
def Fills (flag : Bool) (v? : Option Value) : Prop :=
  ∀ v, v? = some v → v.Tidy ∧ (flag = false → v.isIterable = true)

section

variable {F : Fault → Prop} {s : Site}

theorem fills_none (flag : Bool) : Fills flag none := fun _ h => by cases h

theorem fills_scalar (c : Scalar) : Fills (!c.isIterable) (some (.scalar c)) := by
  intro v hv
  cases hv
  exact ⟨.scalar c, fun h => by simpa [Value.isIterable] using h⟩

theorem fills_text (flag : Bool) (t : Text) : Fills flag (some (.text t)) := by
  intro v hv
  cases hv
  exact ⟨.scalar _, fun _ => rfl⟩

theorem fills_flag (c : Scalar) : Fills true (some (.scalar c)) := by
  intro v hv
  cases hv
  exact ⟨.scalar c, fun h => by cases h⟩

theorem fills_of_grown {v : Value} (hv : v.Grown) : Fills false (some v) := by
  intro w hw
  cases hw
  exact ⟨hv.tidy, fun _ => hv.isIterable⟩

theorem fills_value {x : Except Fault Value} (hx : Yields F Grown x) :
    Yields F (Fills false) (some <$> x) := hx.map fun _ hv => fills_of_grown hv

theorem fills_list {x : Except Fault (List Value)}
    (hx : Yields F (fun values => ∀ v ∈ values, v.Tidy) x) :
    Yields F (Fills false) ((some ∘ Value.list) <$> x) :=
  hx.map fun _ hv => fills_of_grown (Value.grown_list hv)

theorem findSome?_behaves (hs : s.Behaves F) (fields : List String) :
    SomeBehaves F (fields.findSome? s.field?) := by
  intro b hb
  obtain ⟨field, -, hfield⟩ := List.exists_of_findSome?_eq_some hb
  exact field?_behaves hs field b hfield

/-- The parts of the child under a field, or none. -/
theorem allWithin_yields (hs : s.Behaves F) (source : Source) (field : String) :
    Yields F (Fills false) ((Filler.allWithin field).fill source s) := by
  have hfield := field?_behaves hs field
  simp only [Filler.fill]
  split
  · next b hb => exact fills_list (valuesOf_yields (parts_behave (site_behaves (hfield b hb))))
  · exact fills_of_grown (Value.grown_list (by simp))

/-- A pattern with the type that is written beside it. -/
theorem typed_yields (hs : s.Behaves F) (hkind : s.token.kind ∉ callKinds) (field : String)
    (widen : Bool) :
    Yields F (Fills false)
      (valueOf (s.field? field) >>= fun pattern => some <$> withType pattern (s.field? "type") widen) := by
  refine (plain_field hs hkind field).bind fun pattern hpattern => ?_
  exact fills_value ((withType_yields hpattern (field?_behaves hs "type") widen).mono
    fun _ hv => hv.1.toGrown)

/-- Every filler yields what fits in a field, or one of the faults `F`. -/
theorem fill_yields (hs : s.Behaves F) {source : Source} {filler : Filler}
    (hasks : filler.Asks F source s) : Yields F (Fills filler.isFlag) (filler.fill source s) := by
  cases filler with
  | constant c => exact fills_scalar c
  | nothing => exact fills_of_grown (Value.grown_list (by simp))
  | source => exact fills_text _ _
  | identifier => exact fills_of_grown (grown_nodeOf rfl (by simp))
  | child field => exact fills_value (valueOf_yields (field?_behaves hs field))
  | childIfAny field =>
    have hfield := field?_behaves hs field
    simp only [Filler.fill]
    split
    · next b hb => exact fills_value (value_yields (hfield b hb))
    · exact fills_none _
  | dropped field => exact (valueOf_yields (field?_behaves hs field)).bind fun _ _ => fills_none _
  | first => exact fills_value (firstOf_yields hs)
  | lastOfMany =>
    have hlast : AllBehave F (s.parts.drop 1) := (parts_behave hs).subset (List.drop_subset 1 _)
    exact fills_value (valueOf_yields hlast.getLast?)
  | sequence => exact fills_value (expressionOf_yields hs)
  | all => exact fills_list (valuesOf_yields (parts_behave hs))
  | allOf kind => exact fills_list (valuesOf_yields (partsOf_behave hs kind))
  | allUnder field => exact fills_list (valuesOf_yields (fieldAll_behave hs field))
  | allWithin field => exact allWithin_yields hs source field
  | elements => exact fills_list (elementsOf_yields hs.children false)
  | members => exact fills_list (membersOf_yields (parts_behave hs) source)
  | token t => exact fills_flag _
  | tokenBefore t field => exact fills_flag _
  | operator => exact fills_text _ _
  | operatorFirst => exact fills_flag _
  | declarationWord =>
    simp only [Filler.fill]
    split
    · exact fills_text _ _
    · exact fills_text _ _
    · next hchildren => exact hasks hchildren
  | binding => exact typed_yields hs hasks "name" true
  | caught => exact typed_yields hs hasks "parameter" false
  | clause field => exact fills_value (clauseOf_yields (field?_behaves hs field))
  | params fields => exact fills_list (paramsOf_yields (findSome?_behaves hs fields))
  | expressionBody => exact fills_flag _
  | computed field => exact fills_flag _
  | key field => exact fills_value (keyOf_yields (field?_behaves hs field))
  | arguments => exact allWithin_yields hs source "arguments"
  | number => exact fills_flag _
  | bigint =>
    simp only [Filler.fill]
    split
    · exact fills_text _ _
    · exact fills_none _
  | string => exact (show Yields F _ _ from hasks).bind fun body _ => fills_text _ body
  | regex =>
    -- the pattern and the flags lie in a record that is no node
    exact fills_of_grown (tidy_texts (by decide) (by decide) (by decide) _ _).grown
  | privateName => exact fills_text _ _
  | decorators => exact fills_list (decoratorsOf_yields hs)
  | superClass => exact (heritageOf_yields hs).bind fun _ h => fills_of_grown h.1
  | implements =>
    refine (heritageOf_yields hs).bind fun found h => ?_
    obtain ⟨base, implemented⟩ := found
    show Fills _ (if implemented.isEmpty then none else some (.list implemented))
    split
    · exact fills_none _
    · exact fills_of_grown (Value.grown_list h.2)
  | importKind => exact fills_text _ _
  | importSpecifiers => exact fills_list (importSpecifiersOf_yields hs)
  | jsxName field => exact fills_value (jsxNameOf_yields (field?_behaves hs field))
  | jsxAttributeName => exact fills_value (jsxNameOf_yields (first?_behaves hs))
  | jsxAttributes => exact fills_list (jsxAttributesOf_yields hs)
  | jsxSelfOpening => exact fills_value (jsxOpeningOf_yields hs true)
  | typeAt position => exact fills_value (typeOf_yields ((parts_behave hs).getElem? position) source)
  | types =>
    refine fills_list (mapM_yields fun b hb => typeOf_yields (fun c hc => ?_) source)
    cases hc
    exact parts_behave hs b hb
  | typeWithin field =>
    refine fills_value (typeOf_yields (fun c hc => ?_) source)
    obtain ⟨b, hb, hc⟩ := Option.bind_eq_some_iff.1 hc
    exact first?_behaves (site_behaves (field?_behaves hs field b hb)) c hc

/-- Several fields are filled with what fits under their names. -/
theorem fillAll_yields (hs : s.Behaves F) {source : Source} {fields : List (String × Filler)}
    (hfields : ∀ f ∈ fields, f.2.Asks F source s ∧ (f.2.isFlag = true → f.1 ∉ listNames)) :
    Yields F (fun filled => (filled.map Prod.fst).Sublist (fields.map Prod.fst) ∧
      ∀ f ∈ filled, Fit f.1 f.2) (fillAll source s fields) := by
  induction fields with
  | nil => exact ⟨.slnil, by simp⟩
  | cons field rest ih =>
    obtain ⟨name, filler⟩ := field
    obtain ⟨⟨hasks, hflag⟩, hrest⟩ := List.forall_mem_cons.1 hfields
    rw [fillAll]
    refine (fill_yields hs hasks).bind fun value? hvalue => (ih hrest).bind fun more hmore => ?_
    cases value? with
    | none => exact ⟨hmore.1.cons _, hmore.2⟩
    | some v =>
      obtain ⟨htidy, hiter⟩ := hvalue v rfl
      refine ⟨hmore.1.cons_cons _, List.forall_mem_cons.2 ⟨⟨htidy, fun hname => ?_⟩, hmore.2⟩⟩
      exact hiter (Bool.eq_false_iff.2 fun h => hflag h hname)

end

end Arbor.Lowering
