import Arbor.Lowering.Rule
import Arbor.Proofs.Lowering.Behaviour
import Arbor.Proofs.Lowering.Places

set_option autoImplicit false

/-! # What rules yield

Where the children of a node behave, the rules that are no mere lists of fillers yield something tidy, or one
of the faults `F`. They ask as little of the children as the code does: only where a field is stored in a child,
or its name is looked at, must the child be no list. -/

namespace Arbor.Lowering

open Value (Tidy Grown)

/-- The ranges of the stretches of literal text of a template, from the offset `start` on. -/
def templateStretches (start stop : Nat) : List Token → List (Nat × Nat)
  | [] => [(start, max start stop)]
  | t :: rest =>
    if t.kind = "template_substitution" then (start, t.start) :: templateStretches t.stop stop rest
    else templateStretches start stop rest

/-! ## Parts of rules -/

section

variable {F : Fault → Prop} {s : Site}

/-- What is copied from a tidy record is tidy, or null if it is not there. -/
theorem tidy_get {fields : List (Key × Value)} (h : Tidy (.record fields)) (key : Key) :
    ((Fields.get? fields key).getD .null).Tidy := by
  cases hget : Fields.get? fields key with
  | none => exact .scalar _
  | some v =>
    cases h with
    | record once fields_tidy lists => exact fields_tidy (key, v) (Fields.mem_of_get? hget)

theorem tidy_declarator {start stop id : Value} (hstart : start.Tidy) (hstop : stop.Tidy)
    (hid : id.Tidy) :
    Tidy (.record [(.text "type", .text "VariableDeclarator"), (.text "start", start),
      (.text "end", stop), (.text "id", id), (.text "init", .null)]) := by
  have hapart : ∀ key ∈ (["type", "start", "end", "id", "init"] : List Text),
      key ∉ Heap.listFields := by decide
  refine .record ?_ ?_ fun f hf name hname h => ?_
  · show ([.text "type", .text "start", .text "end", .text "id", .text "init"] : List Key).Nodup
    decide
  · simp only [List.forall_mem_cons]
    exact ⟨.scalar _, hstart, hstop, hid, .scalar _, by simp⟩
  · have hkey : f.1 ∈ ([.text "type", .text "start", .text "end", .text "id", .text "init"] : List Key) :=
      List.mem_map_of_mem (f := Prod.fst) hf
    rw [h] at hkey
    exact absurd hname (hapart name (by simpa using hkey))

theorem withAccess_yields (source : Source) {pattern : Value} (hp : Plain F pattern)
    (hnull : pattern.isNull = false) (branches : List Branch) :
    Yields F (Plain F) (withAccess source pattern branches) := by
  induction branches generalizing pattern with
  | nil => exact hp
  | cons b rest ih =>
    rw [withAccess]
    split
    · exact (setField_yields hp hnull "accessibility" (by decide) (.scalar _)).bind
        fun v hv => ih hv.1 hv.2
    · exact ih hp hnull

/-- A stretch of literal text that can be decoded becomes a node. -/
theorem templateElement_yields {source : Source} {start stop : Nat}
    (hbody : Yields F (fun _ => True) (Literal.unescape (source.slice start stop))) (tail : Bool) :
    Yields F Grown (templateElement source start stop tail) := by
  refine hbody.bind fun cooked _ => ?_
  have hvalue : Tidy (.record [(.text "raw", .text (source.slice start stop)),
      (.text "cooked", .text cooked)]) := tidy_texts (by decide) (by decide) (by decide) _ _
  exact grown_nodeAt rfl (by simp [fit_of_grown hvalue.grown, fit_bool, listNames])

theorem templateParts_yields {source : Source} {start stop : Nat} {branches : List Branch}
    (h : AllBehave F branches)
    (hbodies : ∀ r ∈ templateStretches start stop (branches.map Tree.token),
      Yields F (fun _ => True) (Literal.unescape (source.slice r.1 r.2))) :
    Yields F (fun found => (∀ v ∈ found.1, v.Tidy) ∧ ∀ v ∈ found.2, v.Tidy)
      (templateParts source start stop branches) := by
  induction branches generalizing start with
  | nil =>
    refine (templateElement_yields (hbodies _ (List.mem_singleton_self _)) true).bind fun last hlast => ?_
    exact ⟨by simpa using hlast.tidy, by simp⟩
  | cons b rest ih =>
    obtain ⟨hb, hrest⟩ := List.forall_mem_cons.1 h
    rw [List.map_cons, templateStretches] at hbodies
    rw [templateParts]
    split
    · next hkind =>
      rw [if_pos (show b.token.kind = _ from hkind)] at hbodies
      obtain ⟨hbody, hbodies⟩ := List.forall_mem_cons.1 hbodies
      refine (templateElement_yields hbody false).bind fun quasi hquasi => ?_
      refine (expressionOf_yields (site_behaves hb)).bind fun expression hexpression => ?_
      refine (ih hrest hbodies).bind fun found hfound => ?_
      refine ⟨List.forall_mem_cons.2 ⟨hquasi.tidy, hfound.1⟩, ?_⟩
      dsimp only
      split
      · exact hfound.2
      · exact List.forall_mem_cons.2 ⟨hexpression.tidy, hfound.2⟩
    · next hkind =>
      rw [if_neg (show ¬ b.token.kind = _ from hkind)] at hbodies
      exact ih hrest hbodies

theorem metaProperty_plain (source : Source) (s : Site) : Plain F (metaProperty source s) := by
  have hname {start stop : Int} {t : Text} (field : String) :
      Fit field (nodeAt "Identifier" start stop [("name", .text t)]) :=
    fit_of_grown (grown_nodeAt rfl (by simp)) field
  exact plain_nodeOf rfl (by simp [hname])

theorem sequenceLeavesAll_behave {branches : List Branch}
    (hleaves : ∀ b ∈ branches, AllBehave F (sequenceLeaves b)) :
    AllBehave F (sequenceLeavesAll branches) := by
  intro leaf hleaf
  rw [sequenceLeavesAll_eq] at hleaf
  obtain ⟨b, hb, hleaf⟩ := List.mem_flatMap.1 hleaf
  exact hleaves b (List.mem_of_mem_filter hb) leaf hleaf

theorem sequenceLeaves_behave {b : Branch} (hb : b.Everywhere (Branch.Behaves F)) :
    AllBehave F (sequenceLeaves b) := by
  induction b using Tree.induction with
  | node t reading children ih =>
    have hchildren : AllBehave F children := fun c hc => hb.child hc
    rw [sequenceLeaves]
    split
    · exact sequenceLeavesAll_behave fun c hc => ih c hc (hchildren c hc)
    · intro leaf hleaf
      rw [List.mem_singleton.1 hleaf]
      exact hb

theorem linkBelow_yields {b? : Option Branch} (h : SomeBehaves F b?) :
    Yields F (fun found => found.1.Grown) (linkBelow b?) := by
  cases b? with
  | none => exact Value.grown_null
  | some b => exact (h b rfl).here.link

theorem argumentsOf_yields {b? : Option Branch} (h : SomeBehaves F b?) :
    Yields F (fun values => ∀ v ∈ values, v.Tidy) (argumentsOf b?) := by
  cases b? with
  | none => exact fun _ hv => absurd hv List.not_mem_nil
  | some b => exact valuesOf_yields (parts_behave (site_behaves (h b rfl)))

/-- Fewer names than those of a node are names of a node. -/
theorem areFieldNames_sublist {names names' : List String} (h : names.Sublist names')
    (hnames : areFieldNames names' = true) : areFieldNames names = true := by
  simp only [areFieldNames, Bool.and_eq_true, decide_eq_true_eq, List.all_eq_true] at hnames ⊢
  exact ⟨hnames.1.sublist h, fun name hname => hnames.2 name (h.subset hname)⟩

theorem namesConstructor_yields {key : Value} (h : Plain F key) :
    Yields F (fun _ => True) (namesConstructor key) := by
  cases key with
  | scalar s =>
    cases h.null s rfl
    trivial
  | list items => exact (h.list items rfl).2
  | record fields => trivial

theorem exportSpecifierOf_yields {b : Branch} (hb : b.Everywhere (Branch.Behaves F)) :
    Yields F Grown (exportSpecifierOf b) := by
  have hsite := site_behaves hb
  have hname := field?_behaves hsite "name"
  refine (valueOf_yields hname).bind fun localName hlocal => ?_
  refine (valueOf_yields ((field?_behaves hsite "alias").orElse hname)).bind fun exported hexported => ?_
  exact grown_nodeOf rfl (by simp [fit_of_grown hlocal, fit_of_grown hexported])

theorem tidy_addToField {fields : List (Key × Value)} (h : Tidy (.record fields)) (name : Text)
    {v : Value} (hv : v.Grown) : Tidy (.record (addToField fields name v)) := by
  have hold := tidy_get h (.text name)
  unfold addToField
  split
  · exact h.set hv.tidy fun _ _ _ => hv.isIterable
  · next items hget =>
    rw [hget] at hold
    cases hold with
    | list items_tidy =>
      refine h.set (.list (List.forall_mem_append.2 ⟨items_tidy, ?_⟩)) fun _ _ _ => rfl
      simpa using hv.tidy
  · next other _ hget =>
    rw [hget] at hold
    refine h.set (.list ?_) fun _ _ _ => rfl
    exact List.forall_mem_cons.2 ⟨hold, by simpa using hv.tidy⟩

theorem genericFields_yields {branches : List Branch} (h : AllBehave F branches)
    {fields : List (Key × Value)} (hfields : Tidy (.record fields)) {unnamed : List Value}
    (hunnamed : ∀ v ∈ unnamed, v.Tidy) :
    Yields F (fun found => Tidy (.record found.1) ∧ ∀ v ∈ found.2, v.Tidy)
      (genericFields fields unnamed branches) := by
  induction branches generalizing fields unnamed with
  | nil => exact ⟨hfields, hunnamed⟩
  | cons b rest ih =>
    obtain ⟨hb, hrest⟩ := List.forall_mem_cons.1 h
    rw [genericFields]
    refine (value_yields hb).bind fun v hv => ?_
    split
    · exact ih hrest hfields hunnamed
    · split
      · exact ih hrest hfields (List.forall_mem_append.2 ⟨hunnamed, by simpa using hv.tidy⟩)
      · exact ih hrest (tidy_addToField hfields _ hv) hunnamed

end

/-! ## Rules -/

section

variable {F : Fault → Prop} {s : Site} (hs : s.Behaves F)

include hs

theorem genericOf_yields (source : Source) : Yields F (Plain F) (genericOf source s) := by
  have hempty : Plain F (nodeOf (genericType s.token.kind) s.token []) := plain_nodeOf rfl (by simp)
  have hstart : Tidy (.record [(.text "type", .text (genericType s.token.kind)),
      (.text "start", .int s.token.start), (.text "end", .int s.token.stop)]) := hempty.tidy
  have hraw : ∀ name ∈ Heap.listFields, ("raw" : Text) ≠ name ∧ ("children" : Text) ≠ name := by decide
  unfold genericOf
  dsimp only
  split
  · exact plain_record (hstart.set (.scalar _) fun name hname h =>
      absurd (Scalar.text.inj h) (hraw name hname).1)
  · refine (genericFields_yields (parts_behave hs) hstart (by simp)).bind fun found hfound => ?_
    obtain ⟨fields, unnamed⟩ := found
    dsimp only
    split
    · exact plain_record hfound.1
    · exact plain_record (hfound.1.set (.list hfound.2) fun _ _ _ => rfl)

theorem ifStatement_yields : Yields F (Plain F) (ifStatement s) := by
  have halternative := field?_behaves hs "alternative"
  have rest {alternate : Value} (h : alternate.Grown) : Yields F (Plain F) (do
      let test ← valueOf (s.field? "condition")
      let consequent ← valueOf (s.field? "consequence")
      pure (nodeOf "IfStatement" s.token
        [("test", test), ("consequent", consequent), ("alternate", alternate)])) := by
    refine (valueOf_yields (field?_behaves hs "condition")).bind fun test htest => ?_
    refine (valueOf_yields (field?_behaves hs "consequence")).bind fun consequent hconsequent => ?_
    exact plain_nodeOf rfl (by simp [fit_of_grown htest, fit_of_grown hconsequent, fit_of_grown h])
  unfold ifStatement
  cases hclause : s.field? "alternative" with
  | none => exact rest Value.grown_null
  | some clause =>
    exact (firstOf_yields (site_behaves (halternative clause hclause))).bind fun _ h => rest h

theorem tryStatement_yields : Yields F (Plain F) (tryStatement s) := by
  have hfinalizer := field?_behaves hs "finalizer"
  have rest {finalizer : Value} (h : finalizer.Grown) : Yields F (Plain F) (do
      let block ← valueOf (s.field? "body")
      let handler ← valueOf (s.field? "handler")
      pure (nodeOf "TryStatement" s.token
        [("block", block), ("handler", handler), ("finalizer", finalizer)])) := by
    refine (valueOf_yields (field?_behaves hs "body")).bind fun block hblock => ?_
    refine (valueOf_yields (field?_behaves hs "handler")).bind fun handler hhandler => ?_
    exact plain_nodeOf rfl (by simp [fit_of_grown hblock, fit_of_grown hhandler, fit_of_grown h])
  unfold tryStatement
  cases hclause : s.field? "finalizer" with
  | none => exact rest Value.grown_null
  | some clause =>
    have hbody := field?_behaves (site_behaves (hfinalizer clause hclause)) "body"
    exact (valueOf_yields hbody).bind fun _ h => rest h

theorem switchStatement_yields : Yields F (Plain F) (switchStatement s) := by
  have hbody := field?_behaves hs "body"
  have rest {cases : List Value} (h : ∀ v ∈ cases, v.Tidy) : Yields F (Plain F) (do
      let discriminant ← valueOf (s.field? "value")
      pure (nodeOf "SwitchStatement" s.token
        [("discriminant", discriminant), ("cases", .list cases)])) := by
    refine (valueOf_yields (field?_behaves hs "value")).bind fun discriminant hdiscriminant => ?_
    exact plain_nodeOf rfl (by simp [fit_of_grown hdiscriminant, fit_list h])
  unfold switchStatement
  cases hclause : s.field? "body" with
  | none => exact rest (by simp)
  | some body =>
    have hcases := parts_behave (site_behaves (hbody body hclause))
    exact (valuesOf_yields hcases).bind fun _ h => rest h

theorem loopVariable_yields (source : Source) (hkind : s.token.kind ∉ callKinds) (word? : Option Branch)
    (field : String) : Yields F Grown (loopVariable source word? (s.field? field)) := by
  refine (plain_field hs hkind field).bind fun left hleft => ?_
  split
  · next fields _ =>
    have hdeclarator := tidy_declarator (tidy_get hleft.tidy (.text "start"))
      (tidy_get hleft.tidy (.text "end")) hleft.tidy
    exact grown_nodeAt rfl (by simpa using fit_list (by simpa using hdeclarator) "declarations")
  · exact (hleft.list _ rfl).1
  · exact hleft.toGrown

theorem forInStatement_yields (source : Source) (hkind : s.token.kind ∉ callKinds) :
    Yields F (Plain F) (forInStatement source s) := by
  refine (loopVariable_yields hs source hkind (s.mark? "kind") "left").bind fun left hleft => ?_
  refine (valueOf_yields (field?_behaves hs "right")).bind fun right hright => ?_
  refine (valueOf_yields (field?_behaves hs "body")).bind fun body hbody => ?_
  have hfields : ∀ f ∈ [("left", left), ("right", right), ("body", body)], Fit f.1 f.2 := by
    simp [fit_of_grown hleft, fit_of_grown hright, fit_of_grown hbody]
  have hloop (operator : Text) : Yields F (Plain F)
      (if operator = "of" then
        pure (nodeOf "ForOfStatement" s.token (("await", .bool (s.hasToken "await")) ::
          [("left", left), ("right", right), ("body", body)]))
      else pure (nodeOf "ForInStatement" s.token
        [("left", left), ("right", right), ("body", body)])) := by
    split
    · have hawait : ("await" : String) ∉ listNames := by decide
      exact plain_nodeOf rfl (List.forall_mem_cons.2 ⟨fit_bool hawait _, hfields⟩)
    · exact plain_nodeOf rfl hfields
  exact hloop _

theorem typedPattern_yields (source : Source) {pattern : Value} (hp : Plain F pattern)
    (hnull : pattern.isNull = false) : Yields F (Plain F) (typedPattern source s pattern) := by
  refine (withType_yields hp (field?_behaves hs "type") true).bind fun pattern hp => ?_
  refine (withAccess_yields source hp.1 (hp.2 hnull) s.parts).bind fun pattern hp => ?_
  refine (valueOf_yields (field?_behaves hs "value")).bind fun value hvalue => ?_
  split
  · exact hp
  · exact plain_nodeOf rfl (by simp [hp.fit, fit_of_grown hvalue])

theorem typedParameter_yields (source : Source) (hkind : s.token.kind ∉ callKinds) (optional : Bool) :
    Yields F (Plain F) (typedParameter source s optional) := by
  rw [typedParameter_eq]
  refine (plain_field hs hkind "pattern").bind fun pattern hpattern => ?_
  split
  · exact plain_null
  · next hnull =>
    have hnull : pattern.isNull = false := Bool.eq_false_iff.2 hnull
    split
    · exact (setField_yields hpattern hnull "optional" (by decide) (.scalar _)).bind
        fun v hv => typedPattern_yields hs source hv.1 hv.2
    · exact typedPattern_yields hs source hpattern hnull

theorem defaultedMember_yields (source : Source) : Yields F (Plain F) (defaultedMember source s) := by
  have hleft := field?_behaves hs "left"
  refine (valueOf_yields (field?_behaves hs "right")).bind fun right hright => ?_
  have hright := fit_of_grown hright
  split
  · exact plain_nodeOf rfl (by simp [hright])
  · next left hfield =>
    dsimp only
    split
    · have hname := fit_of_grown (grown_identifierOf source left.token)
      have hvalue : Plain F (nodeOf "AssignmentPattern" s.token
          [("left", identifierOf source left.token), ("right", right)]) :=
        plain_nodeOf rfl (by simp [hname, hright])
      exact plain_nodeOf rfl (by simp [hname, hvalue.fit, fit_bool, listNames])
    · refine (value_yields (hleft left hfield)).bind fun v hv => ?_
      exact plain_nodeOf rfl (by simp [fit_of_grown hv, hright])

/-! ### Expressions -/

theorem binaryExpression_yields (source : Source) :
    Yields F (Plain F) (binaryExpression source s) := by
  refine (valueOf_yields (field?_behaves hs "left")).bind fun left hleft => ?_
  refine (valueOf_yields (field?_behaves hs "right")).bind fun right hright => ?_
  exact plain_nodeOf rfl (by simp [fit_of_grown hleft, fit_of_grown hright])

theorem templateLiteral_yields {source : Source}
    (hbodies : ∀ r ∈ templateStretches (s.token.start + 1) (s.token.stop - 1) (s.children.map Tree.token),
      Yields F (fun _ => True) (Literal.unescape (source.slice r.1 r.2))) :
    Yields F (Plain F) (templateLiteral source s) := by
  refine (templateParts_yields hs.children hbodies).bind fun found hfound => ?_
  exact plain_nodeOf rfl (by simp [fit_list hfound.1, fit_list hfound.2])

theorem flatSequence_yields : Yields F (Plain F) (flatSequence s) := by
  refine (valuesOf_yields (sequenceLeavesAll_behave
    fun b hb => sequenceLeaves_behave (hs.children b hb))).bind fun values hvalues => ?_
  exact plain_nodeOf rfl (by simpa using fit_list hvalues "expressions")

theorem callLink_yields (optional : Bool) :
    Yields F (fun found => Plain F found.1) (callLink s optional) := by
  have hcallee := field?_behaves hs "function"
  have htypes := field?_behaves hs "type_arguments"
  have harguments := argumentsOf_yields (field?_behaves hs "arguments")
  have htemplate := (field?_behaves hs "arguments").filter fun b => b.kind = "template_string"
  have call {callee : Value} (h : callee.Grown) (inChain : Bool) {typeArguments : List (String × Value)}
      (hnames : areFieldNames (("callee" :: typeArguments.map Prod.fst) ++
        ["arguments", "optional"]) = true)
      (hfit : ∀ f ∈ typeArguments, Fit f.1 f.2) :
      Yields F (fun found => Plain F found.1) (do
        let arguments ← argumentsOf (s.field? "arguments")
        let fields := ("callee", callee) :: typeArguments ++
          [("arguments", .list arguments), ("optional", .bool optional)]
        pure (nodeOf "CallExpression" s.token fields, optional || inChain)) := by
    refine harguments.bind fun arguments harguments => ?_
    refine plain_nodeOf (by simpa using hnames) ?_
    simp only [List.cons_append, List.forall_mem_cons, List.forall_mem_append]
    exact ⟨fit_of_grown h _, hfit, fit_list harguments _, fit_bool (by decide) _, by simp⟩
  unfold callLink
  dsimp only
  split
  · next template h =>
    refine (valueOf_yields hcallee).bind fun tag htag => ?_
    refine (value_yields (htemplate template h)).bind fun quasi hquasi => ?_
    exact plain_nodeOf rfl (by simp [fit_of_grown htag, fit_of_grown hquasi])
  · split
    · refine harguments.bind fun arguments harguments => ?_
      have hargument (i : Nat) : (arguments[i]?.getD .null).Tidy := by
        cases hi : arguments[i]? with
        | none => exact .scalar _
        | some v => exact harguments v (List.mem_of_getElem? hi)
      exact plain_nodeOf rfl (by simp [fit_of_tidy (hargument _), listNames])
    · refine (linkBelow_yields hcallee).bind fun found hfound => ?_
      cases htype : s.field? "type_arguments" with
      | none => exact call hfound found.2 rfl (by simp)
      | some b =>
        refine (value_yields (htypes b htype)).bind fun v hv => call hfound found.2 rfl ?_
        simpa using fit_of_grown hv "typeArguments"

theorem memberLink_yields (optional : Bool) :
    Yields F (fun found => Plain F found.1) (memberLink s optional) := by
  refine (linkBelow_yields (field?_behaves hs "object")).bind fun found hfound => ?_
  refine (valueOf_yields (field?_behaves hs _)).bind fun property hproperty => ?_
  exact plain_nodeOf rfl (by
    simp [fit_of_grown hfound, fit_of_grown hproperty, fit_bool, listNames])

theorem linkOf_yields : Yields F (fun found => Plain F found.1) (linkOf s) := by
  unfold linkOf
  dsimp only
  split
  · exact callLink_yields hs _
  · exact memberLink_yields hs _

theorem chainOf_yields : Yields F (Plain F) (chainOf s) := by
  refine (linkOf_yields hs).bind fun found hfound => ?_
  obtain ⟨node, inChain⟩ := found
  cases inChain with
  | false => exact hfound
  | true => exact plain_nodeOf rfl (by simpa using hfound.fit "expression")

/-! ### Methods -/

theorem methodValue_yields (source : Source) : Yields F (Plain F) (methodValue source s) := by
  have hfields : ∀ f ∈ ([
      ("id", .constant .null), ("async", .token "async"), ("generator", .token "*"),
      ("typeParameters", .childIfAny "type_parameters"), ("params", .params ["parameters"]),
      ("returnType", .childIfAny "return_type"), ("body", .child "body"),
      ("expression", .constant (.bool false))] : List (String × Filler)),
      f.2.Asks F source s ∧ (f.2.isFlag = true → f.1 ∉ listNames) := by
    simp [Filler.Asks, Filler.isFlag, listNames]
  unfold methodValue
  dsimp only
  refine (fillAll_yields hs hfields).bind fun fields h => ?_
  exact plain_record (grown_nodeAt (areFieldNames_sublist h.1 rfl) h.2).tidy

theorem methodOf_yields (source : Source) (hkind : s.token.kind ∉ callKinds) (inObject : Bool) :
    Yields F (Plain F) (methodOf source s inObject) := by
  refine (keyOf_plain hs hkind "name").bind fun key hkey => ?_
  have hkey' := fun name => hkey.fit name
  dsimp only
  split
  · refine (methodValue_yields hs source).bind fun value hvalue => ?_
    exact plain_nodeOf rfl (by simp [hkey', hvalue.fit, fit_bool, listNames])
  · have method (isConstructor : Bool) : Yields F (Plain F) (do
        let decorators ← decoratorsOf s
        let value ← methodValue source s
        pure (nodeOf "MethodDefinition" s.token [
          ("decorators", .list decorators),
          ("static", .bool (s.hasTokenBefore "static" (s.field? "name"))),
          ("computed", .bool (isComputed (s.field? "name"))),
          ("kind", .text (if isConstructor then "constructor" else methodKind s (s.field? "name"))),
          ("key", key), ("value", value)])) := by
      refine (decoratorsOf_yields hs).bind fun decorators hdecorators => ?_
      refine (methodValue_yields hs source).bind fun value hvalue => ?_
      exact plain_nodeOf rfl (by
        simp [hkey', hvalue.fit, fit_list hdecorators, fit_bool, listNames])
    unfold classMethod
    dsimp only
    split
    · exact (namesConstructor_yields hkey).bind fun isConstructor _ => method isConstructor
    · exact method false

/-! ### Exports -/

theorem defaultExport_yields (hkind : s.token.kind ∉ callKinds) :
    Yields F (Plain F) (defaultExport s) := by
  have hdeclaration : Yields F (Plain F) (valueOf (s.field? "declaration" <|> s.field? "value")) := by
    have hfirst := plain_field hs hkind "declaration"
    cases hfield : s.field? "declaration" with
    | none => exact plain_field hs hkind "value"
    | some b =>
      rw [hfield] at hfirst
      exact hfirst
  have export_ {declaration : Value} (h : declaration.Grown) : Yields F (Plain F)
      (pure (nodeOf "ExportDefaultDeclaration" s.token [("declaration", declaration)])) :=
    plain_nodeOf rfl (by simp [fit_of_grown h])
  refine hdeclaration.bind fun declaration hd => ?_
  dsimp only
  split
  · exact export_ hd.toGrown
  · next hnull =>
    have hnull := Bool.eq_false_iff.2 hnull
    have retyped (type : Text) : Yields F (Plain F) (do
        let declaration ← setField declaration "type" (.text type)
        pure (nodeOf "ExportDefaultDeclaration" s.token [("declaration", declaration)])) :=
      (setField_yields hd hnull "type" (by decide) (.scalar _)).bind
        fun _ h => export_ h.1.toGrown
    split
    · exact retyped _
    · split
      · exact retyped _
      · exact export_ hd.toGrown

theorem exportOf_yields (source : Source) (hkind : s.token.kind ∉ callKinds) :
    Yields F (Plain F) (exportOf source s) := by
  have hdeclaration := field?_behaves hs "declaration"
  refine (valueOf_yields (field?_behaves hs "source")).bind fun origin horigin => ?_
  have horigin := fun name => fit_of_grown horigin name
  split
  · exact defaultExport_yields hs hkind
  · split
    · next declaration hfield =>
      refine (value_yields (hdeclaration declaration hfield)).bind fun v hv => ?_
      exact plain_nodeOf rfl (by simp [fit_of_grown hv])
    · dsimp only
      split
      · next clause hclause =>
        have hsite := site_behaves (parts_behave hs clause (List.mem_of_find?_eq_some hclause))
        split
        · refine (firstOf_yields hsite).bind fun exported hexported => ?_
          exact plain_nodeOf rfl (by simp [fit_of_grown hexported, horigin])
        · refine (mapM_yields fun b hb => exportSpecifierOf_yields
            (partsOf_behave hsite _ b hb)).bind fun specifiers hspecifiers => ?_
          exact plain_nodeOf rfl (by simp [fit_list hspecifiers, horigin])
      · split
        · exact plain_nodeOf rfl (by simp [horigin])
        · exact genericOf_yields hs source

/-! ### Elements -/

theorem jsxNameAt_yields (source : Source) {value : Except Fault Value}
    (hvalue : Yields F Grown value) : Yields F Grown (jsxNameAt source s value) := by
  have hlast : SomeBehaves F (s.parts.drop 1).getLast? :=
    ((parts_behave hs).subset (List.drop_subset 1 _)).getLast?
  have pair {b? c? : Option Branch} (hb : SomeBehaves F b?) (hc : SomeBehaves F c?) {type : Text}
      {name name' : String} (hnames : areFieldNames [name, name'] = true) :
      Yields F Grown (do
        let first ← jsxNameOf b?
        let second ← jsxNameOf c?
        pure (nodeOf type s.token [(name, first), (name', second)])) := by
    refine (jsxNameOf_yields hb).bind fun first hfirst => ?_
    refine (jsxNameOf_yields hc).bind fun second hsecond => ?_
    exact grown_nodeOf hnames (by simp [fit_of_grown hfirst, fit_of_grown hsecond])
  unfold jsxNameAt
  dsimp only
  split
  · exact grown_nodeOf rfl (by simp)
  · split
    · exact pair (first?_behaves hs) hlast rfl
    · split
      · have hobject := field?_behaves hs "object"
        have hproperty := field?_behaves hs "property"
        refine pair ?_ ?_ rfl
        · split
          · next object property ho hp => exact ho ▸ hobject
          · split
            · exact first?_behaves hs
            · exact .none
        · split
          · next object property ho hp => exact hp ▸ hproperty
          · split
            · next last hl => exact hl ▸ hlast
            · exact .none
      · exact hvalue

theorem jsxExpressionOf_yields (inTag : Bool) : Yields F (Plain F) (jsxExpressionOf s inTag) := by
  have hparts := parts_behave hs
  unfold jsxExpressionOf
  split
  · have hempty {start stop : Int} : Fit "expression" (nodeAt "JSXEmptyExpression" start stop []) :=
      fit_of_grown (grown_nodeAt rfl (by simp)) _
    exact plain_nodeOf rfl (by simpa using hempty)
  · next part rest heq =>
    rw [heq] at hparts
    split
    · have hpart := hparts part (List.mem_cons_self ..)
      refine (firstOf_yields (site_behaves hpart)).bind fun v hv => ?_
      exact plain_nodeOf rfl (by simpa using fit_of_grown hv "argument")
    · have hsequence := sequenceOf_yields (Q := Grown) (fun _ h => h.toGrown) hparts
        (fun b hb => value_yields (hparts b hb)) s.token
      exact hsequence.bind fun v hv => plain_nodeOf rfl (by simpa using fit_of_grown hv "expression")

omit hs in
theorem jsxChildOf_yields (source : Source) {b : Branch} (hb : b.Everywhere (Branch.Behaves F)) :
    Yields F Grown (jsxChildOf source b) := by
  have hfirst := first?_behaves (site_behaves hb)
  unfold jsxChildOf
  dsimp only
  split
  · exact grown_nodeOf rfl (by simp)
  · split
    · split
      · next part hpart =>
        split
        · refine (firstOf_yields (site_behaves (hfirst part hpart))).bind fun v hv => ?_
          exact grown_nodeOf rfl (by simpa using fit_of_grown hv "expression")
        · exact value_yields hb
      · exact value_yields hb
    · exact value_yields hb

omit hs in
/-- A tag is one of the parts, if the part that is looked at in the end is. -/
theorem tagOf_behaves {parts : List Placed} (h : ∀ p ∈ parts, p.1.Everywhere (Branch.Behaves F))
    {fallback? : Option Placed} (hfallback : ∀ p, fallback? = some p → p ∈ parts) (field kind : String) :
    ∀ p, tagOf parts field kind fallback? = some p → p.1.Everywhere (Branch.Behaves F) := by
  intro p hp
  exact h p (mem_of_tagOf hfallback hp)

theorem jsxElementOf_yields (source : Source) : Yields F (Plain F) (jsxElementOf source s) := by
  have hparts : ∀ p ∈ s.children.zipIdx.filter (fun p => p.1.isPart),
      p.1.Everywhere (Branch.Behaves F) := fun p hp =>
    hs.children p.1 (List.fst_mem_of_mem_zipIdx (List.mem_of_mem_filter hp))
  have hopening := tagOf_behaves hparts (fun _ => List.mem_of_mem_head?) "open_tag" "jsx_opening_element"
  have hclosing := tagOf_behaves hparts (fun _ => List.mem_of_getLast?) "close_tag" "jsx_closing_element"
  have hclosing? : SomeBehaves F ((tagOf (s.children.zipIdx.filter fun p => p.1.isPart) "close_tag"
      "jsx_closing_element" (s.children.zipIdx.filter fun p => p.1.isPart).getLast?).map Prod.fst) := by
    intro b hb
    obtain ⟨p, hp, rfl⟩ := Option.map_eq_some_iff.1 hb
    exact hclosing p hp
  refine (Yields.mapM (R := Value.Tidy) fun p hp => ?_).bind fun found hfound => ?_
  · exact (jsxChildOf_yields source (hparts p (List.mem_of_mem_filter hp))).mono fun _ h => h.tidy
  have hchildren (name : String) : Fit name (.list (found.filter fun v => !v.isNull)) :=
    fit_list (fun v hv => hfound v (List.mem_of_mem_filter hv)) name
  dsimp only
  split
  · refine (valueOf_yields hclosing?).bind fun closing h => ?_
    exact plain_nodeOf rfl (by simp [hchildren, fit_of_grown h])
  · next opening position heq =>
    have hsite := site_behaves (hopening _ heq)
    have htag {type : Text} {t : Token} (name : String) : Fit name (nodeOf type t []) :=
      fit_of_grown (grown_nodeOf rfl (by simp)) name
    split
    · refine plain_nodeOf rfl ?_
      split
      · simp [hchildren, htag]
      · simp [hchildren, htag]
    · refine (jsxOpeningOf_yields hsite false).bind fun tag htag => ?_
      refine (valueOf_yields hclosing?).bind fun closing h => ?_
      exact plain_nodeOf rfl (by simp [fit_of_grown htag, hchildren, fit_of_grown h])

end

end Arbor.Lowering
