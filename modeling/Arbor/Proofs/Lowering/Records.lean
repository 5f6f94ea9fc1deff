import Arbor.Proofs.Lowering.Surveyed

set_option autoImplicit false

/-! # The records of a program

The records of a program are nodes that begin with their type and their range, but for the pattern of a regular
expression and the text of a template (`Lowering.programOf_headed`); nodes tell the text of their range
(`Lowering.programOf_spells`); and nodes lie around what they hold, where those of the tree lie around their children
(`Lowering.programOf_nested`). -/

namespace Arbor

namespace Lowering

open Value (nodeFields headKeys Apart IsHeaded typeOf? rangeOf? records)

/-- What is asked of the nodes of a tree, besides that they are of the tree. -/
def Survey.ofTree (source : Source) (root : Cst) (nests ordered : Prop) (h : ordered → nests) : Survey :=
  ⟨source, fun t => ∃ u ∈ root.nodes, u.token = t, nests, ordered, h⟩

/-- A program is drawn from its source. -/
theorem programOf_surveyed {source : Source} {root : Cst} {program : Value} {sourceType : Scalar}
    (hprogram : programOf source (.scalar sourceType) root = .ok program) {nests ordered : Prop}
    (h : ordered → nests) (hnests : nests → root.Everywhere fun u => Nests u.token (u.children.map Tree.token))
    (hordered : ordered → root.Everywhere fun u => InOrder u.token (u.children.map Tree.token))
    (hsize : nests → root.token.stop ≤ source.size) :
    (Survey.ofTree source root nests ordered h).Drawn source.size [⟨0, source.size⟩] (records none program) := by
  have hlies : root.Everywhere fun u =>
      (Survey.ofTree source root nests ordered h).Lies u.token (u.children.map Tree.token) :=
    fun u hu => ⟨⟨u, hu, rfl⟩, fun hn => hnests hn u hu, fun ho => hordered ho u hu⟩
  exact (programOf_drawn hlies hsize sourceType).of_eq_ok hprogram

/-- Whatever the tree, the records of its program are sound. -/
theorem programOf_sound {source : Source} {root : Cst} {program : Value} {sourceType : Scalar}
    (hprogram : programOf source (.scalar sourceType) root = .ok program) :
    ∀ o ∈ program.records none, (Survey.ofTree source root False False id).Sound o.holder? o.fields :=
  (programOf_surveyed hprogram id False.elim False.elim False.elim).sound

/-! ## Heads -/

/-- What is kept of a node without a rule never takes the place of its type or its range. -/
theorem genericFields_head {type : Text} {start stop : Int} {rest : List (Key × Value)} {unnamed : List Value}
    (hapart : Apart rest) (branches : List Branch) :
    IfOk (fun found => ∃ rest', found.1 = nodeFields type start stop rest' ∧ Apart rest')
      (genericFields (nodeFields type start stop rest) unnamed branches) := by
  induction branches generalizing rest unnamed with
  | nil => exact Yields.ok.2 ⟨rest, rfl, hapart⟩
  | cons b bs ih =>
    rw [genericFields]
    refine (ifOk_true b.value).bind fun v _ => ?_
    split
    · exact ih hapart
    · split
      · exact ih hapart
      · next field _ =>
        have hhead := genericKey_not_mem_headKeys field
        rw [addToField_nodeFields _ _ _ hhead]
        exact ih (hapart.set hhead _)

theorem genericOf_head (source : Source) (s : Site) :
    IfOk (fun v => ∃ rest, v = .record (nodeFields (genericType s.token.kind) s.token.start s.token.stop rest) ∧
      Apart rest) (genericOf source s) := by
  unfold genericOf
  dsimp only
  split
  · exact Yields.pure.2 ⟨_, rfl, List.forall_mem_singleton.2 raw_not_mem_headKeys⟩
  · have hnone : Apart [] := List.forall_mem_nil _
    refine (genericFields_head hnone s.parts).bind fun found hfound => ?_
    obtain ⟨fields, unnamed⟩ := found
    obtain ⟨rest, rfl, hapart⟩ := hfound
    dsimp only
    refine Yields.pure.2 ?_
    split
    · exact ⟨rest, rfl, hapart⟩
    · have hhead : (.text "children" : Key) ∉ headKeys := by decide
      rw [Value.set_nodeFields _ _ _ _ hhead]
      exact ⟨_, rfl, hapart.set hhead _⟩

/-- The records of a program are nodes that begin with their type and their range, but for those that two fields
    hold; and a node without a rule begins with the type and the range of its token, whatever the fields of its
    children are called. -/
theorem programOf_headed {source : Source} {root : Cst} {sourceType : Scalar} {program : Value}
    (hprogram : programOf source (.scalar sourceType) root = .ok program) :
    (∀ o ∈ program.records none, (∃ holder ∈ bareHolders, o.holder? = some holder) ∨
      (IsHeaded o.fields ∧ (Value.record o.fields).isNode = true)) ∧
    ∀ s v, genericOf source s = .ok v → ∃ rest,
      v = .record (nodeFields (genericType s.token.kind) s.token.start s.token.stop rest) ∧ Apart rest := by
  refine ⟨fun o ho => ?_, fun s v hv => (genericOf_head source s).of_eq_ok hv⟩
  obtain ⟨holder?, fields⟩ := o
  cases programOf_sound hprogram _ ho with
  | bare holder_mem => exact .inl ⟨_, holder_mem, rfl⟩
  | node apart => exact .inr ⟨⟨_, _, _, _, rfl, apart⟩, rfl⟩

namespace Sample

/-- A damaged tree of `/a/ b c d`, whose fields are called like the type and the range of a node. -/
def misnamed : Cst :=
  .branch "program" 0 9 none [
    .branch "odd_node" 0 9 none [
      .branch "regex" 0 3 (some "type") [.leaf "regex_pattern" true 1 2 (some "pattern")],
      .leaf "identifier" true 4 5 (some "start"),
      .leaf "identifier" true 6 7 (some "end"),
      .leaf "identifier" true 8 9 none]]

def misnamedSource : Source := .ofText "/a/ b c d"

/-- All these children are kept under a name of their own. -/
theorem programOf_headed_misnamed :
    ∃ program, programOf misnamedSource (.text "module") misnamed = .ok program ∧
      (∃ o ∈ program.records none, typeOf? o.fields = some ("OddNode" : Text) ∧
        Fields.keys o.fields = headKeys ++ [.text "typeAnnotation", .text "children"]) ∧
      ∀ o ∈ program.records none, (∃ holder ∈ bareHolders, o.holder? = some holder) ∨
        (IsHeaded o.fields ∧ (Value.record o.fields).isNode = true) := by
  have hprogram : programOf misnamedSource (.text "module") misnamed =
      .ok ((programOf misnamedSource (.text "module") misnamed).toOption.getD .null) := rfl
  exact ⟨_, hprogram, ⟨_, .tail _ (.head _), rfl, rfl⟩, (programOf_headed hprogram).1⟩

end Sample

/-! ## Texts -/

theorem Survey.Sound.spelled {S : Survey} {holder? : Option Holder} {fields : List (Key × Value)}
    (h : S.Sound holder? fields) : S.Spelled holder? fields := by
  cases h with
  | bare _ type?_eq =>
    refine .inr (.inr (.inr fun text? htext => ?_))
    simp only [told?, type?_eq] at htext
    cases htext
  | node _ spelled => exact spelled

/-- The nodes of a program tell the text of their range, but for those to which a type is added, the names of meta
    properties, and those that keep the parts of a node without a rule where its text would stand. -/
theorem programOf_spells {source : Source} {root : Cst} {sourceType : Scalar} {program : Value}
    (hprogram : programOf source (.scalar sourceType) root = .ok program) {o : Occurrence}
    (ho : o ∈ program.records none) (huntyped : Fields.get? o.fields (.text "typeAnnotation") = none)
    (hmeta : ∀ type ∈ nameTypes, typeOf? o.fields = some type → ∀ holder ∈ metaHolders, o.holder? ≠ some holder)
    (hruled : ∀ u ∈ root.nodes, rules.lookup u.kind = none → genericType u.kind ∉ nameTypes →
      ¬ KeepsParts u.token o.fields) :
    Spells source o.fields := by
  rcases (programOf_sound hprogram o ho).spelled with htyped | ⟨type, hname, htype, holder, hmem, heq⟩ |
    ⟨t, ⟨u, hu, rfl⟩, hrule, hname, hkeeps⟩ | h
  · rw [huntyped] at htyped
    cases htyped
  · exact absurd heq (hmeta type hname htype holder hmem)
  · exact absurd hkeeps (hruled u hu hrule hname)
  · exact h

namespace Sample

/-- The tree of `let a` followed by a template element outside of a template. -/
def stray : Cst :=
  .branch "program" 0 7 none [
    .branch "lexical_declaration" 0 5 none [
      .leaf "let" false 0 3 (some "kind"),
      .branch "variable_declarator" 4 5 none [.leaf "identifier" true 4 5 (some "name")]],
    .leaf "template_element" true 6 7 none]

def straySource : Source := .ofText "let a b"

def strayProgram : Value := (programOf straySource (.text "module") stray).toOption.getD .null

theorem programOf_stray : programOf straySource (.text "module") stray = .ok strayProgram := rfl

/-- The name that is declared tells its range. -/
theorem programOf_spells_stray :
    ∃ o ∈ strayProgram.records none, told? o.fields = some (some (.text "a")) ∧ Spells straySource o.fields := by
  have hmem : (⟨some ⟨"VariableDeclarator", .text "id"⟩,
      nodeFields "Identifier" 4 5 [(.text "name", .text "a")]⟩ : Occurrence) ∈ strayProgram.records none :=
    .tail _ (.tail _ (.tail _ (.head _)))
  refine ⟨_, hmem, rfl, programOf_spells programOf_stray hmem rfl (by decide) fun u hu hrule hname hkeeps => ?_⟩
  obtain ⟨rest, -, heq⟩ := hkeeps
  have htype : some ("Identifier" : Text) = some (genericType u.kind) := congrArg typeOf? heq
  exact hname (Option.some.inj htype ▸ by decide)

/-- The template element does not tell its range, since it keeps the parts of a node for which there is no rule. -/
theorem not_spells_stray :
    programOf straySource (.text "module") stray = .ok strayProgram ∧
      ∃ o ∈ strayProgram.records none, typeOf? o.fields = some ("TemplateElement" : Text) ∧
        Fields.get? o.fields (.text "typeAnnotation") = none ∧ ¬ Spells straySource o.fields := by
  refine ⟨rfl, ⟨none, nodeFields "TemplateElement" 6 7 [(.text "raw", .text "b")]⟩,
    .tail _ (.tail _ (.tail _ (.tail _ (.head _)))), rfl, rfl, fun h => ?_⟩
  obtain ⟨start, stop, -, htext⟩ := h none rfl
  cases htext

end Sample

/-! ## Ranges -/

theorem Survey.Sound.within {S : Survey} {holder? : Option Holder} {fields : List (Key × Value)}
    (h : S.Sound holder? fields) (hn : S.nests) {range : Span} (hrange : rangeOf? fields = some range)
    {f : Key × Value} (hf : f ∈ fields) (hf' : f.1 = .text "typeAnnotation" → holder? ≠ some caughtHolder)
    {o : Occurrence} (ho : o ∈ records none f.2) : o.Within range := by
  cases h with
  | bare _ _ start?_eq =>
    rw [Value.startOf?_of_rangeOf? hrange] at start?_eq
    cases start?_eq
  | node _ _ nested =>
    cases hrange
    rcases hf with _ | ⟨_, _ | ⟨_, _ | ⟨_, hf⟩⟩⟩
    · cases ho
    · cases ho
    · cases ho
    · exact nested hn f hf hf' o ho

/-- Where the ranges of a tree nest, the nodes of its program lie around all that they hold, but for the type that
    is added to the parameter of a catch clause. -/
theorem programOf_nested {source : Source} {root : Cst} {sourceType : Scalar} {program : Value}
    (hprogram : programOf source (.scalar sourceType) root = .ok program)
    (hnests : root.Everywhere fun u => Nests u.token (u.children.map Tree.token))
    (hsize : root.token.stop ≤ source.size) {o : Occurrence} (ho : o ∈ program.records none) {range : Span}
    (hrange : rangeOf? o.fields = some range) {f : Key × Value} (hf : f ∈ o.fields)
    (hcaught : f.1 = .text "typeAnnotation" → o.holder? ≠ some caughtHolder) :
    ∀ o' ∈ records none f.2, o'.Within range := by
  have hdrawn := programOf_surveyed hprogram False.elim (fun _ : True => hnests) False.elim fun _ => hsize
  exact fun _ ho' => (hdrawn.sound o ho).within trivial hrange hf hcaught ho'

namespace Sample

/-- The tree of `try { } catch (e: unknown) { }`. -/
def caught : Cst :=
  .branch "program" 0 30 none [
    .branch "try_statement" 0 30 none [
      .leaf "try" false 0 3 none,
      .branch "statement_block" 4 7 (some "body") [.leaf "\x7b" false 4 5 none, .leaf "\x7d" false 6 7 none],
      .branch "catch_clause" 8 30 (some "handler") [
        .leaf "catch" false 8 13 none,
        .leaf "(" false 14 15 none,
        .leaf "identifier" true 15 16 (some "parameter"),
        .branch "type_annotation" 16 25 (some "type") [
          .leaf ":" false 16 17 none,
          .branch "predefined_type" 18 25 none [.leaf "unknown" false 18 25 none]],
        .leaf ")" false 25 26 none,
        .branch "statement_block" 27 30 (some "body") [
          .leaf "\x7b" false 27 28 none, .leaf "\x7d" false 29 30 none]]]]

def caughtSource : Source := .ofText "try \x7b \x7d catch (e: unknown) \x7b \x7d"

def caughtProgram : Value := (programOf caughtSource (.text "module") caught).toOption.getD .null

theorem programOf_caught : programOf caughtSource (.text "module") caught = .ok caughtProgram := rfl

theorem nests_caught : caught.Everywhere fun u => Nests u.token (u.children.map Tree.token) := by decide +kernel

/-- The clause lies around its parameter, with the type that is added to it. -/
theorem programOf_nested_caught :
    ∃ o ∈ caughtProgram.records none, typeOf? o.fields = some ("CatchClause" : Text) ∧
      ∃ param ∈ o.fields, param.1 = .text "param" ∧ ∀ o' ∈ records none param.2, o'.Within ⟨8, 30⟩ := by
  obtain ⟨o, ho, htype, hrange, param, hmem, hkey⟩ : ∃ o ∈ caughtProgram.records none,
      typeOf? o.fields = some ("CatchClause" : Text) ∧ rangeOf? o.fields = some ⟨8, 30⟩ ∧
        ∃ param ∈ o.fields, param.1 = .text "param" :=
    ⟨_, .tail _ (.tail _ (.tail _ (.head _))), rfl, rfl, _, .tail _ (.tail _ (.tail _ (.head _))), rfl⟩
  refine ⟨o, ho, htype, param, hmem, hkey, ?_⟩
  refine programOf_nested programOf_caught nests_caught (by decide) ho hrange hmem fun htyped => ?_
  rw [hkey] at htyped
  exact absurd htyped (by decide)

/-- The parameter does not lie around its type. -/
theorem not_nested_caught :
    (caught.Everywhere fun u => Nests u.token (u.children.map Tree.token)) ∧
      programOf caughtSource (.text "module") caught = .ok caughtProgram ∧
      ∃ o ∈ caughtProgram.records none, rangeOf? o.fields = some ⟨15, 16⟩ ∧
        ∃ f ∈ o.fields, ∃ o' ∈ records none f.2, ¬ o'.Within ⟨15, 16⟩ := by
  refine ⟨nests_caught, rfl, _, .tail _ (.tail _ (.tail _ (.tail _ (.head _)))), rfl,
    _, .tail _ (.tail _ (.tail _ (.tail _ (.head _)))), _, .head _, fun h => ?_⟩
  exact absurd (h ⟨16, 25⟩ rfl).2 (by decide)

end Sample

end Lowering

end Arbor
