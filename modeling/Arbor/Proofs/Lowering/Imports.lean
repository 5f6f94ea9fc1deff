import Arbor.Proofs.Lowering.Patterns
import Arbor.Proofs.Scope.Filing
import Mathlib.Data.List.Forall2

set_option autoImplicit false

/-! # Imports

An import binds names by the parts of its clause: a default name, a name for all that is exported, and names that
are listed, each of which may have an alias (`ImportSyntax`). A tracker that enters what the import becomes declares
just these names in the current scope, each by the specifier whose local name it is (`enter_lowered_import`). Where
a module is required a name is bound as well, but the import that this becomes has no specifiers, so that the name
is lost. -/

namespace Arbor

open Literal (TooLarge)
open Lowering (identifierOf lower lowered nodeOf siteOf)
open Scope (BindingKind Declaration Entry Tracker)

/-! ## Syntax -/

/-- A syntax tree is one of several imported names, and this token is the name that it binds: the alias if there is
    one. -/
inductive ImportedName : Cst → Token → Prop
  | plain {t name : Cst} (kind : t.kind = "import_specifier") (alone : t.part? "alias" = none)
      (part : t.part? "name" = some name) (identifier : name.kind = "identifier") : ImportedName t name.token
  | aliased {t other : Cst} (kind : t.kind = "import_specifier") (part : t.part? "alias" = some other)
      (identifier : other.kind = "identifier") : ImportedName t other.token

theorem ImportedName.kind_eq {t : Cst} {name : Token} (h : ImportedName t name) : t.kind = "import_specifier" := by
  cases h <;> assumption

/-- A syntax tree is a part of an import clause, and these tokens are the names that it binds. -/
inductive ImportPart : Cst → List Token → Prop
  | default {t : Cst} (kind : t.kind = "identifier") : ImportPart t [t.token]
  | all {t name : Cst} (kind : t.kind = "namespace_import") (part : t.parts.head? = some name)
      (identifier : name.kind = "identifier") : ImportPart t [name.token]
  | named {t : Cst} {specifiers : List (Cst × Token)} (kind : t.kind = "named_imports")
      (parts : t.parts = specifiers.map Prod.fst) (each : ∀ e ∈ specifiers, ImportedName e.1 e.2) :
      ImportPart t (specifiers.map Prod.snd)

/-- How an import binds names: by the parts of a clause, or by requiring a module under a name. -/
inductive ImportForm where
  | clause
  | require

/-- A syntax tree is an import of a given form, and these tokens are the names that it binds. An import without a
    clause binds none. -/
inductive ImportSyntax : ImportForm → Cst → List Token → Prop
  | bare {t : Cst} (kind : t.kind = "import_statement") (none : ∀ c ∈ t.parts, c.kind ≠ "import_clause")
      (plain : ∀ c ∈ t.parts, c.kind ≠ "import_require_clause") : ImportSyntax .clause t []
  | clause {t clause : Cst} {parts : List (Cst × List Token)} (kind : t.kind = "import_statement")
      (one : t.parts.filter (fun c => c.kind = "import_clause") = [clause])
      (parts_eq : clause.parts = parts.map Prod.fst) (each : ∀ e ∈ parts, ImportPart e.1 e.2) :
      ImportSyntax .clause t (parts.flatMap Prod.snd)
  | require {t clause name : Cst} (kind : t.kind = "import_statement")
      (none : ∀ c ∈ t.parts, c.kind ≠ "import_clause") (mem : clause ∈ t.parts)
      (clause_kind : clause.kind = "import_require_clause") (part : clause.parts.head? = some name)
      (identifier : name.kind = "identifier") : ImportSyntax .require t [name.token]

/-- Of the names that an import binds those that reach its specifiers. -/
def ImportForm.kept (form : ImportForm) (names : List Token) : List Token :=
  match form with
  | clause => names
  | require => []

namespace Lowering

open Value (typeOf?)

/-! ## Specifiers -/

/-- A value is a specifier whose local name is that of a token. -/
def Specifies (source : Source) (name : Token) (v : Value) : Prop :=
  ∃ fields type, v = .record fields ∧ typeOf? fields = some type ∧
    Fields.get? fields (.text "local") = some (identifierOf source name)

section

variable {source : Source} {t : Cst}

theorem lower_identifier (h : t.kind = "identifier") (parent? : Option String) :
    lower source parent? t = .ok (identifierOf source t.token) := by
  have hrule : ruleOf t.kind = .node "Identifier" [("name", .source)] := by rw [h]; rfl
  rw [lower_eq hrule (by simp)]
  rfl

theorem specifies_nodeOf {type : Text} {token name : Token} {fields : List (String × Value)}
    (h : Fields.get? (namedFields fields) (.text "local") = some (identifierOf source name)) :
    Specifies source name (nodeOf type token fields) :=
  ⟨_, type, nodeOf_eq _ _ _, rfl, (Value.get?_nodeFields _ _ _ _ (by decide)).trans h⟩

theorem importSpecifierOf_specifies {name : Token} (h : ImportedName t name) (parent? : Option String) :
    IfOk (Specifies source name) (importSpecifierOf (lowered source parent? t)) := by
  unfold importSpecifierOf
  rw [site_lowered, token_lowered]
  refine (ifOk_true _).bind fun imported _ => ?_
  have hlocal : valueOf ((siteOf source t).field? "alias" <|> (siteOf source t).field? "name") =
      .ok (identifierOf source name) := by
    rw [field?_siteOf, field?_siteOf]
    cases h with
    | plain kind alone part identifier =>
      rw [alone, part]
      exact lower_identifier identifier _
    | aliased kind part identifier =>
      rw [part]
      exact lower_identifier identifier _
  rw [hlocal]
  refine specifies_nodeOf ?_
  rw [get?_namedFields_cons, if_neg (by decide), get?_namedFields_cons, if_pos rfl]

/-- The specifiers of a part of a clause have the names that the part binds. -/
theorem clauseSpecifiers_specify {names : List Token} (h : ImportPart t names) (parent? : Option String) :
    IfOk (List.Forall₂ (Specifies source) names) (clauseSpecifiers (lowered source parent? t)) := by
  have hspecifier (type : Text) (name : Token) :
      Specifies source name (nodeOf type t.token [("local", identifierOf source name)]) :=
    specifies_nodeOf (by rw [get?_namedFields_cons, if_pos rfl])
  unfold clauseSpecifiers
  rw [kind_lowered, site_lowered, token_lowered]
  cases h with
  | default kind =>
    rw [if_pos kind]
    have hvalue : Branch.value (lowered source parent? t) = .ok (identifierOf source t.token) :=
      lower_identifier kind parent?
    rw [hvalue]
    exact .cons (hspecifier _ _) .nil
  | @all name kind part identifier =>
    rw [kind, if_neg (by decide), if_pos rfl]
    have hfirst : firstOf (siteOf source t) = .ok (identifierOf source name.token) := by
      rw [firstOf, Site.first?, parts_siteOf, List.head?_map, part]
      exact lower_identifier identifier _
    rw [hfirst]
    exact .cons (hspecifier _ _) .nil
  | @named specifiers kind parts each =>
    rw [kind, if_neg (by decide), if_neg (by decide), if_pos rfl]
    have hspecifiers : (siteOf source t).partsOf "import_specifier" =
        specifiers.map fun e => lowered source (some t.kind) e.1 := by
      rw [Site.partsOf, parts_siteOf, parts, List.map_map, List.filter_eq_self.2]
      · rfl
      · rw [List.forall_mem_map]
        intro e he
        simp [(each e he).kind_eq]
    rw [hspecifiers, List.mapM_map]
    refine (Yields.mapM_forall₂ (R := fun e => Specifies source e.2) fun e he =>
      importSpecifierOf_specifies (each e he) _).mono fun vs hvs => ?_
    exact List.forall₂_map_left_iff.2 hvs

/-- The specifiers of an import have the names that its clause binds, in order. -/
theorem importSpecifiersOf_specify {form : ImportForm} {names : List Token} (h : ImportSyntax form t names) :
    IfOk (List.Forall₂ (Specifies source) (form.kept names)) (importSpecifiersOf (siteOf source t)) := by
  have hclauses : (siteOf source t).partsOf "import_clause" =
      (t.parts.filter fun c => c.kind = "import_clause").map (lowered source (some t.kind)) := by
    rw [Site.partsOf, parts_siteOf, List.filter_map]
    congr 2
    funext c
    simp
  have hnone (h : ∀ c ∈ t.parts, c.kind ≠ "import_clause") :
      IfOk (List.Forall₂ (Specifies source) []) (importSpecifiersOf (siteOf source t)) := by
    rw [importSpecifiersOf, hclauses, List.filter_eq_nil_iff.2 (by simpa using h)]
    exact .nil
  cases h with
  | bare kind none plain => exact hnone none
  | require kind none mem clause_kind part identifier => exact hnone none
  | @clause _ clause parts kind one parts_eq each =>
    have hparts : [lowered source (some t.kind) clause].flatMap (fun c => c.site.parts) =
        parts.map fun e => lowered source (some clause.kind) e.1 := by
      rw [List.flatMap_singleton, site_lowered, parts_siteOf, parts_eq, List.map_map]
      rfl
    rw [importSpecifiersOf, hclauses, one, List.map_singleton, hparts, List.mapM_map]
    refine (Yields.mapM_forall₂ (R := fun e => List.Forall₂ (Specifies source) e.2) fun e he =>
      clauseSpecifiers_specify (each e he) _).bind fun vss hvss => ?_
    rw [ImportForm.kept, List.flatMap_def]
    exact List.rel_flatten (List.forall₂_map_left_iff.2 hvss)

/-- What an import becomes. -/
theorem lower_specifies {form : ImportForm} {names : List Token} (h : ImportSyntax form t names)
    (parent? : Option String) :
    IfOk (fun v => ∃ fields vs, v = .record fields ∧ typeOf? fields = some "ImportDeclaration" ∧
      Fields.get? fields (.text "specifiers") = some (.list vs) ∧
      List.Forall₂ (Specifies source) (form.kept names) vs) (lower source parent? t) := by
  have hkind : t.kind = "import_statement" := by cases h <;> assumption
  have hrule : ruleOf t.kind = .node "ImportDeclaration" [
      ("importKind", .importKind), ("specifiers", .importSpecifiers), ("source", .child "source")] := by
    rw [hkind]
    rfl
  have hfill : IfOk (fun v? => ∃ v, v? = some v ∧ ∃ vs, v = .list vs ∧
      List.Forall₂ (Specifies source) (form.kept names) vs)
      (Filler.importSpecifiers.fill source (siteOf source t)) :=
    (importSpecifiersOf_specify h).map fun vs hvs => ⟨_, rfl, vs, rfl, hvs⟩
  refine (node_tells "specifiers" hrule rfl (by decide) parent? hfill).mono ?_
  rintro v ⟨fields, w, rfl, htype, -, hget, vs, rfl, hvs⟩
  exact ⟨fields, vs, rfl, htype, hget, hvs⟩

end

end Lowering

/-! ## What a tracker declares -/

namespace Scope

/-- A specifier of the import `r` with the local name `name`. -/
def IsSpecifier (h : Heap) (r specifier : Ref) (name : Text) : Prop :=
  ∃ items, h.elements (h.field r "specifiers") = .ok items ∧ .ref specifier ∈ items ∧
    h.isNode (.ref specifier) = true ∧ h.name? (h.field specifier "local") = some name

/-- From one tracker to another just these names have been declared in the current scope, each by a specifier of
    the import `r` whose local name it is. -/
structure Imports (h : Heap) (r : Ref) (names : List Text) (T T' : Tracker) : Prop where
  owner : h.nodeType? (.ref r) = some "ImportDeclaration"
  counters : T'.counters = T.counters
  preserves : T'.preserves = T.preserves
  frozen : T'.frozen = T.frozen
  elsewhere : ∀ path, path ≠ T.path → T'.bindings path = T.bindings path
  declared : ∀ name ∈ names, ∃ specifier, IsSpecifier h r specifier name ∧
    Fields.get? (T'.bindings T.path) name = some ⟨.imported, specifier, T.key, some r⟩
  others : ∀ name, name ∉ names → Fields.get? (T'.bindings T.path) name = Fields.get? (T.bindings T.path) name

/-- A tracker that enters an import files its local names in the current scope. -/
theorem enter_import {h : Heap} {r : Ref} {fields : List (Key × Layout)} (ht : h.Holds (.record r fields))
    (hiter : (Layout.record r fields).Iterable)
    (htype : (Layout.record r fields).type? = some "ImportDeclaration") {T : Tracker} (hf : T.frozen = false) :
    ∃ T', Tracker.enter h (.ref r) T = .ok () T' ∧ T'.counters = T.counters ∧ T'.preserves = T.preserves ∧
      T'.frozen = T.frozen ∧ ∀ path, T'.bindings path =
        recordAll path (T.bindings path)
          (if T.path = path then (Layout.record r fields).importEntries r else []) := by
  have hnodeType : h.nodeType? (.ref r) = some "ImportDeclaration" := ht.nodeType?.trans htype
  have hn : (Layout.record r fields).isNode = true := by rw [Layout.isNode, htype]; rfl
  have hrole : Role.ofType "ImportDeclaration" = .importDeclaration := by decide
  have hfails := ht.failsBy (Layout.mem_parts_self _) rfl
  rw [enter_of_type hnodeType]
  rcases (ofNode_failsBy hfails).applyAll T with ⟨T', hrun⟩ | ⟨f, _, -, -, hlist⟩
  · refine ⟨T', hrun, ?_, (Tracker.keeps_applyAll hrun).preserves, (Tracker.keeps_applyAll hrun).frozen,
      fun path => ?_⟩
    · rw [Tracker.applyAll_counters hrun, ofNode_of_type hnodeType, pushes_ofRole, hrole]
      rfl
    · rw [Tracker.applyAll_bindings hf hrun, filed_ofNode ht hiter hn, Layout.declares_of_type htype, hrole,
        Layout.declaresAs, under_filedIn]
      rfl
  · exact absurd hiter hlist

end Scope

namespace Layout

open Lowering (Specifies)

/-- What a specifier of the import `r` declares. -/
def specifierEntry (r : Ref) (u : Layout) : List Entry :=
  match u with
  | record x fields =>
    if (record x fields).isNode then ((record x fields).field "local").nameEntry .imported x (some r) else []
  | _ => []

/-- A specifier declares its local name. -/
theorem specifierEntry_of_specifies {source : Source} {name : Token} {u : Layout} (h : Specifies source name u.value)
    (hname : name.IsNamed source) (r : Ref) :
    ∃ x fields, u = record x fields ∧ (record x fields).isNode = true ∧
      ((record x fields).field "local").name? = some (name.text source) ∧
      u.specifierEntry r = [⟨name.text source, .imported, x, some r⟩] := by
  obtain ⟨_, type, hvalue, htype, hlocal⟩ := h
  obtain ⟨x, fields, rfl, rfl⟩ := exists_record hvalue
  have hn : (record x fields).isNode = true := by rw [isNode, type?_record, htype]; rfl
  have hspelled : ((record x fields).field "local").name? = some (name.text source) := by
    obtain ⟨hheld, -⟩ := field_of_get? (r := x) hlocal
    obtain ⟨y, fs, heq, hfields⟩ := exists_record (hheld.trans (Lowering.nodeOf_eq _ _ _))
    rw [heq]
    have htyped : (record y fs).type? = some "Identifier" := by rw [type?_record, ← hfields]; rfl
    refine name?_of_get? htyped ?_ hname
    rw [← hfields, Value.get?_nodeFields _ _ _ _ (by decide), Lowering.get?_namedFields_cons, if_pos rfl]
  refine ⟨x, fields, rfl, hn, hspelled, ?_⟩
  rw [specifierEntry, if_pos hn, nameEntry, hspelled]
  rfl

/-- Specifiers declare their local names, in order. -/
theorem entries_of_specify {source : Source} {names : List Token} {us : List Layout}
    (h : List.Forall₂ (Specifies source) names (us.map value)) (hnamed : ∀ n ∈ names, n.IsNamed source)
    (r : Ref) :
    (us.flatMap (specifierEntry r)).map Entry.name = names.map (·.text source) ∧
      ∀ e ∈ us.flatMap (specifierEntry r), e.kind = .imported ∧ e.owner? = some r ∧
        ∃ fields, record e.node fields ∈ us ∧ (record e.node fields).isNode = true ∧
          ((record e.node fields).field "local").name? = some e.name := by
  induction us generalizing names with
  | nil =>
    cases h
    exact ⟨rfl, List.forall_mem_nil _⟩
  | cons u us ih =>
    cases h with
    | @cons name _ names _ hu hus =>
      obtain ⟨hname, hnames⟩ := List.forall_mem_cons.1 hnamed
      obtain ⟨x, fields, rfl, hn, hlocal, hentry⟩ := specifierEntry_of_specifies hu hname r
      obtain ⟨hspelled, heach⟩ := ih hus hnames
      rw [List.flatMap_cons, hentry]
      refine ⟨by rw [List.map_append, hspelled]; rfl, List.forall_mem_append.2 ⟨?_, fun e he => ?_⟩⟩
      · rw [List.forall_mem_singleton]
        exact ⟨rfl, rfl, fields, List.mem_cons_self .., hn, hlocal⟩
      · obtain ⟨hkind, howner, fs, hmem, hrest⟩ := heach e he
        exact ⟨hkind, howner, fs, List.mem_cons_of_mem _ hmem, hrest⟩

end Layout

/-- A tracker that enters what has become of an import declares the names of its specifiers. -/
theorem Scope.imports_of_specifies {source : Source} {v : Value} {fields : List (Key × Value)} {vs : List Value}
    {names : List Token} (hv : v = .record fields) (htype : Value.typeOf? fields = some "ImportDeclaration")
    (hget : Fields.get? fields (.text "specifiers") = some (.list vs))
    (hvs : List.Forall₂ (Lowering.Specifies source) names vs) (hnamed : ∀ n ∈ names, n.IsNamed source)
    (htidy : v.Tidy) (heap : Heap) {T : Tracker} (hf : T.frozen = false) :
    ∃ r T', (heap.load v).1 = .ref r ∧ Tracker.enter (heap.load v).2 (.ref r) T = .ok () T' ∧
      Imports (heap.load v).2 r (names.map (·.text source)) T T' := by
  obtain ⟨hvalue, -, hheld⟩ := heap.holds_loaded v
  have hdatum := heap.datum_loaded v
  have hiter : (heap.loaded v).Iterable := Layout.iterable_of_tidy (by rwa [hvalue])
  obtain ⟨r, fs, hloaded, rfl⟩ := Layout.exists_record (hvalue.trans hv)
  rw [hloaded] at hheld hdatum hiter
  generalize (heap.load v).2 = h at hheld
  have htyped : (Layout.record r fs).type? = some "ImportDeclaration" := (Layout.type?_record r fs).trans htype
  have hn : (Layout.record r fs).isNode = true := by rw [Layout.isNode, htyped]; rfl
  obtain ⟨T', hrun, hcounters, hpreserves, hfrozen, hbindings⟩ := enter_import hheld hiter htyped hf
  have helements := Layout.elements_of_get? (r := r) hget
  obtain ⟨hspelled, heach⟩ := Layout.entries_of_specify (by rwa [helements]) hnamed r
  change ((Layout.record r fs).importEntries r).map Entry.name = _ at hspelled
  change ∀ e ∈ (Layout.record r fs).importEntries r, _ at heach
  have hhere := hbindings T.path
  rw [if_pos rfl] at hhere
  refine ⟨r, T', hdatum.symm, hrun, hheld.nodeType?.trans htyped, hcounters, hpreserves, hfrozen,
    fun path hpath => ?_, fun name hname => ?_, fun name hname => ?_⟩
  · rw [hbindings, if_neg (Ne.symm hpath)]
    rfl
  · rw [← hspelled] at hname
    obtain ⟨e, he, hename, hrecord⟩ := exists_get?_recordAll (List.mem_map.1 hname) T.path (T.bindings T.path)
    obtain ⟨hkind, howner, gs, hmem, hnode, hlocal⟩ := heach e he
    have hpart := Layout.elements_parts r fs _ hmem
    have hspecifier := hheld.of_part hpart
    refine ⟨e.node, ⟨_, hheld.elements_eq hiter hn (by decide), List.mem_map_of_mem hmem, ?_, ?_⟩, ?_⟩
    · exact hspecifier.isNode.trans hnode
    · rw [hspecifier.field_eq, (hspecifier.of_field "local").name?_eq, hlocal, hename]
    · rw [hhere, hrecord, Entry.declaration, hkind, howner]
      rfl
  · rw [← hspelled] at hname
    rw [hhere, get?_recordAll_of_forall_ne fun e he heq => hname (List.mem_map.2 ⟨e, he, heq⟩)]

/-- A tracker that enters what has become of an import declares in the current scope the names that the parts of its
    clause bind, each by a specifier and with the import as its owner, and nothing else. An import that requires a
    module declares nothing. Only an escape beyond the last code point, in the name of the module or of what is
    imported, keeps an import from being lowered. -/
theorem enter_lowered_import {source : Source} {form : ImportForm} {t : Cst} {names : List Token}
    (h : ImportSyntax form t names) (hg : GrammaticalTree t) (hnamed : ∀ n ∈ names, n.IsNamed source)
    (parent? : Option String) :
    (∃ v, lower source parent? t = .ok v ∧ ∀ (heap : Heap) (T : Tracker), T.frozen = false →
      ∃ r T', (heap.load v).1 = .ref r ∧ Tracker.enter (heap.load v).2 (.ref r) T = .ok () T' ∧
        Scope.Imports (heap.load v).2 r ((form.kept names).map (·.text source)) T T') ∨
      ∃ f, lower source parent? t = .error f ∧ TooLarge f ∧ HasOverlong source t := by
  have hspecifies : Lowering.IfOk _ (lower source parent? t) := Lowering.lower_specifies h parent?
  have hyields : Yields _ _ (lower source parent? t) :=
    (Lowering.lowered_behaves (allows_of_grammatical hg source) parent?).here.value
  have hkept : ∀ n ∈ form.kept names, n.IsNamed source := by
    cases form with
    | clause => exact hnamed
    | require => exact List.forall_mem_nil _
  cases hlower : lower source parent? t with
  | ok v =>
    rw [hlower] at hspecifies hyields
    obtain ⟨fields, vs, hv, htype, hget, hvs⟩ := hspecifies
    exact .inl ⟨v, rfl, fun heap T hf => Scope.imports_of_specifies hv htype hget hvs hkept hyields.tidy heap hf⟩
  | error f =>
    rw [hlower] at hyields
    exact .inr ⟨f, rfl, hyields⟩

namespace Sample

/-- The source `import a,{/**/b,"c" as d}from "m"`. -/
def importSource : Source := .ofText "import a,\x7b/**/b,\"c\" as d\x7dfrom \"m\""

/-- The listed names, the second with an alias. -/
def importedNames : List (Cst × Token) :=
  let b : Cst := .leaf "identifier" true 14 15 (some "name")
  let d : Cst := .leaf "identifier" true 23 24 (some "alias")
  [(.branch "import_specifier" 14 15 none [b], b.token),
    (.branch "import_specifier" 16 24 none [
      .branch "string" 16 19 (some "name") [
        .leaf "\"" false 16 17 none, .leaf "string_fragment" true 17 18 none, .leaf "\"" false 18 19 none],
      .leaf "as" false 20 22 none, d], d.token)]

/-- A default name and listed names. -/
def importParts : List (Cst × List Token) :=
  let a : Cst := .leaf "identifier" true 7 8 none
  [(a, [a.token]),
    (.branch "named_imports" 9 25 none (
      .leaf "\x7b" false 9 10 none :: .leaf "comment" true 10 14 none ::
        importedNames.map Prod.fst ++ [.leaf "\x7d" false 24 25 none]), importedNames.map Prod.snd)]

def importStatement : Cst :=
  .branch "import_statement" 0 33 none [
    .leaf "import" false 0 6 none,
    .branch "import_clause" 7 25 none (importParts.map Prod.fst),
    .leaf "from" false 25 29 none,
    .branch "string" 30 33 (some "source") [
      .leaf "\"" false 30 31 none, .leaf "string_fragment" true 31 32 none, .leaf "\"" false 32 33 none]]

theorem importSyntax_statement : ImportSyntax .clause importStatement (importParts.flatMap Prod.snd) := by
  have hnames : ∀ e ∈ importedNames, ImportedName e.1 e.2 := by
    simp only [importedNames, List.forall_mem_cons]
    exact ⟨.plain rfl rfl rfl rfl, .aliased rfl rfl rfl, by simp⟩
  refine .clause rfl rfl rfl ?_
  simp only [importParts, List.forall_mem_cons]
  exact ⟨.default rfl, .named rfl rfl hnames, by simp⟩

/-- The names `a`, `b` and `d` are declared, and not `c`. -/
theorem enter_lowered_import_statement :
    (Tracker.fresh false).frozen = false ∧ ∃ v, lower importSource (some "program") importStatement = .ok v ∧
      ∃ r T', (Heap.empty.load v).1 = .ref r ∧
        Tracker.enter (Heap.empty.load v).2 (.ref r) (Tracker.fresh false) = .ok () T' ∧
        Scope.Imports (Heap.empty.load v).2 r ["a", "b", "d"] (Tracker.fresh false) T' := by
  have hnamed : ∀ n ∈ importParts.flatMap Prod.snd, n.IsNamed importSource := by decide
  obtain ⟨v, hv⟩ : ∃ v, lower importSource (some "program") importStatement = .ok v := ⟨_, rfl⟩
  rcases enter_lowered_import importSyntax_statement (by decide) hnamed (some "program") with
    ⟨w, hw, henter⟩ | ⟨f, hf, -⟩
  · exact ⟨rfl, w, hw, henter Heap.empty (Tracker.fresh false) rfl⟩
  · rw [hv] at hf
    cases hf

/-- The name `x` in the statement `import x = require("m")`. -/
def requiredName : Cst := .leaf "identifier" true 7 8 none

def requireStatement : Cst :=
  .branch "import_statement" 0 23 none [
    .leaf "import" false 0 6 none,
    .branch "import_require_clause" 7 23 none [
      requiredName, .leaf "=" false 9 10 none, .leaf "require" false 11 18 none,
      .leaf "(" false 18 19 none,
      .branch "string" 19 22 (some "source") [
        .leaf "\"" false 19 20 none, .leaf "string_fragment" true 20 21 none, .leaf "\"" false 21 22 none],
      .leaf ")" false 22 23 none]]

/-- The name of a required module is not declared. -/
theorem enter_required :
    let source : Source := .ofText "import x = require(\"m\")"
    ImportSyntax .require requireStatement [requiredName.token] ∧ GrammaticalTree requireStatement ∧
      requiredName.token.text source = "x" ∧ ∃ v T', lower source (some "program") requireStatement = .ok v ∧
        Tracker.enter (Heap.empty.load v).2 (Heap.empty.load v).1 (Tracker.fresh false) = .ok () T' ∧
        T'.isDeclared "x" = false := by
  have hnone : ∀ c ∈ requireStatement.parts, c.kind ≠ "import_clause" := by decide
  exact ⟨.require rfl hnone (List.mem_singleton_self _) rfl rfl rfl, by decide, by decide, _, _, rfl, rfl, rfl⟩

end Sample

end Arbor
