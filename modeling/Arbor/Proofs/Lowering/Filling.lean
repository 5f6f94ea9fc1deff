import Arbor.Proofs.Lowering.Seating

set_option autoImplicit false

/-! # What fillers leave

A filler leaves what is drawn from where it reads (`Lowering.fill_drawn`), and the fillers of a node leave their
values under their names (`Lowering.Filled`). The values of a few kinds of nodes are told from the fillers of their
rule alone: names that stand for themselves, patterns without a type, and functions and classes. -/

namespace Arbor.Lowering

open Value (nodeFields headKeys Apart typeOf? startOf? rangeOf? records recordsOfItems recordsOfFields)

/-! ## Fields that are filled -/

/-- What fillers leave under their names; a filler may leave its field out. -/
inductive Filled (source : Source) (s : Site) : List (String × Filler) → List (String × Value) → Prop
  | nil : Filled source s [] []
  | skip {name : String} {filler : Filler} {rest : List (String × Filler)} {filled : List (String × Value)}
      (fill_eq : filler.fill source s = .ok none) (more : Filled source s rest filled) :
      Filled source s ((name, filler) :: rest) filled
  | keep {name : String} {filler : Filler} {rest : List (String × Filler)} {filled : List (String × Value)}
      {v : Value} (fill_eq : filler.fill source s = .ok (some v)) (more : Filled source s rest filled) :
      Filled source s ((name, filler) :: rest) ((name, v) :: filled)

theorem fillAll_filled (source : Source) (s : Site) (fields : List (String × Filler)) :
    IfOk (Filled source s fields) (fillAll source s fields) := by
  induction fields with
  | nil => exact Filled.nil
  | cons field rest ih =>
    obtain ⟨name, filler⟩ := field
    rw [fillAll]
    cases hfill : filler.fill source s with
    | error f => trivial
    | ok value? =>
      refine ih.bind fun more hmore => ?_
      cases value? with
      | none => exact .skip hfill hmore
      | some v => exact .keep hfill hmore

section

variable {source : Source} {s : Site} {fields : List (String × Filler)} {filled : List (String × Value)}

/-- Fields are left under the names of their fillers. -/
theorem Filled.names (h : Filled source s fields filled) :
    (filled.map Prod.fst).Sublist (fields.map Prod.fst) := by
  induction h with
  | nil => exact .slnil
  | skip _ _ ih => exact ih.cons _
  | keep _ _ ih => exact ih.cons_cons _

/-- What is left was left by a filler. -/
theorem Filled.exists_filler (h : Filled source s fields filled) :
    ∀ f ∈ filled, ∃ filler, (f.1, filler) ∈ fields ∧ filler.fill source s = .ok (some f.2) := by
  induction h with
  | nil => exact fun f hf => absurd hf List.not_mem_nil
  | skip _ _ ih =>
    intro f hf
    obtain ⟨filler, hmem, hfill⟩ := ih f hf
    exact ⟨filler, List.mem_cons_of_mem _ hmem, hfill⟩
  | keep fill_eq _ ih =>
    refine List.forall_mem_cons.2 ⟨⟨_, List.mem_cons_self .., fill_eq⟩, fun f hf => ?_⟩
    obtain ⟨filler, hmem, hfill⟩ := ih f hf
    exact ⟨filler, List.mem_cons_of_mem _ hmem, hfill⟩

/-- What a filler leaves is found under its name, with what is known of it. -/
theorem Filled.exists_of_lookup (h : Filled source s fields filled) {name : String} {filler : Filler}
    {Q : Value → Prop} (hlookup : fields.lookup name = some filler)
    (hfill : IfOk (fun v? => ∃ v, v? = some v ∧ Q v) (filler.fill source s)) :
    ∃ v, Fields.get? (namedFields filled) (.text name) = some v ∧ Q v := by
  induction h with
  | nil => cases hlookup
  | @skip other _ _ _ fill_eq _ ih =>
    rw [List.lookup_cons] at hlookup
    split at hlookup
    · cases hlookup
      rw [fill_eq] at hfill
      obtain ⟨v, hv, -⟩ := hfill
      cases hv
    · exact ih hlookup
  | @keep other _ _ _ w fill_eq _ ih =>
    rw [List.lookup_cons] at hlookup
    rw [get?_namedFields_cons]
    split at hlookup
    · next heq =>
      cases hlookup
      rw [fill_eq] at hfill
      obtain ⟨v, hv, hq⟩ := hfill
      cases hv
      exact ⟨w, if_pos (beq_iff_eq.1 heq).symm, hq⟩
    · next hne =>
      rw [if_neg (Ne.symm (beq_eq_false_iff_ne.1 hne))]
      exact ih hlookup

theorem Filled.get?_of_lookup (h : Filled source s fields filled) {name : String} {filler : Filler} {v : Value}
    (hlookup : fields.lookup name = some filler) (hfill : filler.fill source s = .ok (some v)) :
    Fields.get? (namedFields filled) (.text name) = some v := by
  obtain ⟨w, hw, rfl⟩ := h.exists_of_lookup (Q := (· = v)) hlookup (by rw [hfill]; exact ⟨v, rfl, rfl⟩)
  exact hw

/-- There is nothing under a name that no filler has. -/
theorem Filled.get?_of_lookup_none (h : Filled source s fields filled) {name : String}
    (hlookup : fields.lookup name = none) : Fields.get? (namedFields filled) (.text name) = none := by
  rw [Fields.get?_eq_none_iff, namedFields, Fields.keys, List.map_map]
  intro hmem
  obtain ⟨f, hf, heq⟩ := List.mem_map.1 hmem
  have hname : f.1 = name := Text.ofString_inj.1 (Scalar.text.inj heq)
  have hmem : f.1 ∈ fields.map Prod.fst := h.names.subset (List.mem_map_of_mem hf)
  obtain ⟨g, hg, hgname⟩ := List.mem_map.1 hmem
  have hnone := List.lookup_eq_none_iff.1 hlookup g hg
  rw [hgname, hname, bne_self_eq_false] at hnone
  cases hnone

end

/-! ## Kinds that are told by their rule -/

/-- A kind that has a rule is not left out. -/
theorem not_isSkipped_of_rule {t : Token} (h : (rules.lookup t.kind).isSome = true) : t.isSkipped = false := by
  have hskipped : ∀ kind ∈ Token.skippedKinds, (rules.lookup kind).isSome = false := by decide
  rw [Bool.eq_false_iff, ne_eq, Token.isSkipped_iff]
  intro hmem
  rw [hskipped _ hmem] at h
  cases h

/-- A kind that is lowered by a rule of its own is listed. -/
theorem lookup_of_rule {kind : String} {rule : Rule} (h : ruleOf kind = rule) (hown : rule ≠ .generic) :
    (rules.lookup kind).isSome = true := by
  unfold ruleOf at h
  cases hlookup : rules.lookup kind with
  | none =>
    rw [hlookup] at h
    exact absurd h.symm hown
  | some rule => rfl

/-- Whether a filler leaves a scalar. -/
def Filler.isFlat : Filler → Bool
  | constant _ => true
  | source => true
  | string => true
  | _ => false

theorem Filler.scalar_of_isFlat {filler : Filler} (hflat : filler.isFlat = true) {source : Source} {s : Site}
    {v : Value} (h : filler.fill source s = .ok (some v)) : ∃ c, v = .scalar c := by
  cases filler with
  | constant c =>
    cases h
    exact ⟨c, rfl⟩
  | source =>
    cases h
    exact ⟨_, rfl⟩
  | string =>
    simp only [Filler.fill] at h
    cases hbody : Literal.unescape (((s.token.text source).dropLast 1).drop 1) with
    | error f =>
      rw [hbody] at h
      cases h
    | ok body =>
      rw [hbody] at h
      cases h
      exact ⟨_, rfl⟩
  | _ => cases hflat

/-- A node whose fillers leave scalars. -/
def Rule.isLeaf : Rule → Bool
  | node _ fields => fields.all fun f => f.2.isFlat
  | _ => false

/-- A node that has no type annotation. -/
def Rule.isUntyped : Rule → Bool
  | node _ fields => (fields.lookup "typeAnnotation").isNone
  | _ => false

/-- A node in whose fields nothing is looked at. -/
def Rule.isPlain : Rule → Bool
  | node type _ => !holdingTypes.contains type
  | _ => false

theorem isLeaf_of_mem_leafKinds : ∀ kind ∈ leafKinds, (ruleOf kind).isLeaf = true := by decide

theorem isUntyped_of_mem_patternKinds : ∀ kind ∈ patternKinds, (ruleOf kind).isUntyped = true := by decide

theorem isPlain_of_mem_functionKinds :
    ∀ kind ∈ functionKinds ++ classKinds, (ruleOf kind).isPlain = true := by decide

section

variable {S : Survey} {limit : Int} {b : Branch}

/-- What a kind becomes whose rule is a list of fillers. -/
theorem value_of_node (hb : b.Drawn S) {type : String} {fields : List (String × Filler)}
    (hrule : ruleOf b.kind = .node type fields) :
    IfOk (fun v => ∃ filled, Filled S.source b.site fields filled ∧ v = nodeOf type b.token filled)
      (Branch.value b) := by
  obtain ⟨parent?, hnote⟩ := hb.lowered
  have hskip : b.site.token.isSkipped = false := not_isSkipped_of_rule (lookup_of_rule hrule (by simp))
  have hvalue : Branch.value b =
      (fillAll S.source b.site fields >>= fun filled => pure (nodeOf type b.site.token filled)) := by
    have hrule : ruleOf b.site.token.kind = .node type fields := hrule
    rw [Branch.value, hnote, readingOf, hskip]
    simp only [hrule]
    rfl
  rw [hvalue]
  exact (fillAll_filled S.source b.site fields).bind fun filled hfilled => ⟨filled, hfilled, rfl⟩

/-- A name that stands for itself starts where its token starts, and holds nothing. -/
theorem leaf_drawn (hb : AllDrawn S limit [b]) (hkind : b.kind ∈ leafKinds) :
    IfOk (fun v => S.Drawn limit [⟨b.token.start, b.token.start⟩] (records none v)) (Branch.value b) := by
  have hleaf := isLeaf_of_mem_leafKinds _ hkind
  cases hrule : ruleOf b.kind with
  | node type fields =>
    rw [hrule] at hleaf
    refine ((value_drawn hb).and (value_of_node hb.here hrule)).mono fun v hv => ?_
    obtain ⟨hv, filled, hfilled, rfl⟩ := hv
    have hnone : recordsOfFields (some (type : Text)) (namedFields filled) = [] := by
      rw [Value.recordsOfFields_eq, List.flatMap_eq_nil_iff]
      refine List.forall_mem_map.2 fun f hf => ?_
      obtain ⟨filler, hmem, hfill⟩ := hfilled.exists_filler f hf
      obtain ⟨c, hc⟩ := Filler.scalar_of_isFlat (List.all_eq_true.1 hleaf _ hmem) hfill
      rw [hc]
      rfl
    have hrecords : records none (nodeOf type b.token filled) =
        [⟨none, nodeFields type b.token.start b.token.stop (namedFields filled)⟩] := by
      rw [nodeOf_eq, Value.records_nodeFields, hnone]
    rw [hrecords] at hv ⊢
    refine ⟨hv.sound, hv.ends, fun _ n hn => ?_, fun _ _ => List.pairwise_singleton _ _⟩
    rw [List.mem_singleton.1 (show n ∈ [(b.token.start : Int)] from hn)]
    exact ⟨_, List.mem_singleton_self _, Int.le_refl _, Int.le_refl _⟩
  | _ =>
    rw [hrule] at hleaf
    cases hleaf

/-- A pattern has no type unless one is added to it. -/
theorem untyped (hb : b.Drawn S) (hkind : b.kind ∈ patternKinds) :
    IfOk (fun v => v.field? "typeAnnotation" = none) (Branch.value b) := by
  have huntyped := isUntyped_of_mem_patternKinds _ hkind
  cases hrule : ruleOf b.kind with
  | node type fields =>
    rw [hrule] at huntyped
    refine (value_of_node hb hrule).mono fun v hv => ?_
    obtain ⟨filled, hfilled, rfl⟩ := hv
    rw [nodeOf_eq]
    exact (Value.get?_nodeFields _ _ _ _ typeAnnotation_not_mem_headKeys).trans
      (hfilled.get?_of_lookup_none (Option.isNone_iff_eq_none.1 huntyped))
  | _ =>
    rw [hrule] at huntyped
    cases huntyped

/-- The type of a function or class. -/
theorem plain_type (hb : b.Drawn S) (hkind : b.kind ∈ functionKinds ++ classKinds) :
    IfOk (fun v => ∀ fields, v = .record fields → ∃ type ∉ holdingTypes, typeOf? fields = some type)
      (Branch.value b) := by
  have hplain := isPlain_of_mem_functionKinds _ hkind
  cases hrule : ruleOf b.kind with
  | node type fields =>
    rw [hrule] at hplain
    refine (value_of_node hb hrule).mono fun v hv => ?_
    obtain ⟨filled, -, rfl⟩ := hv
    rintro fields' heq
    cases heq
    refine ⟨type, ?_, rfl⟩
    simpa [Rule.isPlain] using hplain
  | _ =>
    rw [hrule] at hplain
    cases hplain

end

/-! ## Nodes of several readings -/

section

variable {S : Survey} {s : Site} {b : Branch} {limit : Int}

/-- A node that tells nothing is drawn from its range if it reads in the order of the grammar. -/
theorem node_drawn (hs : s.Drawn S) {type : Text} {fields : List (String × Value)} (rs : List Reach)
    (hnames : areFieldNames (fields.map Prod.fst) = true) (huntold : type ∉ tellingTypes)
    (hfollow : S.ordered → Reach.follow (grammarOrder s.token.kind) rs = true)
    (h : S.Drawn s.token.stop (rs.flatMap (Reach.reads s)) (recordsOfFields (some type) (namedFields fields))) :
    S.From s.token (nodeOf type s.token fields) := by
  refine nodeOf_drawn hs hnames huntold h (fun hn span hspan => ?_) fun ho => reads_apart hs ho (hfollow ho)
  obtain ⟨r, -, hspan⟩ := List.mem_flatMap.1 hspan
  exact reads_inside hs hn r span hspan

theorem field_drawn (hs : s.Drawn S) (field : String) : AllDrawn S s.token.stop (s.field? field).toList :=
  children_drawn hs (field?_sublist s field).subset

theorem reads_field {field : String} (h : s.field? field = some b) :
    Reach.reads s (.field field) = spansOf [b] := by
  show spansOf (s.field? field).toList = _
  rw [h]
  rfl

/-- A name that stands for two is read twice. -/
theorem twice_drawn (hs : s.Drawn S) (hb : b ∈ s.children) (hleaf : S.ordered → b.kind ∈ leafKinds)
    {type : Text} {near far : String} (hnames : areFieldNames [near, far] = true) (huntold : type ∉ tellingTypes) :
    IfOk (S.From s.token) (do
      let name ← Branch.value b
      let other ← Branch.value b
      pure (nodeOf type s.token [(near, name), (far, other)])) := by
  have hdrawn := child_drawn hs hb
  by_cases ho : S.ordered
  · have hname := leaf_drawn hdrawn (hleaf ho)
    refine hname.bind fun v hv => hname.bind fun w hw => ?_
    refine nodeOf_drawn hs hnames huntold (.field hv.placed (.last hw.placed)) (fun hn => ?_)
      fun _ => by simp [Span.Before]
    obtain ⟨hstart, hstop⟩ := child_inside hs hn hb
    have hwide : (b.token.start : Int) ≤ b.token.stop :=
      Int.ofNat_le.2 (hdrawn.here.lies.nests hn).wide
    have hhead : Span.Inside ⟨b.token.start, b.token.start⟩ s.token.span :=
      ⟨hstart, Int.le_trans hwide hstop⟩
    simp [hhead]
  · have hname := value_drawn hdrawn
    refine hname.bind fun v hv => hname.bind fun w hw => ?_
    refine nodeOf_drawn hs hnames huntold (.field hv.placed (.last hw.placed)) (fun hn => ?_)
      fun h => absurd h ho
    have hin := child_inside hs hn hb
    simp [spansOf, hin]

/-- A specifier of an import or export: a name, and the name that it has on the other side. -/
theorem specifier_drawn (hb : AllDrawn S limit [b])
    (hkind : b.kind = "import_specifier" ∨ b.kind = "export_specifier") {type : Text} {near far : String}
    (hnames : areFieldNames [near, far] = true) (huntold : type ∉ tellingTypes) :
    IfOk (fun v => S.Drawn limit (spansOf [b]) (records none v)) (do
      let name ← valueOf (b.site.field? "name")
      let other ← valueOf (b.site.field? "alias" <|> b.site.field? "name")
      pure (nodeOf type b.token [(near, name), (far, other)])) := by
  have hs := hb.site
  have hname := field_drawn hs "name"
  refine Yields.mono (P := S.From b.token) ?_ fun v hv => Survey.Drawn.within hv hb
  cases hfield : b.site.field? "alias" with
  | some a =>
    have ha := field_drawn hs "alias"
    rw [hfield] at ha
    refine (valueOf_drawn hname).bind fun v hv => (value_drawn ha).bind fun w hw => ?_
    refine node_drawn hs [.field "name", .field "alias"] hnames huntold (fun _ => ?_) ?_
    · rcases hkind with hkind | hkind <;> rw [show b.site.token.kind = _ from hkind] <;> decide
    · refine .field hv.placed (.field ?_ .nil)
      show S.Drawn _ (spansOf (b.site.field? "alias").toList) _
      rw [hfield]
      exact hw.placed
  | none =>
    cases hname : b.site.field? "name" with
    | none =>
      exact node_drawn hs [] hnames huntold (fun _ => rfl)
        (.flat (.flat .nil))
    | some n =>
      have hmem : n ∈ (b.site.field? "name").toList := Option.mem_toList.2 hname
      have hn := (field?_sublist b.site "name").subset hmem
      exact twice_drawn hs hn (fun ho => (hs.lies.inOrder ho).names hkind n.token
        (List.mem_map_of_mem hn) (of_mem_field? hmem)) hnames huntold

theorem clauseSpecifiers_drawn (hb : AllDrawn S limit [b]) :
    IfOk (fun values => S.Drawn limit (spansOf [b]) (recordsOfItems values)) (clauseSpecifiers b) := by
  have hs := hb.site
  have single {type : Text} {v : Value} (huntold : type ∉ tellingTypes) (hv : S.From b.token v) :
      S.Drawn limit (spansOf [b]) (recordsOfItems [nodeOf type b.token [("local", v)]]) := by
    have hnode : S.From b.token (nodeOf type b.token [("local", v)]) :=
      nodeOf_drawn hs rfl huntold (.last hv.placed)
        (by simp [Branch.site, Span.Inside]) (by simp)
    rw [recordsOfItems, Value.recordsOfItems_nil, List.append_nil]
    exact Survey.Drawn.within hnode hb
  unfold clauseSpecifiers
  split
  · exact hb.here.value.bind fun v hv => single (by decide) hv
  · split
    · exact (firstOf_drawn hs).bind fun v hv =>
        single (by decide) (gathered hs hv (first?_sublist b.site))
    · split
      · have hparts := partsOf_sublist b.site "import_specifier"
        have hall := children_drawn hs hparts.subset
        refine (mapM_drawn S _ fun c hc => ?_).mono fun values hvalues =>
          Survey.Drawn.within (gathered hs hvalues hparts) hb
        exact specifier_drawn (hall.singleton hc) (.inl (of_mem_partsOf hc)) rfl (by decide)
      · exact Yields.ok.2 .nil

theorem importSpecifiersOf_drawn (hs : s.Drawn S) :
    IfOk (fun values => S.Drawn s.token.stop (spansOf (s.partsOf "import_clause")) (recordsOfItems values))
      (importSpecifiersOf s) := by
  have hclauses := children_drawn hs (partsOf_sublist s "import_clause").subset
  have hbelow : ∀ b ∈ s.partsOf "import_clause", AllDrawn S s.token.stop b.site.parts := fun b hb c hc => by
    have hc := children_drawn (hclauses.singleton hb).site (parts_sublist b.site).subset c hc
    exact ⟨hc.1, fun hn => Int.le_trans (hc.2 hn) ((hclauses b hb).2 hn)⟩
  have hall : ∀ c ∈ (s.partsOf "import_clause").flatMap fun b => b.site.parts,
      IfOk (fun values => S.Drawn s.token.stop (spansOf [c]) (recordsOfItems values)) (clauseSpecifiers c) := by
    intro c hc
    obtain ⟨b, hb, hc⟩ := List.mem_flatMap.1 hc
    exact clauseSpecifiers_drawn ((hbelow b hb).singleton hc)
  refine (mapM_drawnBy S _ _ recordsOfItems hall).bind fun found hfound => ?_
  refine Yields.pure.2 ?_
  rw [← spansOf_eq, ← Value.recordsOfItems_flatten] at hfound
  exact flatMap_drawn (fun b hb => cuts_children (hclauses.singleton hb).site (parts_sublist b.site)) hfound

theorem jsxOpeningOf_drawn (hs : s.Drawn S)
    (hkind : S.ordered → s.token.kind = "jsx_opening_element" ∨ s.token.kind = "jsx_self_closing_element")
    (selfClosing : Bool) : IfOk (S.From s.token) (jsxOpeningOf s selfClosing) := by
  have hfollow : S.ordered → Reach.follow (grammarOrder s.token.kind)
      [.field "name", .field "type_arguments", .attributes, .nothing] = true := by
    intro ho
    rcases hkind ho with hkind | hkind <;> rw [hkind] <;> decide
  refine (jsxNameOf_drawn (field_drawn hs "name")).bind fun name hname => ?_
  have htypes := field_drawn hs "type_arguments"
  have attributes {typeArguments : List (String × Value)}
      (hnames : areFieldNames (("name" :: typeArguments.map Prod.fst) ++ ["attributes", "selfClosing"]) = true)
      (htype : S.Drawn s.token.stop (spansOf (s.field? "type_arguments").toList)
        (recordsOfFields (some "JSXOpeningElement") (namedFields typeArguments))) :
      IfOk (S.From s.token) (do
        let attributes ← jsxAttributesOf s
        let closing : List (String × Value) :=
          [("attributes", .list attributes), ("selfClosing", .bool selfClosing)]
        pure (nodeOf "JSXOpeningElement" s.token (("name", name) :: typeArguments ++ closing))) := by
    refine (jsxAttributesOf_drawn hs).bind fun attributes hattributes => ?_
    refine node_drawn hs _ (by simpa using hnames) (by decide) hfollow ?_
    refine .field hname.placed ?_
    show S.Drawn _ _ (recordsOfFields _ (namedFields (typeArguments ++ _)))
    rw [namedFields_append, Value.recordsOfFields_append]
    exact htype.append (.field hattributes.list (.flat (p := []) .nil))
  cases htype : s.field? "type_arguments" with
  | none => exact attributes rfl .nil
  | some b =>
    rw [htype] at htypes attributes
    exact (value_drawn htypes).bind fun v hv => attributes rfl (.last hv.placed)

/-! ## Patterns with a type -/

/-- A child around which a node is built comes before the other. -/
theorem alignment (hs : s.Drawn S) (hn : S.nests) {f g : String}
    (hentry : (s.token.kind, Seat.under f, Seat.under g) ∈ alignments) {c : Branch}
    (hb : b ∈ (s.field? f).toList) (hc : c ∈ (s.field? g).toList) : b.token.stop ≤ c.token.start :=
  (hs.lies.nests hn).aligned _ hentry rfl _ (List.mem_map_of_mem ((field?_sublist s f).subset hb)) _
    (List.mem_map_of_mem ((field?_sublist s g).subset hc)) (of_mem_field? hb) (of_mem_field? hc)

/-- Where a type is added to a pattern, the pattern is of a kind that has none. -/
theorem kind_of_typed (hs : s.Drawn S) (ho : S.ordered) {field : String}
    (hseat : (s.token.kind, field) ∈ typedSeats) {t : Branch} (hb : b ∈ (s.field? field).toList)
    (ht : t ∈ (s.field? "type").toList) : b.kind ∈ patternKinds :=
  (hs.lies.inOrder ho).patterns _ hseat rfl _ (List.mem_map_of_mem ((field?_sublist s "type").subset ht))
    (of_mem_field? ht) _ (List.mem_map_of_mem ((field?_sublist s field).subset hb)) (of_mem_field? hb)

theorem reads_typed {field : String} (h : s.field? field = some b) :
    Reach.reads s (.typed field) = spansOf [b] ++ spansOf (s.field? "type").toList := by
  show spansOf ((s.field? field).toList ++ _) = _
  rw [h, spansOf_append]
  rfl

/-- Nothing takes up no type. -/
theorem withType_null (type? : Option Branch) (widen : Bool) : withType .null type? widen = .ok .null := by
  cases type? <;> rfl

/-- A pattern takes up its type. -/
theorem withType_drawn (hs : s.Drawn S) {field : String} (hb : b ∈ (s.field? field).toList)
    (hentry : (s.token.kind, Seat.under field, Seat.under "type") ∈ alignments) {pattern : Value}
    (hpattern : S.From b.token pattern)
    (hnew : S.ordered → (s.field? "type").isSome = true → pattern.field? "typeAnnotation" = none) :
    IfOk (fun v => S.Drawn s.token.stop (Reach.reads s (.typed field)) (records none v))
      (withType pattern (s.field? "type") true) := by
  have hfield : s.field? field = some b := Option.mem_toList.1 hb
  have hn := children_drawn hs (field?_sublist s field).subset
  have ht := field_drawn hs "type"
  have hraised : S.Drawn s.token.stop (spansOf [b]) (records none pattern) :=
    Survey.Drawn.within hpattern (hn.singleton hb)
  rw [reads_typed hfield]
  cases htype : s.field? "type" with
  | none => exact Yields.ok.2 (hraised.weaken (List.sublist_append_left _ _))
  | some t =>
    rw [htype] at ht hnew
    have hmem : t ∈ (s.field? "type").toList := Option.mem_toList.2 htype
    rw [withType]
    split
    · exact Yields.ok.2 (hraised.weaken (List.sublist_append_left _ _))
    · refine ht.here.value.bind fun w hw => ?_
      cases pattern with
      | record fields =>
        refine Survey.Drawn.raise (drawn_typed hpattern hw (fun hn => ⟨alignment hs hn hentry hb hmem, ?_⟩)
          fun ho => hnew ho rfl) fun hn => (ht t (List.mem_singleton_self t)).2 hn
        exact (ht.here.lies.nests hn).wide
      | _ => trivial

/-- A pattern to which a type is added has no type yet. -/
theorem untyped_pattern (hs : s.Drawn S) {field : String} (hseat : (s.token.kind, field) ∈ typedSeats)
    (hb : b ∈ (s.field? field).toList) :
    IfOk (fun v => S.ordered → (s.field? "type").isSome = true → v.field? "typeAnnotation" = none)
      (Branch.value b) := by
  have hdrawn := ((field_drawn hs field).singleton hb).here
  by_cases h : S.ordered ∧ (s.field? "type").isSome = true
  · obtain ⟨ho, hsome⟩ := h
    obtain ⟨t, ht⟩ := Option.isSome_iff_exists.1 hsome
    have hkind := kind_of_typed hs ho hseat hb (Option.mem_toList.2 ht)
    exact (untyped hdrawn hkind).mono fun v hv _ _ => hv
  · exact hdrawn.value.mono fun v _ ho hsome => absurd ⟨ho, hsome⟩ h

/-- The pattern of a declarator takes up its type. -/
theorem binding_drawn (hs : s.Drawn S) (hkind : s.token.kind = "variable_declarator") :
    IfOk (fun v => S.Drawn s.token.stop (Reach.reads s (.typed "name")) (records none v)) (do
      let pattern ← valueOf (s.field? "name")
      withType pattern (s.field? "type") true) := by
  cases hfield : s.field? "name" with
  | none =>
    show IfOk _ (withType .null (s.field? "type") true)
    rw [withType_null]
    exact Yields.ok.2 .nil
  | some b =>
    have hb : b ∈ (s.field? "name").toList := Option.mem_toList.2 hfield
    have hdrawn := ((field_drawn hs "name").singleton hb).here
    refine (hdrawn.value.and (untyped_pattern hs (by rw [hkind]; decide) hb)).bind fun pattern hpattern => ?_
    exact withType_drawn hs hb (by rw [hkind]; decide) hpattern.1 hpattern.2

/-- The parameter of a catch clause takes up its type. -/
theorem caught_drawn (hs : s.Drawn S) (hkind : s.token.kind = "catch_clause") :
    IfOk (fun v => S.Drawn s.token.stop (Reach.reads s (.typed "parameter")) (records (some caughtHolder) v)) (do
      let pattern ← valueOf (s.field? "parameter")
      withType pattern (s.field? "type") false) := by
  cases hfield : s.field? "parameter" with
  | none =>
    show IfOk _ (withType .null (s.field? "type") false)
    rw [withType_null]
    exact Yields.ok.2 .nil
  | some b =>
    have hb : b ∈ (s.field? "parameter").toList := Option.mem_toList.2 hfield
    have hn := (field_drawn hs "parameter").singleton hb
    have ht := field_drawn hs "type"
    rw [reads_typed hfield]
    refine ((value_drawn hn).and (untyped_pattern hs (by rw [hkind]; decide) hb)).bind fun pattern hpattern => ?_
    obtain ⟨hpattern, hnew⟩ := hpattern
    have halone : S.Drawn s.token.stop (spansOf [b] ++ spansOf (s.field? "type").toList)
        (records (some caughtHolder) pattern) := hpattern.placed.weaken (List.sublist_append_left _ _)
    cases htype : s.field? "type" with
    | none =>
      rw [htype] at halone
      exact Yields.ok.2 halone
    | some t =>
      rw [htype] at ht hnew halone
      rw [withType]
      split
      · exact Yields.ok.2 halone
      · refine (value_drawn ht).bind fun w hw => ?_
        cases pattern with
        | record fields => exact drawn_caught hpattern hw fun ho => hnew ho rfl
        | _ => trivial

end

/-- The first part of a child as a type is drawn from the child. -/
theorem typeOfFirst_drawn {S : Survey} {limit : Int} {b : Branch} (hb : AllDrawn S limit [b]) :
    IfOk (fun v => S.Drawn limit (spansOf [b]) (records none v)) (typeOf S.source b.site.first?) :=
  (typeOf_drawn (children_drawn hb.site (first?_sublist b.site).subset)).mono fun _ hv =>
    Survey.Drawn.within (gathered hb.site hv (first?_sublist b.site)) hb

/-! ## Fillers -/

/-- Whether a filler is used where it belongs: in a field that a record may be held by that is no node, or for
    a kind that has what it reads. -/
def Filler.fits (kind : String) (holder : Holder) : Filler → Bool
  | regex => bareHolders.contains holder
  | caught => kind = "catch_clause" && holder = caughtHolder
  | binding => kind = "variable_declarator"
  | jsxSelfOpening => kind = "jsx_self_closing_element"
  | _ => true

/-- What a filler may leave in a field, drawn from what it reads. -/
def Survey.Leaves (S : Survey) (limit : Int) (spans : List Span) (holder : Holder) (v? : Option Value) : Prop :=
  ∀ v, v? = some v → S.Drawn limit spans (records (some holder) v)

section

variable {S : Survey} {s : Site} {limit : Int} {p : List Span} {holder : Holder}

theorem leaves_none : S.Leaves limit p holder none := fun _ h => by cases h

theorem leaves_scalar (c : Scalar) : S.Leaves limit p holder (some (.scalar c)) := by
  intro v hv
  cases hv
  exact .nil

theorem leaves_value {x : Except Fault Value} (hx : IfOk (fun v => S.Drawn limit p (records none v)) x) :
    IfOk (S.Leaves limit p holder) (some <$> x) := by
  refine hx.map fun v hv w hw => ?_
  cases hw
  exact hv.placed

theorem leaves_list {x : Except Fault (List Value)}
    (hx : IfOk (fun values => S.Drawn limit p (recordsOfItems values)) x) :
    IfOk (S.Leaves limit p holder) ((some ∘ Value.list) <$> x) := by
  refine hx.map fun v hv w hw => ?_
  cases hw
  exact hv.list

/-- The parts of the child under a field are drawn from the child. -/
theorem allWithin_drawn (hs : s.Drawn S) (field : String) :
    IfOk (S.Leaves s.token.stop (Reach.reads s (.field field)) holder)
      ((Filler.allWithin field).fill S.source s) := by
  have hfield := field_drawn hs field
  show IfOk (S.Leaves _ (spansOf (s.field? field).toList) _) _
  rw [Filler.fill]
  cases hb : s.field? field with
  | none => exact leaves_list (x := .ok []) (Yields.ok.2 .nil)
  | some b =>
    rw [hb] at hfield
    exact leaves_list (partsWithin_drawn hfield)

/-- Every filler leaves what is drawn from what it reads. -/
theorem fill_drawn (hs : s.Drawn S) {filler : Filler} (hfits : filler.fits s.token.kind holder = true) :
    IfOk (S.Leaves s.token.stop (filler.reach.reads s) holder) (filler.fill S.source s) := by
  cases filler with
  | constant c => exact leaves_scalar c
  | nothing => exact leaves_list (x := .ok []) (Yields.ok.2 .nil)
  | source => exact leaves_scalar _
  | identifier => exact leaves_value (x := .ok _) (Yields.ok.2 (identifierOf_drawn s.token))
  | child field => exact leaves_value (valueOf_drawn (field_drawn hs field))
  | childIfAny field =>
    have hfield := field_drawn hs field
    show IfOk (S.Leaves _ (spansOf (s.field? field).toList) _) _
    simp only [Filler.fill]
    cases hb : s.field? field with
    | none => exact leaves_none
    | some b =>
      rw [hb] at hfield
      exact leaves_value (value_drawn hfield)
  | dropped field => exact (valueOf_drawn (field_drawn hs field)).bind fun _ _ => leaves_none
  | first => exact leaves_value (firstOf_drawn hs)
  | lastOfMany => exact leaves_value (valueOf_drawn (children_drawn hs (lastOfMany_sublist s).subset))
  | sequence => exact leaves_value (expressionOf_drawn hs)
  | all => exact leaves_list (valuesOf_drawn (children_drawn hs (parts_sublist s).subset))
  | allOf kind => exact leaves_list (valuesOf_drawn (children_drawn hs (partsOf_sublist s kind).subset))
  | allUnder field => exact leaves_list (valuesOf_drawn (children_drawn hs (fieldAll_sublist s field).subset))
  | allWithin field => exact allWithin_drawn hs field
  | elements =>
    exact leaves_list (elementsOf_drawn (children_drawn hs (List.Subset.refl _)) false)
  | members => exact leaves_list (membersOf_drawn (children_drawn hs (parts_sublist s).subset))
  | token t => exact leaves_scalar _
  | tokenBefore t field => exact leaves_scalar _
  | operator => exact leaves_scalar _
  | operatorFirst => exact leaves_scalar _
  | declarationWord =>
    simp only [Filler.fill]
    split
    · exact leaves_scalar _
    · exact leaves_scalar _
    · trivial
  | binding =>
    show IfOk _ (valueOf (s.field? "name") >>= fun pattern => some <$> withType pattern (s.field? "type") true)
    rw [← map_bind]
    exact leaves_value (binding_drawn hs (of_decide_eq_true hfits))
  | caught =>
    simp only [Filler.fits, Bool.and_eq_true, decide_eq_true_eq] at hfits
    obtain ⟨hkind, rfl⟩ := hfits
    show IfOk _
      (valueOf (s.field? "parameter") >>= fun pattern => some <$> withType pattern (s.field? "type") false)
    rw [← map_bind]
    refine (caught_drawn hs hkind).map fun v hv w hw => ?_
    cases hw
    exact hv
  | clause field => exact leaves_value (clauseOf_drawn (field_drawn hs field))
  | params fields =>
    exact leaves_list (paramsOf_drawn (children_drawn hs (firstField_sublist fields).subset))
  | expressionBody => exact leaves_scalar _
  | computed field => exact leaves_scalar _
  | key field => exact leaves_value (keyOf_drawn (field_drawn hs field))
  | arguments => exact allWithin_drawn hs "arguments"
  | number => exact leaves_scalar _
  | bigint =>
    simp only [Filler.fill]
    split
    · exact leaves_scalar _
    · exact leaves_none
  | string =>
    simp only [Filler.fill]
    cases Literal.unescape (((s.token.text S.source).dropLast 1).drop 1) with
    | error f => trivial
    | ok body => exact leaves_scalar _
  | regex =>
    -- the pattern and the flags lie in a record that is no node
    intro v hv
    cases hv
    exact drawn_bare (List.contains_iff_mem.1 hfits) rfl rfl rfl
  | privateName => exact leaves_scalar _
  | decorators => exact leaves_list (decoratorsOf_drawn hs)
  | superClass =>
    refine (heritageOf_drawn hs).bind fun found hfound v hv => ?_
    cases hv
    exact hfound.1.placed
  | implements =>
    refine (heritageOf_drawn hs).bind fun found hfound => ?_
    obtain ⟨base, implemented⟩ := found
    show S.Leaves _ _ _ (if implemented.isEmpty then none else some (.list implemented))
    split
    · exact leaves_none
    · intro v hv
      cases hv
      exact hfound.2.list
  | importKind => exact leaves_scalar _
  | importSpecifiers => exact leaves_list (importSpecifiersOf_drawn hs)
  | jsxName field => exact leaves_value (jsxNameOf_drawn (field_drawn hs field))
  | jsxAttributeName => exact leaves_value (jsxNameOf_drawn (children_drawn hs (first?_sublist s).subset))
  | jsxAttributes => exact leaves_list (jsxAttributesOf_drawn hs)
  | jsxSelfOpening =>
    exact leaves_value (jsxOpeningOf_drawn hs (fun _ => .inr (of_decide_eq_true hfits)) true)
  | typeAt position =>
    exact leaves_value (typeOf_drawn (children_drawn hs (nth_sublist s position).subset))
  | types =>
    have hparts := children_drawn hs (parts_sublist s).subset
    refine leaves_list (mapM_drawn S _ fun b hb => ?_)
    have hpart : AllDrawn S s.token.stop (some b).toList := hparts.singleton hb
    exact typeOf_drawn hpart
  | typeWithin field =>
    have hfield := field_drawn hs field
    show IfOk (S.Leaves _ (spansOf (s.field? field).toList) _) _
    simp only [Filler.fill]
    cases hb : s.field? field with
    | none => exact leaves_scalar _
    | some b =>
      rw [hb] at hfield
      exact leaves_value (typeOfFirst_drawn hfield)

/-- The fillers of a node leave what is drawn from what they read. -/
theorem filled_drawn (hs : s.Drawn S) {type : String} {fields : List (String × Filler)}
    {filled : List (String × Value)} (h : Filled S.source s fields filled)
    (hfits : ∀ f ∈ fields, f.2.fits s.token.kind ⟨type, .text f.1⟩ = true) :
    S.Drawn s.token.stop ((fields.map fun f => f.2.reach).flatMap (Reach.reads s))
      (recordsOfFields (some (type : Text)) (namedFields filled)) := by
  induction h with
  | nil => exact .nil
  | skip fill_eq more ih =>
    obtain ⟨-, hrest⟩ := List.forall_mem_cons.1 hfits
    exact (ih hrest).weaken (List.sublist_append_right _ _)
  | keep fill_eq more ih =>
    obtain ⟨hfirst, hrest⟩ := List.forall_mem_cons.1 hfits
    have hleaves := fill_drawn hs hfirst
    rw [fill_eq] at hleaves
    exact .field (hleaves _ rfl) (ih hrest)

end

end Arbor.Lowering
