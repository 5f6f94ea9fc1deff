import Arbor.Proofs.Lowering.Filling
import Arbor.Proofs.Lowering.Rules

set_option autoImplicit false

/-! # What expressions leave

Expressions and methods whose rule is no list of fillers leave what is drawn from their range. -/

namespace Arbor

/-- Each byte completes one character at most. -/
theorem Utf8.length_decodeFrom_le (state : Utf8.State) (bytes : List UInt8) :
    (Utf8.decodeFrom state bytes).length ≤ bytes.length := by
  induction bytes generalizing state with
  | nil => exact Nat.le_refl 0
  | cons b rest ih =>
    rw [decodeFrom]
    split
    · exact Nat.succ_le_succ (ih _)
    · exact Nat.le_succ_of_le (ih _)

/-- A stretch of a source has no more characters than bytes. -/
theorem Source.length_slice_le (source : Source) (start stop : Nat) :
    (source.slice start stop).length ≤ stop - start := by
  refine Nat.le_trans (Utf8.length_decodeFrom_le .between _) ?_
  simp only [Array.length_toList, Array.size_extract]
  omega

theorem Text.length_trim_le (drop : CodePoint → Bool) (t : Text) : (t.trim drop).length ≤ t.length := by
  have hfront := (List.dropWhile_sublist (l := t.points) drop).length_le
  have hback := (List.dropWhile_sublist (l := (t.points.dropWhile drop).reverse) drop).length_le
  rw [List.length_reverse] at hback
  rw [Text.length, Text.trim, List.length_reverse]
  exact Nat.le_trans hback hfront

namespace Lowering

open Value (nodeFields headKeys Apart typeOf? startOf? rangeOf? records recordsOfItems recordsOfFields)

section

variable {S : Survey} {s : Site} {b : Branch} {b? : Option Branch} {branches : List Branch} {limit : Int}

/-! ## Templates -/

/-- A stretch of literal text inside a token is drawn from the token. -/
theorem templateElement_drawn {t : Token} {start stop : Nat} (tail : Bool)
    (hin : S.nests → t.start ≤ start ∧ start ≤ t.stop ∧ stop ≤ t.stop) :
    IfOk (S.From t) (templateElement S.source start stop tail) := by
  refine (ifOk_true (Literal.unescape (S.source.slice start stop))).bind fun cooked _ => ?_
  have hspelled (rest : List (Key × Value)) : Spells S.source (nodeFields "TemplateElement" start stop
      ((.text "value", .record ((.text "raw", .text (S.source.slice start stop)) :: rest)) ::
        [(.text "tail", .bool tail)])) := by
    intro text? htext
    cases htext
    exact ⟨start, stop, rfl, rfl⟩
  have hfields : S.Drawn t.stop [t.span] (recordsOfFields (some "TemplateElement") (namedFields [
      ("value", .record [(.text "raw", .text (S.source.slice start stop)), (.text "cooked", .text cooked)]),
      ("tail", .bool tail)])) :=
    .field (p := [t.span]) (drawn_bare (by decide) rfl rfl rfl) (.flat .nil)
  refine Yields.pure.2 (hfields.cons (.node (apart_namedFields rfl) (.inr (.inr (.inr (hspelled _))))
    fun _ f hf _ o ho range hrange => ?_) rfl (fun hn => Int.ofNat_le.2 (hin hn).2.2)
    (fun hn => ⟨_, List.mem_singleton_self _, Int.ofNat_le.2 (hin hn).1, Int.ofNat_le.2 (hin hn).2.1⟩)
    fun _ _ n hn => ?_)
  · -- the literal text itself has no range
    obtain ⟨o', ho', heq⟩ := Value.fields_mem_recordsOfFields (some "TemplateElement") hf ho
    rw [← heq] at hrange
    have hmem := mem_starts.2 ⟨o', ho', Value.startOf?_of_rangeOf? hrange⟩
    exact absurd (show range.start ∈ [] from hmem) List.not_mem_nil
  · exact absurd (show n ∈ [] from hn) List.not_mem_nil

/-- Without expressions a template is one stretch of literal text. -/
theorem templateParts_unbroken (source : Source) (start stop : Nat)
    (h : ∀ b ∈ branches, b.kind ≠ "template_substitution") :
    templateParts source start stop branches = (do
      pure ([← templateElement source start (max start stop) true], [])) := by
  induction branches with
  | nil => rfl
  | cons b rest ih =>
    obtain ⟨hb, hrest⟩ := List.forall_mem_cons.1 h
    rw [templateParts, if_neg hb, ih hrest]

/-- Where no order is asked for, literal text and expressions are drawn from the template. -/
theorem templateParts_drawn (hs : s.Drawn S) (hno : ¬ S.ordered) (hsub : branches ⊆ s.children) {start stop : Nat}
    (hin : S.nests → s.token.start ≤ start ∧ start ≤ s.token.stop ∧ stop ≤ s.token.stop) :
    IfOk (fun found => S.Drawn s.token.stop [s.token.span] (recordsOfItems found.1) ∧
        S.Drawn s.token.stop [s.token.span] (recordsOfItems found.2))
      (templateParts S.source start stop branches) := by
  have both {v : Value} {values : List Value} (hv : S.Drawn s.token.stop [s.token.span] (records none v))
      (h : S.Drawn s.token.stop [s.token.span] (recordsOfItems values)) :
      S.Drawn s.token.stop [s.token.span] (recordsOfItems (v :: values)) :=
    (hv.append h).coarsen (fun _ a ha => ⟨a, by simpa using ha, Int.le_refl _, Int.le_refl _⟩)
      fun ho => absurd ho hno
  induction branches generalizing start with
  | nil =>
    refine (templateElement_drawn true fun hn => ?_).bind fun last hlast => Yields.pure.2 ⟨both hlast .nil, .nil⟩
    obtain ⟨h, h', h''⟩ := hin hn
    exact ⟨h, h', Nat.max_le.2 ⟨h', h''⟩⟩
  | cons b rest ih =>
    obtain ⟨hb, hrest⟩ := List.cons_subset.1 hsub
    rw [templateParts]
    split
    · have hdrawn := child_drawn hs hb
      have hchild (hn : S.nests) := (hs.lies.nests hn).inside _ (List.mem_map_of_mem hb)
      have hwide (hn : S.nests) := (hdrawn.here.lies.nests hn).wide
      refine (templateElement_drawn false fun hn => ⟨(hin hn).1, (hin hn).2.1, ?_⟩).bind fun quasi hquasi => ?_
      · exact Nat.le_trans (hwide hn) (hchild hn).2
      · refine (expressionWithin_drawn hdrawn).bind fun expression hexpression => ?_
        refine (ih hrest fun hn => ⟨?_, (hchild hn).2, (hin hn).2.2⟩).bind fun found hfound => ?_
        · exact Nat.le_trans (hchild hn).1 (hwide hn)
        · refine ⟨both hquasi hfound.1, ?_⟩
          dsimp only
          split
          · exact hfound.2
          · exact both (hexpression.gather (spans_inside hs (List.cons_subset.2 ⟨hb, List.nil_subset _⟩))
              fun ho => absurd ho hno) hfound.2
    · exact ih hrest hin

theorem templateLiteral_drawn (hs : s.Drawn S) (hkind : s.token.kind = "template_string") :
    IfOk (S.From s.token) (templateLiteral S.source s) := by
  have hstart : S.nests → s.token.start < s.token.stop :=
    fun hn => (hs.lies.nests hn).delimited (by rw [hkind]; decide)
  have hin : S.nests → s.token.start ≤ s.token.start + 1 ∧ s.token.start + 1 ≤ s.token.stop ∧
      s.token.stop - 1 ≤ s.token.stop :=
    fun hn => ⟨Nat.le_succ _, hstart hn, Nat.sub_le _ _⟩
  have literal {quasis expressions : List Value} {p q : List Span}
      (hquasis : S.Drawn s.token.stop p (recordsOfItems quasis))
      (hexpressions : S.Drawn s.token.stop q (recordsOfItems expressions))
      (hspans : ∀ span ∈ p ++ q, span = s.token.span) (hord : S.ordered → (p ++ q).Pairwise Span.Before) :
      S.From s.token (nodeOf "TemplateLiteral" s.token
        [("quasis", .list quasis), ("expressions", .list expressions)]) := by
    refine nodeOf_drawn hs rfl (by decide) (.field hquasis.list (.last hexpressions.list))
      (fun _ span hspan => ?_) hord
    rw [hspans span hspan]
    exact ⟨Int.le_refl _, Int.le_refl _⟩
  unfold templateLiteral
  by_cases ho : S.ordered
  · have hunbroken : ∀ b ∈ s.children, b.kind ≠ "template_substitution" := fun b hb =>
      (hs.lies.inOrder ho).unbroken hkind _ (List.mem_map_of_mem hb)
    rw [templateParts_unbroken _ _ _ hunbroken]
    refine Yields.bind (P := fun found => S.Drawn s.token.stop [s.token.span] (recordsOfItems found.1) ∧
      found.2 = []) ?_ fun found hfound => ?_
    · refine (templateElement_drawn (t := s.token) true fun hn => ?_).bind
        fun last hlast => Yields.pure.2 ⟨?_, rfl⟩
      · obtain ⟨h, h', h''⟩ := hin hn
        exact ⟨h, h', Nat.max_le.2 ⟨h', h''⟩⟩
      · rw [recordsOfItems, Value.recordsOfItems_nil, List.append_nil]
        exact hlast
    · obtain ⟨quasis, expressions⟩ := found
      obtain ⟨hquasis, rfl⟩ := hfound
      exact literal hquasis (q := []) .nil (by simp) (by simp)
  · refine (templateParts_drawn hs ho (List.Subset.refl _) hin).bind fun found hfound => ?_
    exact literal hfound.1 hfound.2 (by simp) fun h => absurd h ho

/-! ## Sequences and operators -/

/-- The expressions of a sequence lie in it one after another, however deep they are nested. -/
theorem sequenceLeaves_drawn (h : b.Everywhere (Branch.Drawn S)) :
    (∀ leaf ∈ sequenceLeaves b, leaf.Everywhere (Branch.Drawn S)) ∧
      S.Cuts b.token.span (sequenceLeaves b) := by
  induction b using Tree.induction with
  | node t reading children ih =>
    rw [sequenceLeaves]
    split
    · have hchild : ∀ c ∈ children.filter Tree.isPart, c ∈ children := fun c => List.mem_of_mem_filter
      have hs : Site.Drawn S ⟨t, children⟩ := ⟨fun c hc => h.child hc, h.here.lies⟩
      rw [sequenceLeavesAll_eq]
      refine ⟨fun leaf hleaf => ?_, ?_⟩
      · obtain ⟨c, hc, hleaf⟩ := List.mem_flatMap.1 hleaf
        exact (ih c (hchild c hc) (h.child (hchild c hc))).1 leaf hleaf
      · exact (cuts_children hs (parts_sublist _)).flatMap fun c hc =>
          (ih c (hchild c hc) (h.child (hchild c hc))).2
    · refine ⟨List.forall_mem_singleton.2 h, fun _ => List.forall_mem_singleton.2 ⟨Int.le_refl _, Int.le_refl _⟩,
        fun _ => List.pairwise_singleton _ _⟩

theorem flatSequence_drawn (hs : s.Drawn S) : IfOk (S.From s.token) (flatSequence s) := by
  have hparts := children_drawn hs (parts_sublist s).subset
  have hleaves : AllDrawn S s.token.stop (s.parts.flatMap sequenceLeaves) := by
    intro leaf hleaf
    obtain ⟨c, hc, hleaf⟩ := List.mem_flatMap.1 hleaf
    obtain ⟨hdrawn, hcuts⟩ := sequenceLeaves_drawn (hparts c hc).1
    exact ⟨hdrawn leaf hleaf, fun hn =>
      Int.le_trans (hcuts.inside hn _ (List.mem_map_of_mem hleaf)).2 ((hparts c hc).2 hn)⟩
  unfold flatSequence
  rw [sequenceLeavesAll_eq]
  refine (valuesOf_drawn hleaves).bind fun values hvalues => ?_
  have hdrawn := flatMap_drawn (fun c hc => (sequenceLeaves_drawn (hparts c hc).1).2) hvalues
  exact node_drawn hs [.parts] rfl (by decide) (fun _ => rfl) (.field hdrawn.list .nil)

theorem binaryExpression_drawn (hs : s.Drawn S) (hkind : s.token.kind = "binary_expression") :
    IfOk (S.From s.token) (binaryExpression S.source s) := by
  refine (valueOf_drawn (field_drawn hs "left")).bind fun left hleft => ?_
  refine (valueOf_drawn (field_drawn hs "right")).bind fun right hright => ?_
  refine node_drawn hs [.field "left", .field "right"] rfl ?_ (fun _ => by rw [hkind]; decide)
    (.flat (.field hleft.placed (.field hright.placed .nil)))
  split <;> decide

/-! ## Chains -/

theorem linkBelow_drawn (h : AllDrawn S limit b?.toList) :
    IfOk (fun found => S.Drawn limit (spansOf b?.toList) (records none found.1)) (linkBelow b?) := by
  cases b? with
  | none => exact .nil
  | some b => exact h.here.link.mono fun _ hv => Survey.Drawn.within hv h

theorem argumentsOf_drawn (h : AllDrawn S limit b?.toList) :
    IfOk (fun values => S.Drawn limit (spansOf b?.toList) (recordsOfItems values)) (argumentsOf b?) := by
  cases b? with
  | none => exact .nil
  | some b => exact partsWithin_drawn h

/-- The first two of several values hold no more than all of them. -/
theorem recordsOfItems_two (items : List Value) :
    (recordsOfItems [items[0]?.getD .null, items[1]?.getD .null]).Sublist (recordsOfItems items) := by
  rcases items with _ | ⟨v, _ | ⟨w, rest⟩⟩ <;> simp [recordsOfItems]

theorem callLink_drawn (hs : s.Drawn S) (hkind : S.ordered → s.token.kind = "call_expression") (optional : Bool) :
    IfOk (fun found => S.From s.token found.1) (callLink s optional) := by
  have hcallee := field_drawn hs "function"
  have htypes := field_drawn hs "type_arguments"
  have harguments := field_drawn hs "arguments"
  have hfollow (rs : List Reach) (h : Reach.follow (grammarOrder "call_expression") rs = true) :
      S.ordered → Reach.follow (grammarOrder s.token.kind) rs = true := fun ho => by rwa [hkind ho]
  have call {callee : Value} (h : S.Drawn s.token.stop (Reach.reads s (.field "function")) (records none callee))
      (inChain : Bool) {typeArguments : List (String × Value)}
      (hnames : areFieldNames (("callee" :: typeArguments.map Prod.fst) ++ ["arguments", "optional"]) = true)
      (htype : S.Drawn s.token.stop (Reach.reads s (.field "type_arguments"))
        (recordsOfFields (some "CallExpression") (namedFields typeArguments))) :
      IfOk (fun found => S.From s.token found.1) (do
        let arguments ← argumentsOf (s.field? "arguments")
        let fields := ("callee", callee) :: typeArguments ++
          [("arguments", .list arguments), ("optional", .bool optional)]
        pure (nodeOf "CallExpression" s.token fields, optional || inChain)) := by
    refine (argumentsOf_drawn harguments).bind fun arguments harguments => ?_
    refine node_drawn hs [.field "function", .field "type_arguments", .field "arguments"]
      (by simpa using hnames) (by decide) (hfollow _ (by decide)) (.field h.placed ?_)
    show S.Drawn _ _ (recordsOfFields _ (namedFields (typeArguments ++ _)))
    rw [namedFields_append, Value.recordsOfFields_append]
    exact htype.append (.field harguments.list (.flat (p := []) .nil))
  unfold callLink
  dsimp only
  split
  · next template h =>
    obtain ⟨hfield, -⟩ := Option.filter_eq_some_iff.1 h
    rw [hfield] at harguments
    refine (valueOf_drawn hcallee).bind fun tag htag => (value_drawn harguments).bind fun quasi hquasi => ?_
    refine node_drawn hs [.field "function", .field "arguments"] rfl (by decide) (hfollow _ (by decide))
      (.field htag.placed (.field ?_ .nil))
    rw [reads_field hfield]
    exact hquasi.placed
  · split
    · refine (argumentsOf_drawn harguments).bind fun arguments harguments => ?_
      refine node_drawn hs [.field "arguments"] rfl (by decide) (hfollow _ (by decide)) ?_
      rw [List.flatMap_singleton]
      exact Survey.Drawn.placedIn (harguments.sublist (recordsOfItems_two arguments))
    · refine (linkBelow_drawn hcallee).bind fun found hfound => ?_
      cases htype : s.field? "type_arguments" with
      | none => exact call hfound found.2 rfl .nil
      | some b =>
        rw [htype] at htypes
        rw [reads_field htype] at call
        exact (value_drawn htypes).bind fun v hv => call hfound found.2 rfl (.last hv.placed)

theorem memberLink_drawn (hs : s.Drawn S)
    (hkind : S.ordered → s.token.kind = "member_expression" ∨ s.token.kind = "subscript_expression")
    (optional : Bool) : IfOk (fun found => S.From s.token found.1) (memberLink s optional) := by
  refine (linkBelow_drawn (field_drawn hs "object")).bind fun found hfound => ?_
  refine (valueOf_drawn (field_drawn hs _)).bind fun property hproperty => ?_
  refine node_drawn hs [.field "object", .field _] rfl (by decide) (fun ho => ?_)
    (.field hfound.placed (.field hproperty.placed (.flat (.flat .nil))))
  rcases hkind ho with hkind | hkind <;> rw [hkind] <;> decide

theorem linkOf_drawn (hs : s.Drawn S) (hkind : isLink s.token.kind = true) :
    IfOk (fun found => S.From s.token found.1) (linkOf s) := by
  unfold linkOf
  dsimp only
  split
  · next hcall => exact callLink_drawn hs (fun _ => hcall) _
  · next hcall =>
    refine memberLink_drawn hs (fun _ => ?_) _
    simpa [isLink, hcall] using hkind

theorem chainOf_drawn (hs : s.Drawn S) (hkind : isLink s.token.kind = true) :
    IfOk (S.From s.token) (chainOf s) := by
  refine (linkOf_drawn hs hkind).bind fun found hfound => ?_
  obtain ⟨node, inChain⟩ := found
  cases inChain with
  | false => exact Yields.pure.2 hfound
  | true =>
    exact Yields.pure.2 (node_drawn hs [.whole] rfl (by decide) (fun _ => rfl) (.field hfound.placed .nil))

/-! ## Meta properties -/

/-- A name of a meta property is told without its range. -/
theorem metaName_drawn {holder : Holder} (hmem : holder ∈ metaHolders) {start stop : Int} (name : Text)
    (hstop : S.nests → stop ≤ limit) :
    S.Drawn limit [⟨start, start⟩]
      (records (some holder) (nodeAt "Identifier" start stop [("name", .text name)])) := by
  have hspelled : S.Spelled (some holder) (nodeFields "Identifier" start stop (namedFields [("name", .text name)])) :=
    .inr (.inl ⟨"Identifier", by decide, rfl, holder, hmem, rfl⟩)
  refine Survey.Drawn.raise ?_ hstop
  exact drawn_node (p := []) (apart_namedFields rfl) hspelled .nil (fun _ => ⟨Int.le_refl _, by simp⟩) (by simp)

theorem metaProperty_drawn (hs : s.Drawn S) : S.From s.token (metaProperty S.source s) := by
  have hwide := site_wide hs
  have hshort {points : List CodePoint} (h : points.Sublist (s.token.text S.source).points) (hn : S.nests) :
      ((Text.trim CodePoint.isBlank ⟨points⟩).length : Int) ≤ s.token.stop - s.token.start := by
    have hle : (Text.trim CodePoint.isBlank ⟨points⟩).length ≤ s.token.stop - s.token.start :=
      Nat.le_trans (Text.length_trim_le _ _) (Nat.le_trans h.length_le (S.source.length_slice_le _ _))
    have hwide := hwide hn
    omega
  have hbefore := hshort (List.takeWhile_sublist fun c => !decide (c = ('.' : CodePoint)))
  have hafter := hshort ((List.drop_sublist 1 _).trans
    (List.dropWhile_sublist fun c => !decide (c = ('.' : CodePoint))))
  refine nodeOf_drawn hs rfl (by decide)
    (.field (metaName_drawn (by decide) _ fun hn => ?_) (.last (metaName_drawn (by decide) _ fun _ => Int.le_refl _)))
    (fun hn => ?_) fun ho => ?_
  · exact Int.add_le_of_le_sub_left (hbefore hn)
  · have := hafter hn
    have := hwide hn
    simp only [List.cons_append, List.nil_append, List.forall_mem_cons, Span.Inside, Token.span]
    refine ⟨⟨Int.le_refl _, this⟩, ⟨?_, ?_⟩, by simp⟩ <;> omega
  · have := hafter (S.nests_of_ordered ho)
    simp only [List.cons_append, List.nil_append, List.pairwise_cons, Span.Before]
    refine ⟨List.forall_mem_singleton.2 ?_, by simp⟩
    show (s.token.start : Int) ≤ s.token.stop - _
    omega

/-! ## Methods -/

/-- Where the function of a method starts. -/
def methodStart (s : Site) : Int :=
  let start : Int := match s.field? "parameters" with
    | some b => b.token.start
    | none => s.token.start
  match s.field? "type_parameters" with
  | some b => min start b.token.start
  | none => start

/-- The function of a method starts at its parameters or type parameters, if it has any. -/
theorem methodStart_cases (s : Site) :
    (∃ field ∈ ["parameters", "type_parameters"], ∃ b ∈ (s.field? field).toList, methodStart s = b.token.start) ∨
      (s.field? "parameters" = none ∧ methodStart s = s.token.start) := by
  unfold methodStart
  cases hparams : s.field? "parameters" <;> cases htypes : s.field? "type_parameters" <;> dsimp only
  · exact .inr ⟨rfl, rfl⟩
  · next t =>
    rcases Int.le_total s.token.start t.token.start with hle | hle
    · exact .inr ⟨rfl, Int.min_eq_left hle⟩
    · exact .inl ⟨"type_parameters", by simp, t, by simp [htypes], Int.min_eq_right hle⟩
  · next b => exact .inl ⟨_, List.mem_cons_self .., b, by simp [hparams], rfl⟩
  · next b t =>
    rcases Int.le_total b.token.start t.token.start with hle | hle
    · exact .inl ⟨_, List.mem_cons_self .., b, by simp [hparams], Int.min_eq_left hle⟩
    · exact .inl ⟨"type_parameters", by simp, t, by simp [htypes], Int.min_eq_right hle⟩

theorem methodStart_le {field : String} (hfield : field ∈ ["parameters", "type_parameters"])
    (hb : b ∈ (s.field? field).toList) : methodStart s ≤ b.token.start := by
  have hb := Option.mem_toList.1 hb
  unfold methodStart
  simp only [List.mem_cons, List.not_mem_nil, or_false] at hfield
  rcases hfield with rfl | rfl <;> rw [hb]
  · cases s.field? "type_parameters" with
    | none => exact Int.le_refl _
    | some t => exact Int.min_le_left _ _
  · exact Int.min_le_right _ _

theorem methodStart_le_start (h : s.field? "parameters" = none) : methodStart s ≤ s.token.start := by
  unfold methodStart
  rw [h]
  cases s.field? "type_parameters" with
  | none => exact Int.le_refl _
  | some t => exact Int.min_le_left _ _

/-- The fields of the function of a method. -/
def methodFields : List (String × Filler) := [
  ("id", .constant .null), ("async", .token "async"), ("generator", .token "*"),
  ("typeParameters", .childIfAny "type_parameters"), ("params", .params ["parameters"]),
  ("returnType", .childIfAny "return_type"), ("body", .child "body"),
  ("expression", .constant (.bool false))]

theorem methodValue_eq (source : Source) (s : Site) :
    methodValue source s = (fillAll source s methodFields >>= fun fields =>
      pure (nodeAt "FunctionExpression" (methodStart s) s.token.stop fields)) := rfl

/-- The ranges of the decorators, the name and the function of a method. -/
def methodSpans (s : Site) : List Span :=
  [Reach.decorators, .field "name"].flatMap (Reach.reads s) ++ [⟨methodStart s, s.token.stop⟩]

section

variable (hs : s.Drawn S) (hkind : s.token.kind = "method_definition")

include hs hkind

/-- The result type and the body of a method come after its parameters. -/
theorem methodStart_before (hn : S.nests) {field : String} (hfield : field ∈ ["return_type", "body"])
    (hb : b ∈ (s.field? field).toList) : methodStart s ≤ b.token.start := by
  cases hparams : s.field? "parameters" with
  | none =>
    have hchild := child_inside hs hn ((field?_sublist s field).subset hb)
    exact Int.le_trans (methodStart_le_start hparams) hchild.1
  | some params =>
    have hmem : params ∈ (s.field? "parameters").toList := Option.mem_toList.2 hparams
    have hwide := (((field_drawn hs "parameters").singleton hmem).here.lies.nests hn).wide
    have hbefore : params.token.stop ≤ b.token.start := by
      simp only [List.mem_cons, List.not_mem_nil, or_false] at hfield
      rcases hfield with rfl | rfl
      · exact alignment hs hn (by rw [hkind]; decide) hmem hb
      · exact alignment hs hn (by rw [hkind]; decide) hmem hb
    exact Int.le_trans (methodStart_le (List.mem_cons_self ..) hmem) (Int.ofNat_le.2 (Nat.le_trans hwide hbefore))

theorem methodValue_drawn :
    IfOk (fun v => S.Drawn s.token.stop [⟨methodStart s, s.token.stop⟩] (records none v))
      (methodValue S.source s) := by
  have hfits : ∀ f ∈ methodFields, f.2.fits s.token.kind ⟨"FunctionExpression", .text f.1⟩ = true := by
    simp [methodFields, Filler.fits]
  have hfollow : Reach.follow (grammarOrder s.token.kind) (methodFields.map fun f => f.2.reach) = true := by
    rw [hkind]
    decide
  have hafter (hn : S.nests) : ∀ r ∈ methodFields.map (fun f => f.2.reach), ∀ a ∈ r.reads s,
      methodStart s ≤ a.start := by
    have below {b? : Option Branch} (h : ∀ b ∈ b?.toList, methodStart s ≤ b.token.start) :
        ∀ a ∈ spansOf b?.toList, methodStart s ≤ a.start := List.forall_mem_map.2 h
    have hparams : ["parameters"].findSome? s.field? = s.field? "parameters" := by
      cases h : s.field? "parameters" <;> simp [h]
    simp only [methodFields, List.map_cons, List.map_nil, Filler.reach, List.forall_mem_cons]
    refine ⟨by simp [Reach.reads, Reach.picks, spansOf], by simp [Reach.reads, Reach.picks, spansOf],
      by simp [Reach.reads, Reach.picks, spansOf], below fun b hb => methodStart_le (by simp) hb, ?_,
      below fun b hb => methodStart_before hs hkind hn (by simp) hb,
      below fun b hb => methodStart_before hs hkind hn (by simp) hb,
      by simp [Reach.reads, Reach.picks, spansOf], by simp⟩
    show ∀ a ∈ spansOf (["parameters"].findSome? s.field?).toList, _
    rw [hparams]
    exact below fun b hb => methodStart_le (by simp) hb
  have hstart (hn : S.nests) : methodStart s ≤ s.token.stop := by
    rcases methodStart_cases s with ⟨field, -, b, hb, heq⟩ | ⟨-, heq⟩ <;> rw [heq]
    · have hwide := (((field_drawn hs field).singleton hb).here.lies.nests hn).wide
      exact Int.le_trans (Int.ofNat_le.2 hwide) (child_inside hs hn ((field?_sublist s field).subset hb)).2
    · exact site_wide hs hn
  rw [methodValue_eq]
  refine (fillAll_filled S.source s methodFields).bind fun filled hfilled => Yields.pure.2 ?_
  refine drawn_node (apart_namedFields (areFieldNames_sublist hfilled.names rfl))
    (spelled_of_untold rfl (by decide)) (filled_drawn hs hfilled hfits) (fun hn => ⟨hstart hn, fun a ha => ?_⟩)
    fun ho => reads_apart hs ho hfollow
  obtain ⟨r, hr, ha⟩ := List.mem_flatMap.1 ha
  exact ⟨hafter hn r hr a ha, (reads_inside hs hn r a ha).2⟩

omit hkind in
theorem methodSpans_inside (hn : S.nests) : ∀ a ∈ methodSpans s, a.Inside s.token.span := by
  refine List.forall_mem_append.2 ⟨fun a ha => ?_, List.forall_mem_singleton.2 ⟨?_, Int.le_refl _⟩⟩
  · obtain ⟨r, -, ha⟩ := List.mem_flatMap.1 ha
    exact reads_inside hs hn r a ha
  · rcases methodStart_cases s with ⟨field, -, b, hb, heq⟩ | ⟨-, heq⟩
    · show (s.token.start : Int) ≤ methodStart s
      rw [heq]
      exact (child_inside hs hn ((field?_sublist s field).subset hb)).1
    · exact Int.le_of_eq heq.symm

/-- In order a method has a list of parameters. -/
theorem parameters_ne_none (ho : S.ordered) : s.field? "parameters" ≠ none := by
  obtain ⟨c, hc, hpart, hfield⟩ := (hs.lies.inOrder ho).parameters hkind
  obtain ⟨params, hmem, rfl⟩ := List.mem_map.1 hc
  have hall : params ∈ s.fieldAll "parameters" :=
    List.mem_filter.2 ⟨List.mem_filter.2 ⟨hmem, hpart⟩, decide_eq_true hfield⟩
  rw [Site.field?, ne_eq, List.head?_eq_none_iff]
  exact List.ne_nil_of_mem hall

/-- In order the name of a method comes before its parameters, and so before its function. -/
theorem methodSpans_apart (ho : S.ordered) : (methodSpans s).Pairwise Span.Before := by
  rcases methodStart_cases s with ⟨field, hfield, b, hb, heq⟩ | ⟨hnone, -⟩
  · have hfollow : Reach.follow (grammarOrder s.token.kind) [.decorators, .field "name", .field field] = true := by
      simp only [List.mem_cons, List.not_mem_nil, or_false] at hfield
      rcases hfield with rfl | rfl <;> rw [hkind] <;> decide
    have hapart := reads_apart hs ho hfollow
    rw [show ([.decorators, .field "name", .field field] : List Reach) =
      [.decorators, .field "name"] ++ [.field field] from rfl, List.flatMap_append] at hapart
    obtain ⟨hfront, -, hbefore⟩ := List.pairwise_append.1 hapart
    refine List.pairwise_append.2 ⟨hfront, List.pairwise_singleton _ _, fun a ha c hc => ?_⟩
    rw [List.mem_singleton.1 hc]
    have hle : a.Before b.token.span :=
      hbefore a ha _ (List.mem_flatMap.2 ⟨_, List.mem_singleton_self _, List.mem_map_of_mem hb⟩)
    show a.stop ≤ methodStart s
    rw [heq]
    exact hle
  · exact absurd hnone (parameters_ne_none hs hkind ho)

theorem methodOf_drawn (inObject : Bool) : IfOk (S.From s.token) (methodOf S.source s inObject) := by
  have hin (hn : S.nests) := methodSpans_inside hs hn
  have hord (ho : S.ordered) := methodSpans_apart hs hkind ho
  refine (keyOf_drawn (field_drawn hs "name")).bind fun key hkey => ?_
  dsimp only
  split
  · refine (methodValue_drawn hs hkind).bind fun value hvalue => ?_
    refine nodeOf_drawn hs rfl (by decide) (Survey.Drawn.weaken
      (.flat (.flat (.flat (.flat (.field hkey.placed (.last hvalue.placed)))))) ?_) hin hord
    simp [methodSpans, Reach.reads, Reach.picks]
  · have method (isConstructor : Bool) : IfOk (S.From s.token) (do
        let decorators ← decoratorsOf s
        let value ← methodValue S.source s
        pure (nodeOf "MethodDefinition" s.token [
          ("decorators", .list decorators),
          ("static", .bool (s.hasTokenBefore "static" (s.field? "name"))),
          ("computed", .bool (isComputed (s.field? "name"))),
          ("kind", .text (if isConstructor then "constructor" else methodKind s (s.field? "name"))),
          ("key", key), ("value", value)])) := by
      refine (decoratorsOf_drawn hs).bind fun decorators hdecorators => ?_
      refine (methodValue_drawn hs hkind).bind fun value hvalue => ?_
      refine nodeOf_drawn hs rfl (by decide) (Survey.Drawn.weaken (.field hdecorators.list
        (.flat (.flat (.flat (.field hkey.placed (.last hvalue.placed)))))) ?_) hin hord
      simp [methodSpans, Reach.reads, Reach.picks]
    unfold classMethod
    dsimp only
    split
    · exact (ifOk_true (namesConstructor key)).bind fun isConstructor _ => method isConstructor
    · exact method false

end

end

end Lowering

end Arbor
