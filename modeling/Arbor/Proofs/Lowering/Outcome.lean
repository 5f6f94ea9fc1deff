import Arbor.Proofs.Lowering.Rules

set_option autoImplicit false

/-! # What a syntax tree yields

Lowering a tree yields tidy values, or fails by one of a few faults: for an escape of a literal that denotes
no code point, for a declaration without a word, and for arguments where no arguments can stand. If all nodes
of a tree allow only the faults `F` (`Lowering.Allows`), so does its program (`Lowering.programOf_yields`). -/

namespace Arbor.Lowering

open Value (Tidy Grown)

/-- The texts that are decoded for a literal whose children have the given tokens. -/
def literalBodies (source : Source) (t : Token) (children : List Token) : List Text :=
  if t.kind = "string" then [stringBody source t]
  else if t.kind = "template_string" then
    (templateStretches (t.start + 1) (t.stop - 1) children).map fun r => source.slice r.1 r.2
  else []

/-- A node, told by its token and those of its children, makes lowering fail only by the faults `F`. -/
structure Allows (F : Fault → Prop) (source : Source) (t : Token) (children : List Token) : Prop where
  literals : ∀ body ∈ literalBodies source t children, Yields F (fun _ => True) (Literal.unescape body)
  word : t.kind = "lexical_declaration" → children = [] → F .noSuchElement
  arguments : ∀ c ∈ children, c.kind = "arguments" → t.kind ∈ callKinds ∨ TakesLists F

/-! ## Every rule -/

/-- Whether a filler is used for a kind that has what it asks for. -/
def Filler.suits (kind : String) : Filler → Bool
  | declarationWord => kind = "lexical_declaration"
  | string => kind = "string"
  | binding => kind ∉ callKinds
  | caught => kind ∉ callKinds
  | _ => true

/-- Whether the nodes that a rule makes of a kind are tidy: their fields have names of their own, flags stand
    where no lists are looked for, and the rule has what it asks for. -/
def Rule.suits (kind : String) : Rule → Bool
  | node _ fields =>
    areFieldNames (fields.map Prod.fst) &&
      fields.all fun f => f.2.suits kind && (!f.2.isFlag || f.1 ∉ listNames)
  | replaced .sequence => kind ∉ callKinds
  | replaced .all => kind = "arguments"
  | replaced _ => false
  | template => kind = "template_string"
  | forIn => kind ∉ callKinds
  | typedParameter _ => kind ∉ callKinds
  | method => kind ∉ callKinds
  | exportStatement => kind ∉ callKinds
  | _ => true

theorem suits_of_mem_rules : ∀ entry ∈ rules, entry.2.suits entry.1 = true := by decide

theorem suits_ruleOf (kind : String) : (ruleOf kind).suits kind = true := by
  unfold ruleOf
  cases hlookup : rules.lookup kind with
  | none => rfl
  | some rule =>
    obtain ⟨before, after, hrules, -⟩ := List.lookup_eq_some_iff.1 hlookup
    exact suits_of_mem_rules (kind, rule) (by simp [hrules])

section

variable {F : Fault → Prop} {source : Source} {s : Site} (hs : s.Behaves F)
  (hallows : Allows F source s.token (s.children.map Tree.token))

include hallows

theorem asks_of_suits {filler : Filler} (h : filler.suits s.token.kind = true) :
    filler.Asks F source s := by
  cases filler with
  | declarationWord =>
    intro hchildren
    exact hallows.word (of_decide_eq_true h) (by rw [hchildren]; rfl)
  | string =>
    refine hallows.literals _ ?_
    rw [literalBodies, if_pos (of_decide_eq_true h)]
    exact List.mem_singleton_self _
  | binding => exact (show s.token.kind ∉ callKinds from of_decide_eq_true h)
  | caught => exact (show s.token.kind ∉ callKinds from of_decide_eq_true h)
  | _ => trivial

include hs

/-- Every rule yields something tidy, or one of the faults `F`. -/
theorem rule_lower_yields {rule : Rule} (h : rule.suits s.token.kind = true) (parent? : Option String) :
    Yields F (Becomes F s.token.kind) (rule.lower source parent? s) := by
  have plain {x : Except Fault Value} (hx : Yields F (Plain F) x) :
      Yields F (Becomes F s.token.kind) x := hx.mono fun _ hv => hv.becomes _
  cases rule with
  | node type fields =>
    simp only [Rule.suits, Bool.and_eq_true, List.all_eq_true] at h
    obtain ⟨hnames, hfields⟩ := h
    refine plain ((fillAll_yields hs fun f hf => ?_).bind fun filled hfilled => ?_)
    · obtain ⟨hsuits, hflag⟩ := hfields f hf
      refine ⟨asks_of_suits hallows hsuits, fun hyes => ?_⟩
      simpa [hyes] using hflag
    · exact plain_nodeOf (areFieldNames_sublist hfilled.1 hnames) hfilled.2
  | replaced filler =>
    cases filler with
    | sequence =>
      have hexpression := plain (expressionOf_plain hs (of_decide_eq_true h))
      exact Yields.bind (P := fun v? => Becomes F s.token.kind (v?.getD .null))
        (hexpression.map fun _ hv => hv) fun _ hv => Yields.pure.2 hv
    | all =>
      have hkind : s.token.kind = "arguments" := of_decide_eq_true h
      exact Yields.bind (P := fun v? => Becomes F s.token.kind (v?.getD .null))
        ((valuesOf_yields (parts_behave hs)).map fun _ hvalues =>
          ⟨Value.grown_list hvalues, fun hno => absurd hkind hno⟩) fun _ hv => Yields.pure.2 hv
    | _ => cases h
  | ifStatement => exact plain (ifStatement_yields hs)
  | tryStatement => exact plain (tryStatement_yields hs)
  | switchStatement => exact plain (switchStatement_yields hs)
  | forIn => exact plain (forInStatement_yields hs source (of_decide_eq_true h))
  | typedParameter optional => exact plain (typedParameter_yields hs source (of_decide_eq_true h) optional)
  | defaultedMember => exact plain (defaultedMember_yields hs source)
  | template =>
    refine plain (templateLiteral_yields hs fun r hr => hallows.literals _ ?_)
    have hkind : s.token.kind = "template_string" := of_decide_eq_true h
    rw [literalBodies, if_neg (by simp [hkind]), if_pos hkind]
    exact List.mem_map_of_mem hr
  | sequence => exact plain (flatSequence_yields hs)
  | binary => exact plain (binaryExpression_yields hs source)
  | chain => exact plain (chainOf_yields hs)
  | metaProperty => exact plain (metaProperty_plain source s)
  | method => exact plain (methodOf_yields hs source (of_decide_eq_true h) _)
  | exportStatement => exact plain (exportOf_yields hs source (of_decide_eq_true h))
  | jsxElement => exact plain (jsxElementOf_yields hs source)
  | jsxExpression => exact plain (jsxExpressionOf_yields hs _)
  | predefinedType => exact plain (plain_nodeOf rfl (by simp))
  | generic => exact plain (genericOf_yields hs source)

end

/-! ## Every tree -/

section

variable {F : Fault → Prop} {source : Source}

/-- What a node becomes, wherever it stands, is tidy, or one of the faults `F`. -/
theorem readingOf_behaves {t : Token} {children : List Branch} (hchildren : AllBehave F children)
    (hallows : Allows F source t (children.map Tree.token)) (parent? : Option String) :
    Branch.Behaves F (.node t (readingOf source parent? ⟨t, children⟩) children) := by
  have harguments : ∀ c ∈ children, c.kind = "arguments" → t.kind ∈ callKinds ∨ TakesLists F :=
    fun c hc => hallows.arguments c.token (List.mem_map_of_mem hc)
  have hs : Site.Behaves F ⟨t, children⟩ := ⟨hchildren, harguments⟩
  have hvalue := rule_lower_yields hs hallows (suits_ruleOf t.kind) parent?
  have hgrown := hvalue.mono fun _ hv => hv.toGrown
  by_cases hskip : t.isSkipped = true
  · have hreading : readingOf source parent? ⟨t, children⟩ =
        ⟨.ok .null, .ok (.null, false), .ok .null⟩ := by simp [readingOf, hskip]
    rw [hreading]
    exact ⟨plain_null.becomes _, Value.grown_null, Value.grown_null, harguments⟩
  · have hreading : readingOf source parent? ⟨t, children⟩ =
        ⟨(ruleOf t.kind).lower source parent? ⟨t, children⟩,
          if isLink t.kind then linkOf ⟨t, children⟩
          else (·, false) <$> (ruleOf t.kind).lower source parent? ⟨t, children⟩,
          jsxNameAt source ⟨t, children⟩ ((ruleOf t.kind).lower source parent? ⟨t, children⟩)⟩ := by
      simp only [readingOf, hskip]
      rfl
    rw [hreading]
    refine ⟨hvalue, ?_, jsxNameAt_yields hs source hgrown, harguments⟩
    dsimp only [Tree.note]
    split
    · exact (linkOf_yields hs).mono fun _ hv => hv.toGrown
    · exact hgrown.map fun _ hv => hv

/-- All nodes of a tree become something tidy, or one of the faults `F` that they allow. -/
theorem lowered_behaves {t : Cst}
    (h : t.Everywhere fun u => Allows F source u.token (u.children.map Tree.token))
    (parent? : Option String) : (lowered source parent? t).Everywhere (Branch.Behaves F) := by
  induction t using Tree.induction generalizing parent? with
  | node token note children ih =>
    obtain ⟨hallows, hchildren⟩ := Tree.everywhere_node.1 h
    have hbelow : AllBehave F (loweredAll source (some token.kind) children) := by
      rw [loweredAll_eq]
      intro b hb
      obtain ⟨u, hu, rfl⟩ := List.mem_map.1 hb
      exact ih u hu (hchildren u hu) _
    have htokens : (loweredAll source (some token.kind) children).map Tree.token =
        children.map Tree.token := by
      simp [loweredAll_eq, Function.comp_def]
    rw [lowered]
    refine Tree.everywhere_node.2 ⟨readingOf_behaves hbelow ?_ parent?, hbelow⟩
    rw [htokens]
    exact hallows

/-- A program is tidy, or there is one of the faults `F` that the nodes of the tree allow. -/
theorem programOf_yields {root : Cst}
    (h : root.Everywhere fun u => Allows F source u.token (u.children.map Tree.token))
    (sourceType : Value) :
    Yields F (fun program => sourceType.Tidy → program.Tidy) (programOf source sourceType root) := by
  have hbelow : AllBehave F (loweredAll source (some root.kind) root.children) := by
    rw [loweredAll_eq]
    intro b hb
    obtain ⟨u, hu, rfl⟩ := List.mem_map.1 hb
    exact lowered_behaves (h.child hu) _
  unfold programOf
  simp only [List.partition_eq_filter_filter]
  refine (valuesOf_yields (hbelow.subset ?_)).bind fun body hbody htype => ?_
  · exact fun b hb => List.mem_of_mem_filter (List.mem_of_mem_filter hb)
  have hline (b? : Option Branch) : Fit "hashbang" ((b?.map (hashbangOf source)).getD .null) := by
    cases b? with
    | none => exact fit_null _
    | some b => exact fit_of_grown (grown_nodeOf rfl (by simp)) _
  refine (grown_nodeAt rfl ?_).tidy
  simp only [List.forall_mem_cons]
  exact ⟨fit_of_tidy htype (by decide), hline _, fit_list hbody _, by simp⟩

end

end Arbor.Lowering
