import Arbor.Proofs.Lowering.Places

set_option autoImplicit false

/-! # Programs without their comments

Comments and what the grammar could not place have no influence on a program: lowering a tree and lowering
the pruned tree give the same (`Lowering.programOf_pruned`). Every rule makes the same of a pruned place
(`Lowering.rule_lower_pruned`), and so every tree becomes the same from its leaves up. -/

namespace Arbor.Lowering

open Arbor.Tree

/-! ## Rules of their own -/

section

variable (s : Site) (source : Source)

theorem ifStatement_pruned : ifStatement s.pruned = ifStatement s := by
  unfold ifStatement
  simp only [field?_pruned, valueOf_pruned]
  cases s.field? "alternative" <;> simp

theorem tryStatement_pruned : tryStatement s.pruned = tryStatement s := by
  unfold tryStatement
  simp only [field?_pruned, valueOf_pruned]
  cases s.field? "finalizer" <;> simp

theorem switchStatement_pruned : switchStatement s.pruned = switchStatement s := by
  unfold switchStatement
  simp only [field?_pruned, valueOf_pruned]
  cases s.field? "body" <;> simp

theorem loopVariable_pruned (word? left? : Option Branch) :
    loopVariable source (word?.map pruned) (left?.map pruned) = loopVariable source word? left? := by
  unfold loopVariable
  rw [valueOf_pruned]
  generalize valueOf left? = left
  cases left with
  | error f => rfl
  | ok left => cases word? <;> cases left? <;> cases left <;> simp [bind, Except.bind]

theorem withAccess_pruned (pattern : Value) (branches : List Branch) :
    withAccess source pattern (branches.map pruned) = withAccess source pattern branches := by
  induction branches generalizing pattern with
  | nil => rfl
  | cons b rest ih => simp [withAccess, ih]

theorem typedParameter_pruned (optional : Bool) :
    typedParameter source s.pruned optional = typedParameter source s optional := by
  simp [typedParameter, withAccess_pruned]

theorem defaultedMember_pruned : defaultedMember source s.pruned = defaultedMember source s := by
  unfold defaultedMember
  simp only [field?_pruned, valueOf_pruned]
  cases s.field? "left" <;> simp

theorem templateParts_pruned (start stop : Nat) (branches : List Branch) :
    templateParts source start stop (prunedAll branches) = templateParts source start stop branches := by
  induction branches generalizing start with
  | nil => rfl
  | cons c rest ih =>
    rw [prunedAll]
    cases hskip : c.token.isSkipped with
    | true =>
      have hkind : c.kind ≠ "template_substitution" := fun h =>
        absurd (isSkipped_of_kind (by decide) h) (by simp [hskip])
      simp [templateParts, hkind, ih]
    | false => simp [templateParts, ih]

theorem templateLiteral_pruned : templateLiteral source s.pruned = templateLiteral source s := by
  simp [templateLiteral, templateParts_pruned]

theorem sequenceLeavesAll_pruned {branches : List Branch}
    (h : ∀ b ∈ branches, sequenceLeaves b.pruned = (sequenceLeaves b).map pruned) :
    sequenceLeavesAll (prunedAll branches) = (sequenceLeavesAll branches).map pruned := by
  rw [sequenceLeavesAll_eq, sequenceLeavesAll_eq,
    filter_prunedAll _ isPart_pruned (fun _ => not_isSkipped_of_isPart), List.flatMap_map,
    List.map_flatMap]
  exact List.flatMap_congr fun b hb => h b (List.mem_of_mem_filter hb)

theorem sequenceLeaves_pruned (b : Branch) :
    sequenceLeaves b.pruned = (sequenceLeaves b).map pruned := by
  induction b using Tree.induction with
  | node t reading children ih =>
    rw [Tree.pruned, sequenceLeaves, sequenceLeaves]
    split
    · exact sequenceLeavesAll_pruned ih
    · simp [Tree.pruned]

theorem flatSequence_pruned : flatSequence s.pruned = flatSequence s := by
  simp [flatSequence, sequenceLeavesAll_pruned fun b _ => sequenceLeaves_pruned b]

@[simp] theorem linkBelow_pruned (b? : Option Branch) : linkBelow (b?.map pruned) = linkBelow b? := by
  cases b? <;> simp [linkBelow]

@[simp] theorem argumentsOf_pruned (b? : Option Branch) :
    argumentsOf (b?.map pruned) = argumentsOf b? := by
  cases b? <;> simp [argumentsOf]

theorem callLink_pruned (optional : Bool) : callLink s.pruned optional = callLink s optional := by
  have htemplate : ((s.field? "arguments").map pruned).filter (fun b => b.kind = "template_string") =
      ((s.field? "arguments").filter fun b => b.kind = "template_string").map pruned := by
    cases s.field? "arguments" with
    | none => rfl
    | some b => by_cases h : b.kind = "template_string" <;> simp [Option.filter, h]
  have hkind : ((s.field? "function").map pruned).map Tree.kind = (s.field? "function").map Tree.kind := by
    cases s.field? "function" <;> simp
  unfold callLink
  simp only [field?_pruned, htemplate, hkind, argumentsOf_pruned, linkBelow_pruned, valueOf_pruned]
  cases (s.field? "arguments").filter fun b => b.kind = "template_string" with
  | none => cases s.field? "type_arguments" <;> simp
  | some b => simp

theorem memberLink_pruned (optional : Bool) : memberLink s.pruned optional = memberLink s optional := by
  unfold memberLink
  simp only [field?_pruned, linkBelow_pruned, valueOf_pruned]
  rfl

theorem defaultExport_pruned : defaultExport s.pruned = defaultExport s := by
  have hkind (b? : Option Branch) : (b?.map pruned).map Tree.kind = b?.map Tree.kind := by
    cases b? <;> simp
  unfold defaultExport
  rw [field?_pruned, field?_pruned, orElse_pruned]
  simp [hkind]

theorem exportSpecifierOf_pruned (b : Branch) : exportSpecifierOf b.pruned = exportSpecifierOf b := by
  simp [exportSpecifierOf, orElse_pruned]

theorem genericFields_pruned (fields : List (Key × Value)) (unnamed : List Value)
    (branches : List Branch) :
    genericFields fields unnamed (branches.map pruned) = genericFields fields unnamed branches := by
  induction branches generalizing fields unnamed with
  | nil => rfl
  | cons b rest ih => simp [genericFields, ih]

theorem genericOf_pruned : genericOf source s.pruned = genericOf source s := by
  simp [genericOf, genericFields_pruned]

theorem exportOf_pruned : exportOf source s.pruned = exportOf source s := by
  have hclause : (s.pruned.parts.find? fun b => b.kind = "namespace_export" || b.kind = "export_clause") =
      (s.parts.find? fun b => b.kind = "namespace_export" || b.kind = "export_clause").map pruned := by
    simp only [parts_pruned, List.find?_map, Function.comp_def, Tree.kind_pruned]
  unfold exportOf
  rw [hasToken_pruned s (show "default" ∉ Token.skippedKinds by decide),
    hasToken_pruned s (show "*" ∉ Token.skippedKinds by decide), defaultExport_pruned,
    genericOf_pruned, hclause, field?_pruned, field?_pruned, valueOf_pruned]
  cases s.field? "declaration" with
  | some b => simp
  | none =>
    cases s.parts.find? fun b => b.kind = "namespace_export" || b.kind = "export_clause" with
    | none => simp
    | some b => simp [mapM_pruned _ exportSpecifierOf_pruned]

theorem jsxExpressionOf_pruned (inTag : Bool) :
    jsxExpressionOf s.pruned inTag = jsxExpressionOf s inTag := by
  unfold jsxExpressionOf
  rw [parts_pruned]
  cases s.parts with
  | nil => simp
  | cons b rest =>
    have hsequence := sequenceOf_pruned (b :: rest) s.token
    simp only [List.map_cons] at hsequence
    simp [hsequence]

theorem jsxChildOf_pruned (b : Branch) : jsxChildOf source b.pruned = jsxChildOf source b := by
  unfold jsxChildOf
  simp only [kind_pruned, Tree.token_pruned, site_pruned, first?_pruned, value_pruned]
  cases b.site.first? <;> simp

theorem jsxNameAt_pruned (value : Except Fault Value) :
    jsxNameAt source s.pruned value = jsxNameAt source s value := by
  have hlast : (s.pruned.parts.drop 1).getLast? = (s.parts.drop 1).getLast?.map pruned := by
    rw [parts_pruned, ← List.map_drop, List.getLast?_map]
  have hname (b : Branch) : jsxNameOf (some b.pruned) = jsxNameOf (some b) := jsxNameOf_pruned (some b)
  unfold jsxNameAt
  simp only [hlast, first?_pruned, field?_pruned, jsxNameOf_pruned, token_pruned]
  cases s.field? "object" <;> cases s.field? "property" <;>
    cases (s.parts.drop 1).getLast? <;> simp [hname]

end

/-! ## Rules that read a word -/

section

variable {s : Site} (hs : Clear s.token s.children) (source : Source)

include hs

theorem forInStatement_pruned : forInStatement source s.pruned = forInStatement source s := by
  unfold forInStatement
  simp only [mark?_pruned hs (show "kind" ∈ wordFields by decide),
    mark?_pruned hs (show "operator" ∈ wordFields by decide), field?_pruned, loopVariable_pruned,
    valueOf_pruned, hasToken_pruned s (show "await" ∉ Token.skippedKinds by decide), token_pruned]
  cases s.mark? "operator" <;> simp

theorem binaryExpression_pruned : binaryExpression source s.pruned = binaryExpression source s := by
  unfold binaryExpression
  simp only [operatorOf_pruned hs, field?_pruned, valueOf_pruned, token_pruned]

theorem linkOf_pruned : linkOf s.pruned = linkOf s := by
  have hoptional : (s.pruned.mark? "optional_chain").isSome = (s.mark? "optional_chain").isSome := by
    rw [mark?_pruned hs (by decide), Option.isSome_map]
  unfold linkOf
  simp only [hoptional, callLink_pruned, memberLink_pruned]
  rfl

theorem chainOf_pruned : chainOf s.pruned = chainOf s := by
  unfold chainOf
  rw [linkOf_pruned hs]
  rfl

theorem methodValue_pruned : methodValue source s.pruned = methodValue source s := by
  unfold methodValue
  rw [fillAll_pruned hs source]
  · simp only [field?_pruned, token_pruned]
    cases s.field? "parameters" <;> cases s.field? "type_parameters" <;> simp
  · simp [Filler.Steady, Token.skippedKinds]

theorem methodOf_pruned (inObject : Bool) :
    methodOf source s.pruned inObject = methodOf source s inObject := by
  have hkind (name? : Option Branch) :
      methodKind s.pruned (name?.map pruned) = methodKind s name? := by
    simp only [methodKind,
      hasTokenBefore_pruned s (show "get" ∉ Token.skippedKinds by decide),
      hasTokenBefore_pruned s (show "set" ∉ Token.skippedKinds by decide)]
  unfold methodOf
  simp only [field?_pruned, keyOf_pruned, isComputed_pruned, hkind]
  simp only [objectMethod, classMethod, methodValue_pruned hs source, field?_pruned, decoratorsOf_pruned,
    token_pruned, hasTokenBefore_pruned s (show "static" ∉ Token.skippedKinds by decide)]

end

/-! ## Elements with tags

An element knows its tags by their positions among its children. Pruning moves the positions, but parts at
different positions stay at different ones. -/

/-- A part after pruning, if the positions move as `move` tells. -/
def Placed.pruned (move : Nat → Nat) (p : Placed) : Placed := (p.1.pruned, move p.2)

theorem placedParts_cons (c : Branch) (rest : List Branch) (start : Nat) :
    placedParts (c :: rest) start =
      (if c.isPart then [(c, start)] else []) ++ placedParts rest (start + 1) := by
  rw [placedParts, List.zipIdx_cons, List.filter_cons]
  cases c.isPart <;> rfl

theorem exists_move (branches : List Branch) (start start' : Nat) :
    ∃ move : Nat → Nat,
      placedParts (prunedAll branches) start' =
        (placedParts branches start).map (Placed.pruned move) ∧
      (∀ p ∈ placedParts branches start, start ≤ p.2 ∧ start' ≤ move p.2) ∧
      ∀ p ∈ placedParts branches start, ∀ q ∈ placedParts branches start,
        move p.2 = move q.2 → p.2 = q.2 := by
  induction branches generalizing start start' with
  | nil => exact ⟨id, rfl, by simp [placedParts], by simp [placedParts]⟩
  | cons c rest ih =>
    cases hskip : c.token.isSkipped with
    | true =>
      have hpart : c.isPart = false := by simp [isPart, hskip]
      have hsame : placedParts (c :: rest) start = placedParts rest (start + 1) := by
        rw [placedParts_cons, hpart]
        rfl
      obtain ⟨move, hmap, hle, hinj⟩ := ih (start + 1) start'
      rw [hsame, prunedAll, if_pos hskip]
      refine ⟨move, hmap, ?_, hinj⟩
      intro p hp
      exact ⟨Nat.le_of_succ_le (hle p hp).1, (hle p hp).2⟩
    | false =>
      obtain ⟨move, hmap, hle, hinj⟩ := ih (start + 1) (start' + 1)
      -- the first node goes to the first place, and the others stay behind it
      let move' (i : Nat) : Nat := if i = start then start' else move i
      have hlater {p : Placed} (hp : p ∈ placedParts rest (start + 1)) : move' p.2 = move p.2 := by
        have := (hle p hp).1
        exact if_neg (by omega)
      have hrest : (placedParts rest (start + 1)).map (Placed.pruned move) =
          (placedParts rest (start + 1)).map (Placed.pruned move') := by
        refine List.map_congr_left fun p hp => ?_
        rw [Placed.pruned, Placed.pruned, hlater hp]
      have hparts : ∀ p ∈ placedParts (c :: rest) start,
          p = (c, start) ∨ p ∈ placedParts rest (start + 1) := by
        intro p hp
        rw [placedParts_cons] at hp
        refine (List.mem_append.1 hp).imp (fun h => ?_) id
        split at h
        · exact List.mem_singleton.1 h
        · cases h
      refine ⟨move', ?_, ?_, ?_⟩
      · rw [prunedAll, if_neg (by simp [hskip])]
        rw [placedParts_cons, placedParts_cons, isPart_pruned, hmap, hrest, List.map_append]
        cases c.isPart <;> simp [Placed.pruned, move']
      · intro p hp
        rcases hparts p hp with rfl | hp
        · simp [move']
        · have := hle p hp
          rw [hlater hp]
          omega
      · intro p hp q hq heq
        rcases hparts p hp with rfl | hp <;> rcases hparts q hq with rfl | hq
        · rfl
        · have := hle q hq
          rw [hlater hq] at heq
          simp only [move', if_true] at heq
          omega
        · have := hle p hp
          rw [hlater hp] at heq
          simp only [move', if_true] at heq
          omega
        · rw [hlater hp, hlater hq] at heq
          exact hinj p hp q hq heq

section

variable {move : Nat → Nat} {parts : List Placed} {field kind : String} {fallback? : Option Placed}

theorem tagOf_pruned :
    tagOf (parts.map (Placed.pruned move)) field kind (fallback?.map (Placed.pruned move)) =
      (tagOf parts field kind fallback?).map (Placed.pruned move) := by
  have hfind : (parts.map (Placed.pruned move)).find? (fun p => p.1.token.field? = some field) =
      (parts.find? fun p => p.1.token.field? = some field).map (Placed.pruned move) := by
    simp only [List.find?_map, Function.comp_def, Placed.pruned, Tree.token_pruned]
  unfold tagOf
  rw [hfind]
  cases parts.find? fun p => p.1.token.field? = some field with
  | some p => rfl
  | none =>
    cases fallback? with
    | none => rfl
    | some p => by_cases h : p.1.kind = kind <;> simp [Option.filter, Placed.pruned, h]

/-- A part is a tag as it was before. -/
theorem isTag_pruned (hinj : ∀ p ∈ parts, ∀ q ∈ parts, move p.2 = move q.2 → p.2 = q.2)
    {tag? : Option Placed} (htag : ∀ p, tag? = some p → p ∈ parts) {p : Placed} (hp : p ∈ parts) :
    decide ((tag?.map (Placed.pruned move)).map Prod.snd = some (p.pruned move).2) =
      decide (tag?.map Prod.snd = some p.2) := by
  cases tag? with
  | none => simp
  | some q =>
    simp only [Option.map_some, Option.some.injEq, decide_eq_decide]
    exact ⟨hinj q (htag q rfl) p hp, congrArg move⟩

end

theorem jsxElementOf_pruned (source : Source) (s : Site) :
    jsxElementOf source s.pruned = jsxElementOf source s := by
  obtain ⟨move, hmap, -, hinj⟩ := exists_move s.children 0 0
  unfold placedParts at hmap hinj
  unfold jsxElementOf
  simp only [children_pruned, hmap, List.head?_map, List.getLast?_map, tagOf_pruned]
  generalize hparts : (s.children.zipIdx.filter fun p => p.1.isPart) = parts at hinj
  have hopening : ∀ p, tagOf parts "open_tag" "jsx_opening_element" parts.head? = some p → p ∈ parts :=
    fun p => mem_of_tagOf fun q hq => List.mem_of_mem_head? hq
  have hclosing : ∀ p, tagOf parts "close_tag" "jsx_closing_element" parts.getLast? = some p → p ∈ parts :=
    fun p => mem_of_tagOf fun q hq => List.mem_of_getLast? hq
  generalize tagOf parts "open_tag" "jsx_opening_element" parts.head? = opening? at hopening
  generalize tagOf parts "close_tag" "jsx_closing_element" parts.getLast? = closing? at hclosing
  have hinner : (parts.map (Placed.pruned move)).filter (fun p =>
      !((opening?.map (Placed.pruned move)).map Prod.snd = some p.2 ||
        (closing?.map (Placed.pruned move)).map Prod.snd = some p.2)) =
      (parts.filter fun p => !(opening?.map Prod.snd = some p.2 || closing?.map Prod.snd = some p.2)).map
        (Placed.pruned move) := by
    rw [List.filter_map]
    congr 1
    refine List.filter_congr fun p hp => ?_
    rw [Function.comp_apply, isTag_pruned hinj hopening hp, isTag_pruned hinj hclosing hp]
  have hchildren (inner : List Placed) :
      (inner.map (Placed.pruned move)).mapM (fun p => jsxChildOf source p.1) =
        inner.mapM fun p => jsxChildOf source p.1 := by
    rw [List.mapM_map]
    exact congrArg (inner.mapM ·) (funext fun p => jsxChildOf_pruned source p.1)
  have hvalue (b : Branch) : valueOf (some b.pruned) = valueOf (some b) := valueOf_pruned (some b)
  rw [hinner, hchildren]
  cases opening? <;> cases closing? <;> simp [Placed.pruned, hvalue]

/-! ## Every rule -/

/-- The ways in which a rule fills fields. -/
def Rule.fillers : Rule → List Filler
  | node _ fields => fields.map Prod.snd
  | replaced filler => [filler]
  | _ => []

/-- Whether a filler looks for a token that could be a comment, or for a word that must be there. -/
def Filler.isFussy : Filler → Bool
  | token t => t ∈ Token.skippedKinds
  | tokenBefore t _ => t ∈ Token.skippedKinds
  | declarationWord => true
  | _ => false

theorem Filler.steady_of_not_isFussy {filler : Filler} (h : filler.isFussy = false) (s : Site) :
    filler.Steady s := by
  cases filler <;> simp_all [isFussy, Steady]

theorem isFussy_of_mem_rules : ∀ entry ∈ rules, entry.1 ≠ "lexical_declaration" →
    ∀ filler ∈ entry.2.fillers, filler.isFussy = false := by
  decide

/-- A clear place has all that the rule of its kind asks for. -/
theorem steady_of_clear {s : Site} (hs : Clear s.token s.children) :
    ∀ filler ∈ (ruleOf s.token.kind).fillers, filler.Steady s := by
  by_cases hkind : s.token.kind = "lexical_declaration"
  · obtain ⟨b, hb, hfield⟩ := hs.declares hkind
    have hword : ∃ b, s.mark? "kind" = some b := by
      rw [← Option.isSome_iff_exists, Site.mark?, List.find?_isSome]
      exact ⟨b, hb, by simpa using hfield⟩
    have hrule : (ruleOf "lexical_declaration").fillers =
        [.declarationWord, .allOf "variable_declarator"] := rfl
    rw [hkind, hrule]
    simp [Filler.Steady, hword]
  · intro filler hfiller
    refine Filler.steady_of_not_isFussy ?_ s
    unfold ruleOf at hfiller
    cases hlookup : rules.lookup s.token.kind with
    | none => simp [hlookup, Rule.fillers] at hfiller
    | some rule =>
      rw [hlookup, Option.getD_some] at hfiller
      obtain ⟨before, after, hrules, -⟩ := List.lookup_eq_some_iff.1 hlookup
      exact isFussy_of_mem_rules (s.token.kind, rule) (by simp [hrules]) hkind filler hfiller

/-- Every rule makes the same of a pruned place. -/
theorem rule_lower_pruned {s : Site} (hs : Clear s.token s.children) (source : Source)
    (parent? : Option String) :
    (ruleOf s.token.kind).lower source parent? s.pruned =
      (ruleOf s.token.kind).lower source parent? s := by
  have hsteady := steady_of_clear hs
  cases hrule : ruleOf s.token.kind with
  | node type fields =>
    rw [hrule] at hsteady
    have hfields : fillAll source s.pruned fields = fillAll source s fields :=
      fillAll_pruned hs source fun field hfield => hsteady _ (List.mem_map_of_mem hfield)
    simp [Rule.lower, hfields]
  | replaced filler =>
    rw [hrule] at hsteady
    simp only [Rule.lower, fill_pruned hs source (hsteady filler (List.mem_singleton.2 rfl))]
  | ifStatement => exact ifStatement_pruned s
  | tryStatement => exact tryStatement_pruned s
  | switchStatement => exact switchStatement_pruned s
  | forIn => exact forInStatement_pruned hs source
  | typedParameter optional => exact typedParameter_pruned s source optional
  | defaultedMember => exact defaultedMember_pruned s source
  | template => exact templateLiteral_pruned s source
  | sequence => exact flatSequence_pruned s
  | binary => exact binaryExpression_pruned hs source
  | chain => exact chainOf_pruned hs
  | metaProperty => rfl
  | method => exact methodOf_pruned hs source _
  | exportStatement => exact exportOf_pruned s source
  | jsxElement => exact jsxElementOf_pruned source s
  | jsxExpression => exact jsxExpressionOf_pruned s _
  | predefinedType => rfl
  | generic => exact genericOf_pruned s source

theorem readingOf_pruned {s : Site} (hs : Clear s.token s.children) (source : Source)
    (parent? : Option String) :
    readingOf source parent? s.pruned = readingOf source parent? s := by
  unfold readingOf
  simp only [token_pruned, rule_lower_pruned hs source parent?, linkOf_pruned hs, jsxNameAt_pruned]

/-! ## Every tree -/

/-- A tree in which all nodes are clear. -/
abbrev ClearTree (t : Cst) : Prop := t.Everywhere fun u => Clear u.token u.children

/-- A node stays clear when its children are lowered. -/
theorem Clear.lowered {t : Token} {children : List Cst} (h : Clear t children) (source : Source)
    (parent? : Option String) : Clear t (loweredAll source parent? children) := by
  rw [loweredAll_eq]
  refine ⟨?_, fun hkind => ?_⟩
  · intro b hb
    obtain ⟨u, hu, rfl⟩ := List.mem_map.1 hb
    simpa using h.words u hu
  · obtain ⟨u, hu, hfield⟩ := h.declares hkind
    exact ⟨_, List.mem_map_of_mem hu, by simpa using hfield⟩

theorem loweredAll_pruned {source : Source} {parent? : Option String} {ts : List Cst}
    (h : ∀ t ∈ ts, lowered source parent? t.pruned = (lowered source parent? t).pruned) :
    loweredAll source parent? (prunedAll ts) = prunedAll (loweredAll source parent? ts) := by
  rw [loweredAll_eq, loweredAll_eq, prunedAll_eq, prunedAll_eq, List.filter_map, List.map_map,
    List.map_map]
  have hfilter : (fun b : Branch => !b.token.isSkipped) ∘ lowered source parent? =
      fun t => !t.token.isSkipped := by
    funext t
    simp
  rw [hfilter]
  exact List.map_congr_left fun t ht => h t (List.mem_of_mem_filter ht)

/-- Lowering a pruned tree comes to the same as pruning the lowered tree. -/
theorem lowered_pruned (source : Source) {t : Cst} (ht : ClearTree t) (parent? : Option String) :
    lowered source parent? t.pruned = (lowered source parent? t).pruned := by
  induction t using Tree.induction generalizing parent? with
  | node token note children ih =>
    obtain ⟨hclear, hchildren⟩ := everywhere_node.1 ht
    have hbranches : loweredAll source (some token.kind) (prunedAll children) =
        prunedAll (loweredAll source (some token.kind) children) :=
      loweredAll_pruned fun u hu => ih u hu (hchildren u hu) _
    have hreading := readingOf_pruned (s := ⟨token, loweredAll source (some token.kind) children⟩)
      (hclear.lowered source (some token.kind)) source parent?
    rw [Tree.pruned, lowered, lowered, Tree.pruned, hbranches]
    exact congrArg (fun reading => Tree.node token reading _) hreading

/-- The program of a source does not depend on its comments and on what the grammar could not place, nor does
    the fault for which there is no program: without these nodes, at any depth, it is the same. -/
theorem programOf_pruned (source : Source) (sourceType : Value) {root : Cst} (h : ClearTree root) :
    programOf source sourceType root.pruned = programOf source sourceType root := by
  have hbranches : loweredAll source (some root.kind) (prunedAll root.children) =
      prunedAll (loweredAll source (some root.kind) root.children) :=
    loweredAll_pruned fun u hu => lowered_pruned source (h.child hu) _
  have hparts : (prunedAll (loweredAll source (some root.kind) root.children)).filter isPart =
      ((loweredAll source (some root.kind) root.children).filter isPart).map pruned :=
    filter_prunedAll isPart isPart_pruned (fun _ => not_isSkipped_of_isPart) _
  have hline : hashbangOf source ∘ pruned = hashbangOf source := by
    funext b
    simp [hashbangOf]
  unfold programOf
  simp only [kind_pruned, Tree.children_pruned, hbranches, hparts, List.partition_eq_filter_filter,
    List.filter_map, List.getLast?_map, Option.map_map, hline, valuesOf_pruned, Function.comp_def]

namespace Sample

/-- The syntax of the source `let a/**/= b #`, in which `#` is out of place. -/
def commented : Cst :=
  .branch "program" 0 14 none [
    .branch "lexical_declaration" 0 14 none [
      .leaf "let" false 0 3 (some "kind"),
      .branch "variable_declarator" 4 12 none [
        .leaf "identifier" true 4 5 (some "name"),
        .leaf "comment" true 5 9 none,
        .leaf "=" false 9 10 none,
        .leaf "identifier" true 11 12 (some "value")],
      .branch "ERROR" 13 14 none [.leaf "#" false 13 14 none]]]

/-- The comment and what is out of place go, and the program stays. -/
theorem programOf_pruned_commented :
    ((commented.pruned.children[0]?).map fun t => t.children.map Tree.kind) =
        some ["let", "variable_declarator"] ∧
      programOf (.ofText "let a/**/= b #") (.text "module") commented.pruned =
        programOf (.ofText "let a/**/= b #") (.text "module") commented :=
  ⟨by decide, programOf_pruned _ _ (by decide)⟩

end Sample

end Arbor.Lowering
