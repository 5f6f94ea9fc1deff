import Arbor.Proofs.Lowering.Elements
import Arbor.Proofs.Lowering.Expressions
import Arbor.Proofs.Lowering.Kept
import Arbor.Proofs.Lowering.Outcome
import Arbor.Proofs.Lowering.Statements

set_option autoImplicit false

/-! # What a syntax tree leaves

Every rule leaves what is drawn from the range of its node (`Lowering.rule_drawn`), and so does every tree
(`Lowering.lowered_drawn`). For the rules that are lists of fillers this is checked in the table of rules. -/

namespace Arbor.Lowering

open Value (nodeFields headKeys Apart typeOf? startOf? rangeOf? records recordsOfItems recordsOfFields)

/-! ## Fillers that tell the text of a node -/

/-- Whether a field is filled with the text of the node. -/
def isTold (name : String) (fields : List (String × Filler)) : Bool :=
  match fields.lookup name with
  | some .source => true
  | _ => false

/-- Whether a field is filled with a truth value or null. -/
def isMute (name : String) (fields : List (String × Filler)) : Bool :=
  match fields.lookup name with
  | some (.constant .null) => true
  | some (.constant (.bool _)) => true
  | _ => false

/-- Whether the nodes of a type tell the text of their range, if they tell one. -/
def tells (type : String) (fields : List (String × Filler)) : Bool :=
  if (type : Text) ∈ nameTypes then isTold "name" fields
  else if type = "JSXText" then isTold "raw" fields
  else if type = "Literal" then
    isTold "raw" fields || (isMute "value" fields && (fields.lookup "regex").isNone)
  else decide ((type : Text) ∉ tellingTypes)

section

variable {S : Survey} {s : Site} {type : String} {fields : List (String × Filler)}
  {filled : List (String × Value)}

theorem Filled.get?_of_isTold {source : Source} (h : Filled source s fields filled) {name : String}
    (htold : isTold name fields = true) :
    Fields.get? (namedFields filled) (.text name) = some (.text (source.slice s.token.start s.token.stop)) := by
  unfold isTold at htold
  split at htold
  · next hlookup => exact h.get?_of_lookup hlookup rfl
  · cases htold

theorem Filled.get?_of_isMute {source : Source} (h : Filled source s fields filled) {name : String}
    (hmute : isMute name fields = true) :
    isWritten (Fields.get? (namedFields filled) (.text name)) = false := by
  unfold isMute at hmute
  split at hmute
  · next hlookup =>
    rw [h.get?_of_lookup hlookup rfl]
    rfl
  · next hlookup =>
    rw [h.get?_of_lookup hlookup rfl]
    rfl
  · cases hmute

/-- The nodes of a rule that tells the text of their range tell it. -/
theorem spelled_filled (h : Filled S.source s fields filled) (htells : tells type fields = true) :
    S.Spelled none (nodeFields type s.token.start s.token.stop (namedFields filled)) := by
  unfold tells at htells
  split at htells
  · next hname =>
    refine .inr (.inr (.inr (spells_name hname fun name hget => ?_)))
    rw [h.get?_of_isTold htells] at hget
    exact (Scalar.text.inj (Value.scalar.inj (Option.some.inj hget))).symm
  · split at htells
    · next heq => exact .inr (.inr (.inr (spells_raw (.inl (congrArg Text.ofString heq)) (h.get?_of_isTold htells))))
    · split at htells
      · next heq =>
        simp only [Bool.or_eq_true, Bool.and_eq_true, Option.isNone_iff_eq_none] at htells
        rcases htells with htold | ⟨hmute, hregex⟩
        · exact .inr (.inr (.inr (spells_raw (.inr (congrArg Text.ofString heq)) (h.get?_of_isTold htold))))
        · subst heq
          exact .inr (.inr (.inr (spells_mute (h.get?_of_lookup_none hregex) (h.get?_of_isMute hmute))))
      · exact spelled_of_untold rfl (of_decide_eq_true htells)

end

/-! ## Every rule -/

/-- Whether a rule is used for a kind for which it is made: its fillers are used where they belong, they read in
    the order of the grammar, and nodes that tell the text of their range tell it. -/
def Rule.sound (kind : String) : Rule → Bool
  | node type fields =>
    (fields.all fun f => f.2.fits kind ⟨type, .text f.1⟩) &&
      Reach.follow (grammarOrder kind) (fields.map fun f => f.2.reach) && tells type fields
  | ifStatement => kind = "if_statement"
  | tryStatement => kind = "try_statement"
  | switchStatement => kind = "switch_statement"
  | forIn => kind = "for_in_statement"
  | typedParameter _ => kind = "required_parameter" || kind = "optional_parameter"
  | defaultedMember => kind = "object_assignment_pattern"
  | template => kind = "template_string"
  | binary => kind = "binary_expression"
  | chain => isLink kind
  | method => kind = "method_definition"
  | exportStatement => kind = "export_statement"
  | jsxElement => kind = "jsx_element"
  | jsxExpression => kind = "jsx_expression"
  | generic => rules.lookup kind = none
  | _ => true

theorem sound_of_mem_rules : ∀ entry ∈ rules, entry.2.sound entry.1 = true := by decide +kernel

theorem sound_ruleOf (kind : String) : (ruleOf kind).sound kind = true := by
  unfold ruleOf
  cases hlookup : rules.lookup kind with
  | none => exact decide_eq_true hlookup
  | some rule =>
    obtain ⟨before, after, hrules, -⟩ := List.lookup_eq_some_iff.1 hlookup
    exact sound_of_mem_rules (kind, rule) (by simp [hrules])

theorem untold_predefinedTypes : ∀ entry ∈ predefinedTypes, entry.2 ∉ tellingTypes := by decide

section

variable {S : Survey} {s : Site} (hs : s.Drawn S)

include hs

theorem predefinedType_drawn : S.From s.token (predefinedType S.source s) := by
  have huntold : (predefinedTypes.lookup (s.token.text S.source)).getD "TSTypeReference" ∉ tellingTypes := by
    cases hlookup : predefinedTypes.lookup (s.token.text S.source) with
    | none => decide
    | some type =>
      obtain ⟨before, after, htypes, -⟩ := List.lookup_eq_some_iff.1 hlookup
      exact untold_predefinedTypes (s.token.text S.source, type) (by simp [htypes])
  exact node_drawn hs [] rfl huntold (fun _ => rfl) .nil

/-- Every rule leaves what is drawn from the range of its node. -/
theorem rule_drawn {rule : Rule} (hsound : rule.sound s.token.kind = true) (hsuits : rule.suits s.token.kind = true)
    (parent? : Option String) : IfOk (S.From s.token) (rule.lower S.source parent? s) := by
  cases rule with
  | node type fields =>
    simp only [Rule.sound, Bool.and_eq_true, List.all_eq_true] at hsound
    simp only [Rule.suits, Bool.and_eq_true] at hsuits
    obtain ⟨⟨hfits, hfollow⟩, htells⟩ := hsound
    refine (fillAll_filled S.source s fields).bind fun filled hfilled => Yields.pure.2 ?_
    refine drawn_node (apart_namedFields (areFieldNames_sublist hfilled.names hsuits.1))
      (spelled_filled hfilled htells) (filled_drawn hs hfilled hfits) (fun hn => ⟨site_wide hs hn, fun a ha => ?_⟩)
      fun ho => reads_apart hs ho hfollow
    obtain ⟨r, -, ha⟩ := List.mem_flatMap.1 ha
    exact reads_inside hs hn r a ha
  | replaced filler =>
    cases filler with
    | sequence =>
      exact Yields.bind (P := fun v? => S.From s.token (v?.getD .null))
        ((expressionOf_drawn hs).map fun _ hv => hv) fun _ hv => Yields.pure.2 hv
    | all =>
      have hvalues := valuesOf_drawn (children_drawn hs (parts_sublist s).subset)
      exact Yields.bind (P := fun v? => S.From s.token (v?.getD .null))
        (hvalues.map fun _ hv => gathered hs hv.list (parts_sublist s)) fun _ hv => Yields.pure.2 hv
    | _ => cases hsuits
  | ifStatement => exact ifStatement_drawn hs (of_decide_eq_true hsound)
  | tryStatement => exact tryStatement_drawn hs (of_decide_eq_true hsound)
  | switchStatement => exact switchStatement_drawn hs (of_decide_eq_true hsound)
  | forIn => exact forInStatement_drawn hs (of_decide_eq_true hsound)
  | typedParameter optional => exact typedParameter_drawn hs (by simpa [Rule.sound] using hsound) optional
  | defaultedMember => exact defaultedMember_drawn hs (of_decide_eq_true hsound)
  | template => exact templateLiteral_drawn hs (of_decide_eq_true hsound)
  | sequence => exact flatSequence_drawn hs
  | binary => exact binaryExpression_drawn hs (of_decide_eq_true hsound)
  | chain => exact chainOf_drawn hs hsound
  | metaProperty => exact Yields.ok.2 (metaProperty_drawn hs)
  | method => exact methodOf_drawn hs (of_decide_eq_true hsound) _
  | exportStatement => exact exportOf_drawn hs (of_decide_eq_true hsound)
  | jsxElement => exact jsxElementOf_drawn hs (of_decide_eq_true hsound)
  | jsxExpression => exact jsxExpressionOf_drawn hs (of_decide_eq_true hsound) _
  | predefinedType => exact Yields.ok.2 (predefinedType_drawn hs)
  | generic => exact genericOf_drawn hs (.inl (of_decide_eq_true hsound))

end

/-! ## Every tree -/

section

variable {S : Survey}

/-- Where any fault may occur, every node may become what it does. -/
theorem allows_true (source : Source) (t : Token) (children : List Token) :
    Allows (fun _ => True) source t children :=
  ⟨fun _ _ => ifOk_true _, fun _ _ => trivial, fun _ _ _ => .inr ⟨trivial, trivial⟩⟩

theorem readingOf_drawn {t : Token} {children : List Branch} (hs : Site.Drawn S ⟨t, children⟩)
    (parent? : Option String) :
    Branch.Drawn S (.node t (readingOf S.source parent? ⟨t, children⟩) children) := by
  have hbehave : AllBehave (fun _ => True) children := fun b hb u hu => (hs.children b hb u hu).behaves
  have hbehaves := readingOf_behaves hbehave (allows_true S.source t _) parent?
  have hvalue := rule_drawn hs (sound_ruleOf t.kind) (suits_ruleOf t.kind) parent?
  refine ⟨hs.lies, ⟨parent?, rfl⟩, hbehaves, ?_, ?_, ?_⟩ <;>
    simp only [Branch.value, Tree.note_node, Tree.token_node, readingOf]
  · split
    · exact Yields.ok.2 .nil
    · exact hvalue
  · split
    · exact Yields.ok.2 .nil
    · dsimp only
      split
      · next hlink => exact linkOf_drawn hs hlink
      · exact hvalue.map fun _ hv => hv
  · split
    · exact Yields.ok.2 .nil
    · exact jsxNameAt_drawn hs hvalue

/-- What the nodes of a tree become is drawn from their ranges. -/
theorem lowered_drawn {t : Cst} (h : t.Everywhere fun u => S.Lies u.token (u.children.map Tree.token))
    (parent? : Option String) : (lowered S.source parent? t).Everywhere (Branch.Drawn S) := by
  induction t using Tree.induction generalizing parent? with
  | node token note children ih =>
    obtain ⟨hlies, hchildren⟩ := Tree.everywhere_node.1 h
    have hbelow : ∀ b ∈ loweredAll S.source (some token.kind) children, b.Everywhere (Branch.Drawn S) := by
      rw [loweredAll_eq]
      intro b hb
      obtain ⟨u, hu, rfl⟩ := List.mem_map.1 hb
      exact ih u hu (hchildren u hu) _
    have htokens : (loweredAll S.source (some token.kind) children).map Tree.token =
        children.map Tree.token := by
      simp [loweredAll_eq, Function.comp_def]
    rw [lowered]
    refine Tree.everywhere_node.2 ⟨readingOf_drawn ⟨hbelow, ?_⟩ parent?, hbelow⟩
    rw [htokens]
    exact hlies

/-- The interpreter line is drawn from its range. -/
theorem hashbang_drawn {limit : Int} {b? : Option Branch} (h : AllDrawn S limit b?.toList) :
    S.Drawn limit (spansOf b?.toList) (records none ((b?.map (hashbangOf S.source)).getD .null)) := by
  cases b? with
  | none => exact .nil
  | some b => exact Survey.Drawn.within (node_drawn h.site [] rfl (by decide) (fun _ => rfl) (.flat .nil)) h

/-- Whether a node is the interpreter line of a script. -/
def isInterpreter (b : Branch) : Bool := b.kind = "hash_bang_line"

/-- The place of the program of a tree. -/
def programSite (source : Source) (root : Cst) : Site :=
  ⟨root.token, loweredAll source (some root.kind) root.children⟩

theorem programOf_eq (source : Source) (sourceType : Value) (root : Cst) :
    programOf source sourceType root = (do
      let parts := (programSite source root).parts
      let body ← valuesOf (parts.filter fun b => !isInterpreter b)
      pure (nodeAt "Program" 0 source.size [("sourceType", sourceType),
        ("hashbang", ((parts.filter isInterpreter).getLast?.map (hashbangOf source)).getD .null),
        ("body", .list body)])) := by
  unfold programOf
  simp only [List.partition_eq_filter_filter]
  rfl

/-- A program is drawn from the whole source. -/
theorem programOf_drawn {root : Cst} (h : root.Everywhere fun u => S.Lies u.token (u.children.map Tree.token))
    (hsize : S.nests → root.token.stop ≤ S.source.size) (sourceType : Scalar) :
    IfOk (fun program => S.Drawn S.source.size [⟨0, S.source.size⟩] (records none program))
      (programOf S.source (.scalar sourceType) root) := by
  have hs : (programSite S.source root).Drawn S := by
    refine ⟨fun b hb => ?_, ?_⟩
    · rw [programSite, loweredAll_eq] at hb
      obtain ⟨u, hu, rfl⟩ := List.mem_map.1 hb
      exact lowered_drawn (h.child hu) _
    · simpa [programSite, loweredAll_eq, Function.comp_def] using h.here
  rw [programOf_eq]
  generalize hsite : programSite S.source root = s at hs
  have hparts := parts_sublist s
  have hstatements : (s.parts.filter fun b => !isInterpreter b).Sublist s.parts := List.filter_sublist
  have hline : (s.parts.filter isInterpreter).getLast?.toList.Sublist (s.parts.filter isInterpreter) :=
    toList_sublist fun _ => List.mem_of_getLast?
  have hlines : (s.parts.filter isInterpreter).getLast?.toList.Sublist s.parts := hline.trans List.filter_sublist
  have hlimit (hn : S.nests) : (s.token.stop : Int) ≤ S.source.size := by
    rw [← hsite]
    exact Int.ofNat_le.2 (hsize hn)
  refine (valuesOf_drawn (children_drawn hs (hstatements.trans hparts).subset)).bind
    fun body hbody => Yields.pure.2 ?_
  have hhashbang := hashbang_drawn (children_drawn hs (hlines.trans hparts).subset)
  refine drawn_node (apart_namedFields rfl) (spelled_of_untold rfl (by decide))
    (.flat (.field (hhashbang.raise hlimit).placed (.last (hbody.raise hlimit).list)))
    (fun hn => ⟨Int.natCast_nonneg _, ?_⟩) fun ho => ?_
  · have hinside : s.token.span.Inside ⟨0, S.source.size⟩ := ⟨Int.natCast_nonneg _, hlimit hn⟩
    refine List.forall_mem_append.2 ⟨fun a ha => ?_, fun a ha => ?_⟩
    · exact (spans_inside hs (hlines.trans hparts).subset hn a ha).trans hinside
    · exact (spans_inside hs (hstatements.trans hparts).subset hn a ha).trans hinside
  · -- the interpreter line comes before the statements
    have hfirst := (hs.lies.inOrder ho).interpreter
    rw [parts_tokens, List.pairwise_map] at hfirst
    have hsplit := filter_append_filter (p := fun b : Branch => !isInterpreter b)
      (hfirst.imp fun {b c} (h : c.kind ≠ _) _ => by simpa [isInterpreter] using h)
    simp only [Bool.not_not] at hsplit
    have hall := hline.append (List.Sublist.refl (s.parts.filter fun b => !isInterpreter b))
    rw [hsplit] at hall
    rw [← spansOf_append]
    exact spans_apart hs (hall.trans hparts) ho

end

end Arbor.Lowering
