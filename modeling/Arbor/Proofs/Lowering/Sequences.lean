import Arbor.Proofs.Concrete.Findings
import Arbor.Proofs.Lowering.Grammar
import Arbor.Proofs.Lowering.Patterns

set_option autoImplicit false

/-! # Sequences

Expressions separated by commas form a sequence. A grammar may hold them all in one node, or two at a time in
nodes that are nested to the left, to the right or to both sides. The expressions of a sequence are the parts
around which there are sequences only (`Cst.expressions`), and a sequence becomes one node with all of them, in
document order (`lower_sequence`).

Nested sequences hold their expressions under fields, flat ones do not. What a node becomes does not depend on the
field that holds it (`Lowering.lower_unheld`), so it is the same for both. -/

namespace Arbor

open Lowering (flatSequence isPartToken lower lowered nodeOf sequenceLeaves sequenceLeavesAll siteOf)

namespace Tree

variable {α : Type}

/-- The tree at the end of a way. -/
def at? (t : Tree α) : List Nat → Option (Tree α)
  | [] => some t
  | i :: way => t.children[i]?.bind fun c => c.at? way

@[simp] theorem at?_nil (t : Tree α) : t.at? [] = some t := rfl

@[simp] theorem at?_cons (t : Tree α) (i : Nat) (way : List Nat) :
    t.at? (i :: way) = t.children[i]?.bind fun c => c.at? way := rfl

namespace Place

/-- Whether an expression of a sequence stands here: a part that is no sequence itself, in parts that are all
    sequences. The root of the tree is read as a sequence in any case. -/
def isExpression (p : Place) : Bool :=
  (p.around.all fun t => t.kind = "sequence_expression") && (p.around ++ [p.token]).tail.all isPartToken &&
    p.token.kind != "sequence_expression"

end Place

end Tree

namespace Cst

/-- The expressions of a sequence, in document order. -/
def expressions (t : Cst) : List Cst :=
  (t.places.filter Tree.Place.isExpression).filterMap fun p => t.at? p.path

/-- A node without the field that holds it. -/
def unheld : Cst → Cst
  | .node token note children => .node { token with field? := none } note children

/-! ## The expressions of a sequence, child by child -/

/-- The expressions that a part adds to the sequence around it: its own if it is a sequence itself. -/
def added (c : Cst) : List Cst := if c.kind = "sequence_expression" then c.expressions else [c]

section

variable {token : Token} {c : Cst}

/-- Around a place in a child stands the child, unless the place is that of the child itself. -/
theorem isExpression_inside (hkind : token.kind = "sequence_expression") {p : Tree.Place} (hp : p ∈ c.places)
    (i : Nat) :
    (p.inside token i).isExpression =
      (c.isPart && if c.kind = "sequence_expression" then p.isExpression else p.around.isEmpty) := by
  obtain ⟨rest, hrest⟩ := Tree.exists_tokens_of_mem_places hp
  have hpart : c.isPart = isPartToken c.token := rfl
  have hall : (p.inside token i).isExpression =
      ((p.around.all fun t => t.kind = "sequence_expression") && (isPartToken c.token && rest.all isPartToken) &&
        p.token.kind != "sequence_expression") := by
    simp [Tree.Place.isExpression, hkind, hrest]
  rw [hall, hpart]
  by_cases hsequence : c.kind = "sequence_expression"
  · rw [if_pos hsequence, Tree.Place.isExpression, hrest, List.tail_cons]
    grind
  · rw [if_neg hsequence]
    -- a place below the child has the child around it, which is no sequence
    cases haround : p.around with
    | nil =>
      rw [haround, List.nil_append, List.cons.injEq] at hrest
      obtain ⟨htoken, rfl⟩ := hrest
      have hother : p.token.kind ≠ "sequence_expression" := by rwa [htoken]
      simp [hother]
    | cons t around =>
      rw [haround, List.cons_append, List.cons.injEq] at hrest
      have hother : t.kind ≠ "sequence_expression" := by rwa [hrest.1]
      simp [hother]

/-- A place that no node is around is that of the tree itself. -/
theorem filter_root_places (c : Cst) :
    c.places.filter (fun p => p.around.isEmpty) = [⟨[], [], c.token⟩] := by
  cases c with
  | node token note children =>
    have hnone : (Tree.placesFrom token 0 children).filter (fun p => p.around.isEmpty) = [] := by
      rw [List.filter_eq_nil_iff]
      intro p hp
      obtain ⟨j, d, -, q, -, rfl⟩ := Tree.mem_placesFrom.1 hp
      simp
    simp [Tree.places, hnone]

/-- The expressions at the places of a child are those that it adds as a part. -/
theorem expressions_child (hkind : token.kind = "sequence_expression") (i : Nat) {t : Cst}
    (hc : t.children[i]? = some c) :
    ((c.places.map (Tree.Place.inside token i)).filter Tree.Place.isExpression).filterMap (fun p => t.at? p.path) =
      if c.isPart then c.added else [] := by
  have hfilter : (c.places.map (Tree.Place.inside token i)).filter Tree.Place.isExpression =
      (c.places.filter fun p =>
        c.isPart && if c.kind = "sequence_expression" then p.isExpression else p.around.isEmpty).map
          (Tree.Place.inside token i) := by
    rw [List.filter_map]
    congr 1
    exact List.filter_congr fun p hp => isExpression_inside hkind hp i
  have hat : (fun p : Tree.Place => t.at? p.path) ∘ Tree.Place.inside token i = fun p => c.at? p.path := by
    funext p
    simp [hc]
  rw [hfilter, List.filterMap_map, hat, added]
  by_cases hpart : c.isPart = true
  · by_cases hsequence : c.kind = "sequence_expression"
    · simp [hpart, hsequence, expressions]
    · simp [hpart, hsequence, filter_root_places]
  · simp [hpart]

/-- The expressions of a sequence are those that its parts add, one after another. -/
theorem expressions_eq {t : Cst} (ht : t.kind = "sequence_expression") : t.expressions = t.parts.flatMap added := by
  -- the children from the `i`-th on
  have hfrom (i : Nat) (children : List Cst) (hchildren : t.children.drop i = children) :
      ((Tree.placesFrom t.token i children).filter Tree.Place.isExpression).filterMap (fun p => t.at? p.path) =
        (children.filter Tree.isPart).flatMap added := by
    induction children generalizing i with
    | nil => rfl
    | cons c rest ih =>
      have hc : t.children[i]? = some c := by
        rw [← List.head?_drop, hchildren, List.head?_cons]
      have hrest : t.children.drop (i + 1) = rest := by
        rw [← List.tail_drop, hchildren, List.tail_cons]
      rw [Tree.placesFrom, List.filter_append, List.filterMap_append, expressions_child ht i hc, ih (i + 1) hrest]
      by_cases hpart : c.isPart = true
      · simp [hpart]
      · simp [hpart]
  have hroot : t.places = ⟨[], [], t.token⟩ :: Tree.placesFrom t.token 0 t.children := by
    cases t
    rw [Tree.places]
    rfl
  have hself : Tree.Place.isExpression ⟨[], [], t.token⟩ = false := by
    simp [Tree.Place.isExpression, show t.token.kind = "sequence_expression" from ht]
  rw [expressions, hroot, List.filter_cons_of_neg (by simp [hself]), hfrom 0 _ (List.drop_zero ..)]
  rfl

end

end Cst

namespace Lowering

variable {source : Source}

/-! ## What holds a node -/

/-- How a field is filled does not depend on the field that holds the node. -/
theorem fill_unheld (filler : Filler) (token : Token) (branches : List Branch) :
    filler.fill source ⟨{ token with field? := none }, branches⟩ = filler.fill source ⟨token, branches⟩ := by
  cases filler <;> rfl

theorem fillAll_unheld (fields : List (String × Filler)) (token : Token) (branches : List Branch) :
    fillAll source ⟨{ token with field? := none }, branches⟩ fields = fillAll source ⟨token, branches⟩ fields := by
  induction fields with
  | nil => rfl
  | cons f rest ih =>
    obtain ⟨name, filler⟩ := f
    rw [fillAll, fillAll, fill_unheld, ih]

/-- A rule does not look at the field that holds the node. -/
theorem rule_lower_unheld (rule : Rule) (parent? : Option String) (token : Token) (branches : List Branch) :
    rule.lower source parent? ⟨{ token with field? := none }, branches⟩ =
      rule.lower source parent? ⟨token, branches⟩ := by
  cases rule with
  | node type fields =>
    rw [Rule.lower, Rule.lower, fillAll_unheld]
    rfl
  | replaced filler => rw [Rule.lower, Rule.lower, fill_unheld]
  | _ => rfl

/-- What a node becomes does not depend on the field that holds it. -/
theorem lower_unheld (parent? : Option String) (t : Cst) :
    lower source parent? t.unheld = lower source parent? t := by
  cases t with
  | node token note children =>
    have hskip : Token.isSkipped { token with field? := none } = token.isSkipped := rfl
    rw [Cst.unheld, lower, lower, lowered, lowered, Branch.value, Branch.value, Tree.note_node, Tree.note_node,
      readingOf, readingOf, hskip]
    by_cases h : token.isSkipped = true
    · rw [if_pos h, if_pos h]
    · rw [if_neg h, if_neg h]
      exact rule_lower_unheld _ _ _ _

/-! ## Sequences -/

/-- What is no sequence is an expression of its own. -/
theorem sequenceLeaves_other {b : Branch} (hb : b.kind ≠ "sequence_expression") : sequenceLeaves b = [b] := by
  cases b with
  | node token reading children =>
    have hkind : token.kind ≠ "sequence_expression" := hb
    rw [sequenceLeaves, if_neg hkind]

theorem sequenceLeaves_sequence {b : Branch} (hb : b.kind = "sequence_expression") :
    sequenceLeaves b = sequenceLeavesAll b.site.children := by
  cases b with
  | node token reading children =>
    have hkind : token.kind = "sequence_expression" := hb
    rw [sequenceLeaves, if_pos hkind]
    rfl

/-- The expressions that a sequence is lowered to are its expressions, lowered. -/
theorem sequenceLeavesAll_siteOf {t : Cst} (ht : t.kind = "sequence_expression") :
    sequenceLeavesAll (siteOf source t).children =
      t.expressions.map (lowered source (some "sequence_expression")) := by
  induction t using Tree.induction with
  | node token note children ih =>
    -- a part adds the same before and after it is lowered; its parent is a sequence wherever it stands
    have hadded : ∀ c ∈ Tree.parts (.node token note children),
        sequenceLeaves (lowered source (some "sequence_expression") c) =
          (Cst.added c).map (lowered source (some "sequence_expression")) := by
      intro c hc
      rw [Cst.added]
      by_cases hsequence : c.kind = "sequence_expression"
      · rw [if_pos hsequence, sequenceLeaves_sequence ((kind_lowered ..).trans hsequence), site_lowered]
        exact ih c (List.mem_filter.1 hc).1 hsequence
      · rw [if_neg hsequence, List.map_singleton]
        exact sequenceLeaves_other (by rwa [kind_lowered])
    have hparts : (siteOf source (.node token note children)).children.filter Tree.isPart = _ := parts_siteOf
    rw [ht] at hparts
    rw [sequenceLeavesAll_eq, hparts, List.flatMap_map, List.flatMap_congr hadded, Cst.expressions_eq ht,
      List.map_flatMap]

/-- What several nodes become does not depend on the fields that hold them. -/
theorem mapM_lower_unheld {ts us : List Cst} (h : ts.map Cst.unheld = us.map Cst.unheld)
    (parent? : Option String) : ts.mapM (lower source parent?) = us.mapM (lower source parent?) := by
  have hunheld (l : List Cst) : (l.map Cst.unheld).mapM (lower source parent?) = l.mapM (lower source parent?) := by
    rw [List.mapM_map]
    exact congrArg (l.mapM ·) (funext (lower_unheld parent?))
  rw [← hunheld ts, h, hunheld]

/-- A sequence becomes a node with what its expressions become, without those that become nothing. -/
theorem lower_sequence_eq {t : Cst} (ht : t.kind = "sequence_expression") (parent? : Option String) :
    lower source parent? t = (do
      let values ← t.expressions.mapM (lower source (some "sequence_expression"))
      pure (nodeOf "SequenceExpression" t.token [("expressions", .list (values.filter fun v => !v.isNull))])) := by
  have hrule : ruleOf t.kind = .sequence := by
    rw [ht]
    rfl
  rw [lower_eq hrule (by simp), Rule.lower, flatSequence, sequenceLeavesAll_siteOf ht, valuesOf, List.mapM_map,
    bind_assoc]
  rfl

end Lowering

/-- Sequences with the same range and the same expressions become the same, however they are nested, and under
    whatever fields they hold their expressions. What they become is a node with all that their expressions become,
    in document order, without those that become nothing. -/
theorem lower_sequence {s t : Cst} (hs : s.kind = "sequence_expression") (ht : t.kind = "sequence_expression")
    (hstart : s.token.start = t.token.start) (hstop : s.token.stop = t.token.stop)
    (hexpressions : s.expressions.map Cst.unheld = t.expressions.map Cst.unheld) (source : Source)
    (around around' : Option String) :
    lower source around s = lower source around' t ∧
      lower source around s = (do
        let values ← s.expressions.mapM (lower source (some "sequence_expression"))
        pure (nodeOf "SequenceExpression" s.token [("expressions", .list (values.filter fun v => !v.isNull))])) := by
  have hvalues : s.expressions.mapM (lower source (some "sequence_expression")) =
      t.expressions.mapM (lower source (some "sequence_expression")) :=
    Lowering.mapM_lower_unheld hexpressions _
  refine ⟨?_, Lowering.lower_sequence_eq hs around⟩
  rw [Lowering.lower_sequence_eq hs, Lowering.lower_sequence_eq ht, hvalues]
  simp only [nodeOf, hstart, hstop]

namespace Sample

/-- The source `a,b,/**/(c,d)`. -/
def sequenceSource : Source := .ofText "a,b,/**/(c,d)"

/-- A sequence in parentheses, which is one expression of the sequence around it. -/
def enclosedSequence (field? : Option String) : Cst :=
  .branch "parenthesized_expression" 8 13 field? [
    .leaf "(" false 8 9 none,
    .branch "sequence_expression" 9 12 none [
      .leaf "identifier" true 9 10 none,
      .leaf "," false 10 11 none,
      .leaf "identifier" true 11 12 none],
    .leaf ")" false 12 13 none]

/-- The sequence as two that are nested to the left. -/
def nestedSequence : Cst :=
  .branch "sequence_expression" 0 13 none [
    .branch "sequence_expression" 0 3 (some "left") [
      .leaf "identifier" true 0 1 (some "left"),
      .leaf "," false 1 2 none,
      .leaf "identifier" true 2 3 (some "right")],
    .leaf "," false 3 4 none,
    .leaf "comment" true 4 8 none,
    enclosedSequence (some "right")]

/-- The sequence as one node. -/
def plainSequence : Cst :=
  .branch "sequence_expression" 0 13 none [
    .leaf "identifier" true 0 1 none,
    .leaf "," false 1 2 none,
    .leaf "identifier" true 2 3 none,
    .leaf "," false 3 4 none,
    .leaf "comment" true 4 8 none,
    enclosedSequence none]

/-- Both become the same node, which has three expressions. -/
theorem lower_sequence_nested :
    nestedSequence.expressions.map Cst.unheld = plainSequence.expressions.map Cst.unheld ∧
      lower sequenceSource none nestedSequence = lower sequenceSource none plainSequence ∧
      ∃ values, values.length = 3 ∧ lower sequenceSource none plainSequence =
        .ok (nodeOf "SequenceExpression" plainSequence.token [("expressions", .list values)]) := by
  have hexpressions : nestedSequence.expressions.map Cst.unheld = plainSequence.expressions.map Cst.unheld := rfl
  obtain ⟨hsame, -⟩ := lower_sequence rfl rfl rfl rfl hexpressions sequenceSource none none
  exact ⟨hexpressions, hsame, _, rfl, rfl⟩

end Sample

end Arbor
