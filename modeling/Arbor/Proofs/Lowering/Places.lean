import Arbor.Lowering.Program
import Arbor.Proofs.Concrete.Tree
import Mathlib.Data.List.Basic

set_option autoImplicit false

/-! # Places without their comments

A rule picks what it needs among the parts of a node, by field, by position or by token, and these are the
same in the pruned node. So every way to fill a field comes to the same there (`Lowering.fillAll_pruned`).
Only the words that a rule reads without asking what they are must be no comments themselves
(`Lowering.Clear`). -/

namespace Arbor.Lowering

open Arbor.Tree

/-! ## Picking children -/

/-- The expressions of several nodes are those of the parts among them. -/
theorem sequenceLeavesAll_eq (branches : List Branch) :
    sequenceLeavesAll branches = (branches.filter isPart).flatMap sequenceLeaves := by
  induction branches with
  | nil => rfl
  | cons b rest ih => cases hb : b.isPart <;> simp [sequenceLeavesAll, hb, ih]

/-- The parts of several nodes, with their positions counted from `start` on. -/
def placedParts (branches : List Branch) (start : Nat) : List Placed :=
  (branches.zipIdx start).filter fun p => p.1.isPart

/-- A tag is one of the parts. -/
theorem mem_of_tagOf {parts : List Placed} {field kind : String} {fallback? : Option Placed} {p : Placed}
    (hfallback : ∀ q, fallback? = some q → q ∈ parts)
    (h : tagOf parts field kind fallback? = some p) : p ∈ parts := by
  unfold tagOf at h
  split at h
  · next q hq =>
    cases h
    exact List.mem_of_find?_eq_some hq
  · cases fallback? with
    | none => cases h
    | some q =>
      obtain ⟨rfl, -⟩ : q = p ∧ p.1.kind = kind := by simpa using h
      exact hfallback q rfl

/-! ## Parameters -/

/-- What a parameter with a pattern becomes, once it is known whether it is optional. -/
def typedPattern (source : Source) (s : Site) (pattern : Value) : Except Fault Value := do
  let pattern ← withType pattern (s.field? "type") true
  let pattern ← withAccess source pattern s.parts
  let value ← valueOf (s.field? "value")
  if value.isNull then pure pattern
  else pure (nodeOf "AssignmentPattern" s.token [("left", pattern), ("right", value)])

theorem typedParameter_eq (source : Source) (s : Site) (optional : Bool) :
    typedParameter source s optional = (do
      let pattern ← valueOf (s.field? "pattern")
      if pattern.isNull then pure .null
      else if optional then do typedPattern source s (← setField pattern "optional" (.bool true))
      else typedPattern source s pattern) := by
  cases optional <;> rfl

/-! ## Lowered trees -/

theorem loweredAll_eq (source : Source) (parent? : Option String) (ts : List Cst) :
    loweredAll source parent? ts = ts.map (lowered source parent?) := by
  induction ts with
  | nil => rfl
  | cons t rest ih => rw [loweredAll, ih, List.map_cons]

@[simp] theorem token_lowered (source : Source) (parent? : Option String) (t : Cst) :
    (lowered source parent? t).token = t.token := by
  cases t
  rfl

@[simp] theorem kind_lowered (source : Source) (parent? : Option String) (t : Cst) :
    (lowered source parent? t).kind = t.kind := by
  rw [Tree.kind, token_lowered, Tree.kind]

/-! ## Pruned places -/

/-- A place without the nodes that are left out. -/
def Site.pruned (s : Site) : Site := ⟨s.token, prunedAll s.children⟩

/-- The fields in which a rule looks for a word, whatever it is. -/
def wordFields : List String := ["kind", "operator", "optional_chain"]

/-- A node with the given token and children is clear when the words that its rule looks for are no comments,
    and a declaration has its word. -/
structure Clear {α : Type} (t : Token) (children : List (Tree α)) : Prop where
  words : ∀ b ∈ children, b.token.isSkipped = true → ∀ field ∈ wordFields, b.token.field? ≠ some field
  declares : t.kind = "lexical_declaration" → ∃ b ∈ children, b.token.field? = some "kind"

instance {α : Type} (t : Token) (children : List (Tree α)) : Decidable (Clear t children) :=
  decidable_of_iff
    ((∀ b ∈ children, b.token.isSkipped = true → ∀ field ∈ wordFields, b.token.field? ≠ some field) ∧
      (t.kind = "lexical_declaration" → ∃ b ∈ children, b.token.field? = some "kind"))
    ⟨fun h => ⟨h.1, h.2⟩, fun h => ⟨h.words, h.declares⟩⟩

section

variable (s : Site) (b : Branch)

@[simp] theorem value_pruned : Branch.value b.pruned = b.value := by
  simp [Branch.value]

@[simp] theorem site_pruned : Branch.site b.pruned = b.site.pruned := by
  simp [Branch.site, Site.pruned]

@[simp] theorem token_pruned : s.pruned.token = s.token := rfl

@[simp] theorem children_pruned : s.pruned.children = prunedAll s.children := rfl

@[simp] theorem parts_pruned : s.pruned.parts = s.parts.map pruned :=
  filter_prunedAll _ isPart_pruned (fun _ => not_isSkipped_of_isPart) s.children

@[simp] theorem partsOf_pruned (kind : String) :
    s.pruned.partsOf kind = (s.partsOf kind).map pruned := by
  simp [Site.partsOf, List.filter_map, Function.comp_def]

@[simp] theorem fieldAll_pruned (field : String) :
    s.pruned.fieldAll field = (s.fieldAll field).map pruned := by
  simp [Site.fieldAll, List.filter_map, Function.comp_def]

@[simp] theorem field?_pruned (field : String) :
    s.pruned.field? field = (s.field? field).map pruned := by
  simp [Site.field?]

@[simp] theorem first?_pruned : s.pruned.first? = s.first?.map pruned := by
  simp [Site.first?]

/-- A token that is asked for by its kind is no comment. -/
theorem isSkipped_of_kind {t : Token} {kind : String} (h : kind ∉ Token.skippedKinds)
    (ht : t.kind = kind) : t.isSkipped = false := by
  rw [Bool.eq_false_iff, ne_eq, Token.isSkipped_iff, ht]
  exact h

theorem any_prunedAll {p : Token → Bool} (hp : ∀ t, p t = true → t.isSkipped = false)
    (branches : List Branch) :
    ((prunedAll branches).any fun b => p b.token) = branches.any fun b => p b.token := by
  induction branches with
  | nil => rfl
  | cons c rest ih =>
    rw [prunedAll]
    cases hc : c.token.isSkipped with
    | false => simp [ih]
    | true =>
      have hno : p c.token = false := by
        rw [Bool.eq_false_iff]
        intro hyes
        simp [hp c.token hyes] at hc
      simp [hno, ih]

theorem hasToken_pruned {token : String} (h : token ∉ Token.skippedKinds) :
    s.pruned.hasToken token = s.hasToken token := by
  refine any_prunedAll (p := fun t => !t.named && decide (t.kind = token)) ?_ s.children
  intro t ht
  simp only [Bool.and_eq_true, decide_eq_true_eq] at ht
  exact isSkipped_of_kind h ht.2

theorem hasTokenBefore_pruned {token : String} (h : token ∉ Token.skippedKinds)
    (boundary? : Option Branch) :
    s.pruned.hasTokenBefore token (boundary?.map pruned) = s.hasTokenBefore token boundary? := by
  have hbefore (limit : Nat) :
      ((prunedAll s.children).any fun b =>
        !b.token.named && decide (b.kind = token) && decide (b.token.start < limit)) =
      s.children.any fun b =>
        !b.token.named && decide (b.kind = token) && decide (b.token.start < limit) := by
    refine any_prunedAll
      (p := fun t => !t.named && decide (t.kind = token) && decide (t.start < limit)) ?_ s.children
    intro t ht
    simp only [Bool.and_eq_true, decide_eq_true_eq] at ht
    exact isSkipped_of_kind h ht.1.2
  cases boundary? with
  | none => exact hbefore s.token.stop
  | some b =>
    simp only [Site.hasTokenBefore, Option.map_some, Tree.token_pruned]
    exact hbefore b.token.start

/-- The word that a rule looks for stays. -/
theorem mark?_pruned {s : Site} (hs : Clear s.token s.children) {field : String}
    (hfield : field ∈ wordFields) : s.pruned.mark? field = (s.mark? field).map pruned := by
  have hwords := hs.words
  simp only [Site.mark?, children_pruned]
  clear hs
  generalize s.children = branches at hwords
  induction branches with
  | nil => rfl
  | cons c rest ih =>
    obtain ⟨hc, hrest⟩ := List.forall_mem_cons.1 hwords
    rw [prunedAll]
    cases hskip : c.token.isSkipped with
    | true =>
      have hno : c.token.field? ≠ some field := hc hskip field hfield
      simp [hno, ih hrest]
    | false =>
      by_cases hyes : c.token.field? = some field
      · simp [hyes]
      · simp [hyes, ih hrest]

end

/-! ## What the children become -/

section

variable (s : Site) (b? : Option Branch) (branches : List Branch)

@[simp] theorem valueOf_pruned : valueOf (b?.map pruned) = valueOf b? := by
  cases b? <;> simp [valueOf]

theorem mapM_pruned {β : Type} {f : Branch → Except Fault β} (hf : ∀ b, f b.pruned = f b) :
    (branches.map pruned).mapM f = branches.mapM f := by
  rw [List.mapM_map]
  exact congrArg (branches.mapM ·) (funext hf)

@[simp] theorem valuesOf_pruned : valuesOf (branches.map pruned) = valuesOf branches := by
  rw [valuesOf, mapM_pruned branches value_pruned, valuesOf]

@[simp] theorem sequenceOf_pruned (t : Token) :
    sequenceOf t (branches.map pruned) = sequenceOf t branches := by
  unfold sequenceOf
  rcases branches with _ | ⟨b, _ | ⟨c, rest⟩⟩
  · rfl
  · simp
  · have hvalues := valuesOf_pruned (b :: c :: rest)
    simp only [List.map_cons] at hvalues ⊢
    rw [hvalues]

@[simp] theorem expressionOf_pruned : expressionOf s.pruned = expressionOf s := by
  unfold expressionOf
  rw [parts_pruned]
  cases s.parts with
  | nil => rfl
  | cons b rest =>
    have hsequence := sequenceOf_pruned (b :: rest) s.token
    simpa using hsequence

@[simp] theorem firstOf_pruned : firstOf s.pruned = firstOf s := by
  simp [firstOf]

theorem elementsOf_pruned (pending : Bool) :
    elementsOf pending (prunedAll branches) = elementsOf pending branches := by
  induction branches generalizing pending with
  | nil => rfl
  | cons c rest ih =>
    rw [prunedAll]
    cases hskip : c.token.isSkipped with
    | true =>
      have hcomma : c.kind ≠ "," := fun h =>
        absurd (isSkipped_of_kind (by decide) h) (by simp [hskip])
      have hpart : c.isPart = false := by simp [isPart, hskip]
      simp [elementsOf, hcomma, hpart, ih]
    | false => simp [elementsOf, ih]

@[simp] theorem clauseOf_pruned : clauseOf (b?.map pruned) = clauseOf b? := by
  cases b? <;> simp [clauseOf]

@[simp] theorem isComputed_pruned : isComputed (b?.map pruned) = isComputed b? := by
  cases b? <;> simp [isComputed]

@[simp] theorem keyOf_pruned : keyOf (b?.map pruned) = keyOf b? := by
  cases b? <;> simp [keyOf]

@[simp] theorem membersOf_pruned (source : Source) :
    membersOf source (branches.map pruned) = membersOf source branches := by
  rw [membersOf, mapM_pruned branches (by simp), membersOf]

@[simp] theorem paramsOf_pruned : paramsOf (b?.map pruned) = paramsOf b? := by
  cases b? with
  | none => rfl
  | some b =>
    have hsingle := valuesOf_pruned [b]
    simp only [List.map_cons, List.map_nil] at hsingle
    simp [paramsOf, hsingle]

@[simp] theorem decoratorsOf_pruned : decoratorsOf s.pruned = decoratorsOf s := by
  unfold decoratorsOf
  rw [fieldAll_pruned, partsOf_pruned, valuesOf_pruned]
  cases s.fieldAll "decorator" with
  | nil => rfl
  | cons b rest => simpa using valuesOf_pruned (b :: rest)

theorem orElse_pruned (c? : Option Branch) :
    (b?.map pruned <|> c?.map pruned) = (b? <|> c?).map pruned := by
  cases b? <;> rfl

theorem heritageClauses_pruned (base : Value) (implemented : List Value) :
    heritageClauses base implemented (branches.map pruned) =
      heritageClauses base implemented branches := by
  induction branches generalizing base implemented with
  | nil => rfl
  | cons b rest ih => simp [heritageClauses, ih, orElse_pruned]

@[simp] theorem heritageOf_pruned : heritageOf s.pruned = heritageOf s := by
  unfold heritageOf
  rw [partsOf_pruned, List.getLast?_map]
  cases (s.partsOf "class_heritage").getLast? <;> simp [heritageClauses_pruned]

theorem importSpecifierOf_pruned (b : Branch) :
    importSpecifierOf b.pruned = importSpecifierOf b := by
  simp [importSpecifierOf, orElse_pruned]

theorem clauseSpecifiers_pruned (b : Branch) : clauseSpecifiers b.pruned = clauseSpecifiers b := by
  simp [clauseSpecifiers, mapM_pruned _ importSpecifierOf_pruned]

@[simp] theorem importSpecifiersOf_pruned : importSpecifiersOf s.pruned = importSpecifiersOf s := by
  have hclauses : (s.pruned.partsOf "import_clause").flatMap (fun clause => clause.site.parts) =
      ((s.partsOf "import_clause").flatMap fun clause => clause.site.parts).map pruned := by
    simp [List.flatMap_map, List.map_flatMap]
  rw [importSpecifiersOf, hclauses, mapM_pruned _ clauseSpecifiers_pruned, importSpecifiersOf]

@[simp] theorem jsxAttributesOf_pruned : jsxAttributesOf s.pruned = jsxAttributesOf s := by
  have hloose : (s.pruned.parts.filter fun b => b.kind = "jsx_attribute" || b.kind = "jsx_expression") =
      (s.parts.filter fun b => b.kind = "jsx_attribute" || b.kind = "jsx_expression").map pruned := by
    simp [List.filter_map, Function.comp_def]
  unfold jsxAttributesOf
  rw [fieldAll_pruned, hloose, valuesOf_pruned]
  cases s.fieldAll "attribute" with
  | nil => rfl
  | cons b rest => simpa using valuesOf_pruned (b :: rest)

@[simp] theorem jsxNameOf_pruned : jsxNameOf (b?.map pruned) = jsxNameOf b? := by
  cases b? <;> simp [jsxNameOf]

@[simp] theorem jsxOpeningOf_pruned (selfClosing : Bool) :
    jsxOpeningOf s.pruned selfClosing = jsxOpeningOf s selfClosing := by
  unfold jsxOpeningOf
  rw [field?_pruned, field?_pruned, jsxNameOf_pruned, jsxAttributesOf_pruned]
  cases s.field? "type_arguments" <;> simp

@[simp] theorem typeOf_pruned (source : Source) :
    typeOf source (b?.map pruned) = typeOf source b? := by
  cases b? <;> simp [typeOf]

@[simp] theorem withType_pruned (pattern : Value) (extend : Bool) :
    withType pattern (b?.map pruned) extend = withType pattern b? extend := by
  cases b? <;> simp [withType]

theorem findSome?_field?_pruned (fields : List String) :
    fields.findSome? s.pruned.field? = (fields.findSome? s.field?).map pruned := by
  induction fields with
  | nil => rfl
  | cons field rest ih =>
    rw [List.findSome?_cons, List.findSome?_cons, field?_pruned, ih]
    cases s.field? field <;> rfl

end

/-! ## Filling fields -/

/-- What a filler asks of a place beyond its parts: that the token it looks for is no comment, and that there
    is a word if it reads one. -/
def Filler.Steady (s : Site) : Filler → Prop
  | token t => t ∉ Token.skippedKinds
  | tokenBefore t _ => t ∉ Token.skippedKinds
  | declarationWord => ∃ b, s.mark? "kind" = some b
  | _ => True

section

variable {s : Site} (hs : Clear s.token s.children) (source : Source)

include hs

@[simp] theorem operatorOf_pruned : operatorOf source s.pruned = operatorOf source s := by
  unfold operatorOf
  rw [mark?_pruned hs (by decide)]
  cases s.mark? "operator" <;> simp

theorem fill_pruned {filler : Filler} (hf : filler.Steady s) :
    filler.fill source s.pruned = filler.fill source s := by
  cases filler with
  | token t => simp only [Filler.fill, hasToken_pruned s hf]
  | tokenBefore t field => simp only [Filler.fill, field?_pruned, hasTokenBefore_pruned s hf]
  | importKind => simp only [Filler.fill, hasToken_pruned s (show "type" ∉ Token.skippedKinds by decide)]
  | declarationWord =>
    obtain ⟨b, hb⟩ := hf
    simp only [Filler.fill, mark?_pruned hs (show "kind" ∈ wordFields by decide), hb, Option.map_some,
      Tree.token_pruned]
  | operator => simp only [Filler.fill, operatorOf_pruned hs]
  | operatorFirst =>
    simp only [Filler.fill, mark?_pruned hs (show "operator" ∈ wordFields by decide), field?_pruned]
    cases s.mark? "operator" <;> cases s.field? "argument" <;> simp
  | childIfAny field =>
    simp only [Filler.fill, field?_pruned]
    cases s.field? field <;> simp
  | lastOfMany =>
    have hlast : (s.pruned.parts.drop 1).getLast? = (s.parts.drop 1).getLast?.map pruned := by
      rw [parts_pruned, ← List.map_drop, List.getLast?_map]
    simp only [Filler.fill, hlast, valueOf_pruned]
  | allWithin field =>
    simp only [Filler.fill, field?_pruned]
    cases s.field? field <;> simp
  | elements => simp only [Filler.fill, children_pruned, elementsOf_pruned]
  | params fields => simp only [Filler.fill, findSome?_field?_pruned, paramsOf_pruned]
  | expressionBody =>
    simp only [Filler.fill, field?_pruned]
    cases s.field? "body" <;> simp
  | arguments =>
    simp only [Filler.fill, field?_pruned]
    cases s.field? "arguments" <;> simp
  | regex =>
    simp only [Filler.fill, field?_pruned]
    cases s.field? "pattern" <;> cases s.field? "flags" <;> simp
  | types =>
    have htype (b : Branch) : typeOf source (some b.pruned) = typeOf source (some b) := by
      simpa using typeOf_pruned (some b) source
    simp only [Filler.fill, parts_pruned]
    rw [mapM_pruned s.parts (f := fun b => typeOf source (some b)) htype]
  | typeAt position => simp only [Filler.fill, parts_pruned, List.getElem?_map, typeOf_pruned]
  | typeWithin field =>
    have hfirst : ((s.pruned.field? field).bind fun b => b.site.first?) =
        ((s.field? field).bind fun b => b.site.first?).map pruned := by
      rw [field?_pruned]
      cases s.field? field <;> simp
    simp only [Filler.fill, hfirst, typeOf_pruned]
  | bigint => rfl
  | _ => simp [Filler.fill]

theorem fillAll_pruned {fields : List (String × Filler)}
    (hf : ∀ field ∈ fields, field.2.Steady s) :
    fillAll source s.pruned fields = fillAll source s fields := by
  induction fields with
  | nil => rfl
  | cons field rest ih =>
    obtain ⟨hfirst, hrest⟩ := List.forall_mem_cons.1 hf
    rw [fillAll, fillAll, fill_pruned hs source hfirst, ih hrest]

end

end Arbor.Lowering
