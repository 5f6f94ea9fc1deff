import Arbor.Proofs.Lowering.Elisions

set_option autoImplicit false

/-! # Template literals

Between its delimiters a template literal consists of literal text and substitutions, by turns. Only the
substitutions are nodes of the syntax tree; a stretch of text reaches from one substitution to the next, and may
be empty. The ranges of both tile the literal (`ByteRange.Tile`), so nothing of the source is lost between them
(`Source.bytesIn_tile`), and each substitution that becomes an expression has it stand between the two stretches
around the substitution (`lower_template`). -/

namespace Arbor

open Lowering (expressionOf lower lowered nodeAt nodeOf siteOf templateElement templateParts)

/-! ## Ranges -/

/-- A range of bytes of a source. -/
structure ByteRange where
  start : Nat
  stop : Nat
  deriving DecidableEq

def Token.range (t : Token) : ByteRange := ⟨t.start, t.stop⟩

/-- The bytes of a source in a range. -/
def Source.bytesIn (source : Source) (r : ByteRange) : List UInt8 := (source.bytes.extract r.start r.stop).toList

namespace ByteRange

/-- Ranges that begin where the one before ends, from `start` up to `stop`. -/
def Tile (start stop : Nat) : List ByteRange → Prop
  | [] => start = stop
  | r :: rest => r.start = start ∧ r.start ≤ r.stop ∧ Tile r.stop stop rest

/-- Ranges that come one after another between `start` and `stop`. -/
def Follow (start stop : Nat) : List ByteRange → Prop
  | [] => start ≤ stop
  | r :: rest => start ≤ r.start ∧ r.start ≤ r.stop ∧ Follow r.stop stop rest

/-- What several ranges leave free between `start` and `stop`: a range before each of them, and one after the
    last. -/
def gaps (start stop : Nat) : List ByteRange → List ByteRange
  | [] => [⟨start, stop⟩]
  | r :: rest => ⟨start, r.start⟩ :: gaps r.stop stop rest

/-- Two lists of ranges by turns, beginning with the first list. -/
def alternate : List ByteRange → List ByteRange → List ByteRange
  | r :: rest, s :: more => r :: s :: alternate rest more
  | rest, _ => rest

variable {start stop : Nat} {ranges : List ByteRange}

theorem length_gaps : (gaps start stop ranges).length = ranges.length + 1 := by
  induction ranges generalizing start with
  | nil => rfl
  | cons r rest ih => simp [gaps, ih]

/-- Ranges and what they leave free make up the whole. -/
theorem Follow.tile (h : Follow start stop ranges) : Tile start stop (alternate (gaps start stop ranges) ranges) := by
  induction ranges generalizing start with
  | nil => exact ⟨rfl, h, rfl⟩
  | cons r rest ih =>
    obtain ⟨hbefore, hrange, hrest⟩ := h
    exact ⟨rfl, hbefore, rfl, hrange, ih hrest⟩

theorem Tile.le (h : Tile start stop ranges) : start ≤ stop := by
  induction ranges generalizing start with
  | nil => exact Nat.le_of_eq h
  | cons r rest ih =>
    obtain ⟨hstart, hrange, hrest⟩ := h
    have := ih hrest
    omega

/-- Ranges in order come one after another. -/
theorem follow_of_pairwise (hwide : start ≤ stop)
    (hin : ∀ r ∈ ranges, start ≤ r.start ∧ r.start ≤ r.stop ∧ r.stop ≤ stop)
    (hord : ranges.Pairwise fun r s => r.stop ≤ s.start) : Follow start stop ranges := by
  induction ranges generalizing start with
  | nil => exact hwide
  | cons r rest ih =>
    obtain ⟨hr, hrest⟩ := List.forall_mem_cons.1 hin
    obtain ⟨hafter, hord⟩ := List.pairwise_cons.1 hord
    exact ⟨hr.1, hr.2.1, ih hr.2.2 (fun s hs => ⟨hafter s hs, (hrest s hs).2⟩) hord⟩

/-- The first gap begins where the whole does. -/
theorem start_of_gaps {r : ByteRange} (h : (gaps start stop ranges)[0]? = some r) : r.start = start := by
  cases ranges with
  | nil =>
    obtain rfl : (⟨start, stop⟩ : ByteRange) = r := by simpa [gaps] using h
    rfl
  | cons q rest =>
    obtain rfl : (⟨start, q.start⟩ : ByteRange) = r := by simpa [gaps] using h
    rfl

/-- Between two gaps next to each other lies one range, from the end of the first to the start of the second. -/
theorem gaps_between {i : Nat} {r s : ByteRange} (hr : (gaps start stop ranges)[i]? = some r)
    (hs : (gaps start stop ranges)[i + 1]? = some s) : ranges[i]? = some ⟨r.stop, s.start⟩ := by
  induction ranges generalizing start i with
  | nil => simp [gaps] at hs
  | cons q rest ih =>
    rw [gaps] at hr hs
    cases i with
    | zero =>
      obtain rfl : (⟨start, q.start⟩ : ByteRange) = r := by simpa using hr
      have hstart : s.start = q.stop := start_of_gaps (by simpa using hs)
      simp [hstart]
    | succ i => simpa using ih (by simpa using hr) (by simpa using hs)

end ByteRange

/-- The bytes of ranges that tile a range are the bytes of that range. -/
theorem Source.bytesIn_tile (source : Source) {start stop : Nat} {ranges : List ByteRange}
    (h : ByteRange.Tile start stop ranges) : ranges.flatMap source.bytesIn = source.bytesIn ⟨start, stop⟩ := by
  induction ranges generalizing start with
  | nil =>
    obtain rfl : start = stop := h
    simp [bytesIn]
  | cons r rest ih =>
    obtain ⟨rfl, hrange, hrest⟩ := h
    have hstop := hrest.le
    rw [List.flatMap_cons, ih hrest, bytesIn, bytesIn, bytesIn, ← Array.toList_append,
      Array.extract_append_extract, Nat.min_eq_left hrange, Nat.max_eq_right hstop]

/-! ## Template literals -/

/-- The substitutions of a template literal. -/
def Cst.substitutions (t : Cst) : List Cst := t.children.filter fun c => c.kind = "template_substitution"

/-- A template literal has room for its delimiters, and its substitutions stand between them, one after another. -/
structure TemplateSyntax (t : Cst) : Prop where
  kind : t.kind = "template_string"
  wide : t.token.start + 2 ≤ t.token.stop
  inside : ∀ c ∈ t.substitutions,
    t.token.start < c.token.start ∧ c.token.start ≤ c.token.stop ∧ c.token.stop < t.token.stop
  ordered : t.substitutions.Pairwise fun b c => b.token.stop ≤ c.token.start

theorem TemplateSyntax.follow {t : Cst} (h : TemplateSyntax t) :
    ByteRange.Follow (t.token.start + 1) (t.token.stop - 1) (t.substitutions.map fun c => c.token.range) := by
  have hwide := h.wide
  refine ByteRange.follow_of_pairwise (by omega) ?_ (List.pairwise_map.2 h.ordered)
  intro r hr
  obtain ⟨c, hc, rfl⟩ := List.mem_map.1 hr
  obtain ⟨hstart, hrange, hstop⟩ := h.inside c hc
  simp only [Token.range]
  omega

/-- A stretch of literal text, with what it denotes. The last one of a template is its tail. -/
structure Quasi where
  range : ByteRange
  cooked : Text
  tail : Bool

/-- The text of a source in a range. -/
def Source.textIn (source : Source) (r : ByteRange) : Text := source.slice r.start r.stop

/-- The node of a stretch of literal text. -/
def Quasi.node (source : Source) (q : Quasi) : Value :=
  nodeAt "TemplateElement" q.range.start q.range.stop [
    ("value", .record [(.text "raw", .text (source.textIn q.range)), (.text "cooked", .text q.cooked)]),
    ("tail", .bool q.tail)]

/-- What the parts of a substitution become, as one expression; null if that is nothing. -/
def contentOf (source : Source) (c : Cst) : Except Fault Value :=
  match c.parts with
  | [] => .ok .null
  | [e] => lower source (some c.kind) e
  | es => do
    let values ← es.mapM (lower source (some c.kind))
    pure (nodeOf "SequenceExpression" c.token [("expressions", .list (values.filter fun v => !v.isNull))])

namespace Lowering

variable {source : Source}

theorem expressionOf_siteOf (c : Cst) : expressionOf (siteOf source c) = contentOf source c := by
  rw [expressionOf, parts_siteOf, contentOf]
  match c.parts with
  | [] => rfl
  | [e] => rfl
  | e :: e' :: es =>
    simp only [List.map_cons, sequenceOf, valuesOf]
    rw [← List.map_cons, ← List.map_cons, List.mapM_map, bind_assoc]
    rfl

/-- Only substitutions make a template more than literal text. -/
theorem templateParts_substitutions (start stop : Nat) (parent? : Option String) (children : List Cst) :
    templateParts source start stop (children.map (lowered source parent?)) =
      templateParts source start stop
        ((children.filter fun c => c.kind = "template_substitution").map (lowered source parent?)) := by
  induction children generalizing start with
  | nil => rfl
  | cons c rest ih =>
    by_cases h : c.kind = "template_substitution"
    · simp [templateParts, h, ih]
    · simp [templateParts, h, ih]

/-- A stretch of literal text becomes a node, unless it cannot be decoded. -/
theorem templateElement_quasi (r : ByteRange) (tail : Bool) :
    Yields (fun f => Literal.unescape (source.textIn r) = .error f)
      (fun v => ∃ q : Quasi, v = q.node source ∧ q.range = r ∧ q.tail = tail ∧
        Literal.unescape (source.textIn r) = .ok q.cooked)
      (templateElement source r.start r.stop tail) := by
  rw [templateElement]
  cases h : Literal.unescape (source.slice r.start r.stop) with
  | error f => exact h
  | ok cooked => exact ⟨⟨r, cooked, tail⟩, rfl, rfl, rfl, h⟩

/-- The fault of a template of which a stretch of text cannot be decoded or a substitution not be lowered. -/
def TemplateFault (source : Source) (stretches : List ByteRange) (substitutions : List Cst) (f : Fault) : Prop :=
  (∃ r ∈ stretches, Literal.unescape (source.textIn r) = .error f) ∨
    ∃ c ∈ substitutions, contentOf source c = .error f

/-- The stretches of literal text of a template, and what its substitutions hold. -/
structure TemplateRead (source : Source) (stretches : List ByteRange) (substitutions : List Cst)
    (quasis : List Quasi) (contents : List Value) : Prop where
  ranges : quasis.map Quasi.range = stretches
  tails : quasis.map Quasi.tail = List.replicate substitutions.length false ++ [true]
  cooked : ∀ q ∈ quasis, Literal.unescape (source.textIn q.range) = .ok q.cooked
  contents : List.Forall₂ (fun c e => contentOf source c = .ok e) substitutions contents

/-- A template is read from its first substitution to its last, with the stretch of text before each. -/
theorem templateParts_reads {start stop : Nat} {substitutions : List Cst} (parent? : Option String)
    (hkind : ∀ c ∈ substitutions, c.kind = "template_substitution")
    (hfollow : ByteRange.Follow start stop (substitutions.map fun c => c.token.range)) :
    Yields
      (TemplateFault source (ByteRange.gaps start stop (substitutions.map fun c => c.token.range)) substitutions)
      (fun found => ∃ quasis contents,
        TemplateRead source (ByteRange.gaps start stop (substitutions.map fun c => c.token.range)) substitutions
          quasis contents ∧
        found = (quasis.map (Quasi.node source), contents.filter fun e => !e.isNull))
      (templateParts source start stop (substitutions.map (lowered source parent?))) := by
  induction substitutions generalizing start with
  | nil =>
    have hlast : max start stop = stop := Nat.max_eq_right hfollow
    simp only [List.map_nil]
    rw [templateParts, hlast]
    refine Yields.bind ((templateElement_quasi ⟨start, stop⟩ true).imp_fault fun f hf => ?_) ?_
    · exact .inl ⟨_, List.mem_singleton_self _, hf⟩
    · rintro _ ⟨q, rfl, hrange, htail, hcooked⟩
      refine ⟨[q], [], ⟨?_, ?_, ?_, .nil⟩, rfl⟩
      · simp [ByteRange.gaps, hrange]
      · simp [htail]
      · simp [hrange, hcooked]
  | cons c rest ih =>
    obtain ⟨hc, hrest⟩ := List.forall_mem_cons.1 hkind
    obtain ⟨-, -, hfollow⟩ := hfollow
    have hsubstitution : (lowered source parent? c).kind = "template_substitution" := by
      rw [kind_lowered]
      exact hc
    simp only [List.map_cons]
    rw [templateParts, if_pos hsubstitution, site_lowered, expressionOf_siteOf, token_lowered]
    refine Yields.bind ((templateElement_quasi ⟨start, c.token.start⟩ false).imp_fault fun f hf => ?_) ?_
    · exact .inl ⟨_, List.mem_cons_self .., hf⟩
    rintro _ ⟨q, rfl, hrange, htail, hcooked⟩
    have hcontent : Yields (fun f => contentOf source c = .error f) (fun e => contentOf source c = .ok e)
        (contentOf source c) := by
      cases contentOf source c <;> rfl
    refine Yields.bind (hcontent.imp_fault fun f hf => .inr ⟨c, List.mem_cons_self .., hf⟩) fun e he => ?_
    refine Yields.bind ((ih hrest hfollow).imp_fault fun f hf => ?_) ?_
    · rcases hf with ⟨r, hr, hf⟩ | ⟨d, hd, hf⟩
      · exact .inl ⟨r, List.mem_cons_of_mem _ hr, hf⟩
      · exact .inr ⟨d, List.mem_cons_of_mem _ hd, hf⟩
    rintro _ ⟨quasis, contents, hread, rfl⟩
    refine ⟨q :: quasis, e :: contents, ⟨?_, ?_, ?_, .cons he hread.contents⟩, ?_⟩
    · rw [List.map_cons, hrange, hread.ranges]
      rfl
    · rw [List.map_cons, htail, hread.tails]
      rfl
    · exact List.forall_mem_cons.2 ⟨by rwa [hrange], hread.cooked⟩
    · cases hnull : e.isNull with
      | true => simp [hnull]
      | false => simp [hnull]

/-- A template literal becomes a node with its stretches of text and with what its substitutions become. -/
theorem lower_templateParts {t : Cst} (ht : t.kind = "template_string") (parent? : Option String) :
    lower source parent? t = (do
      let (quasis, expressions) ←
        templateParts source (t.token.start + 1) (t.token.stop - 1)
          (t.substitutions.map (lowered source (some t.kind)))
      pure (nodeOf "TemplateLiteral" t.token [("quasis", .list quasis), ("expressions", .list expressions)])) := by
  have hrule : ruleOf t.kind = .template := by
    rw [ht]
    rfl
  rw [lower_eq hrule (by simp), Rule.lower, templateLiteral, siteOf, templateParts_substitutions]
  rfl

end Lowering

/-- The stretches of literal text of a template and its substitutions stand by turns and tile what is between the
    delimiters, so that their bytes one after another are those of the body. There is one stretch more than there
    are substitutions, and the last stretch alone is the tail. What the substitutions become are the expressions,
    in order; a substitution that becomes nothing is left out, and if there is none, then one expression stands
    between any two stretches next to each other. Only a stretch that cannot be decoded and a substitution that
    cannot be lowered keep a template from being lowered. -/
theorem lower_template {t : Cst} (ht : TemplateSyntax t) (source : Source) (parent? : Option String) :
    Yields
      (fun f =>
        (∃ r ∈ ByteRange.gaps (t.token.start + 1) (t.token.stop - 1) (t.substitutions.map fun c => c.token.range),
          Literal.unescape (source.textIn r) = .error f) ∨
        ∃ c ∈ t.substitutions, contentOf source c = .error f)
      (fun v => ∃ (quasis : List Quasi) (contents expressions : List Value),
        v = nodeOf "TemplateLiteral" t.token [
          ("quasis", .list (quasis.map (Quasi.node source))), ("expressions", .list expressions)] ∧
        quasis.length = t.substitutions.length + 1 ∧
        quasis.map Quasi.tail = List.replicate t.substitutions.length false ++ [true] ∧
        (∀ q ∈ quasis, Literal.unescape (source.textIn q.range) = .ok q.cooked) ∧
        ByteRange.Tile (t.token.start + 1) (t.token.stop - 1)
          (ByteRange.alternate (quasis.map Quasi.range) (t.substitutions.map fun c => c.token.range)) ∧
        (ByteRange.alternate (quasis.map Quasi.range) (t.substitutions.map fun c => c.token.range)).flatMap
          source.bytesIn = source.bytesIn ⟨t.token.start + 1, t.token.stop - 1⟩ ∧
        List.Forall₂ (fun c e => contentOf source c = .ok e) t.substitutions contents ∧
        expressions = contents.filter (fun e => !e.isNull) ∧
        ((∀ e ∈ contents, e.isNull = false) → expressions.length + 1 = quasis.length ∧
          ∀ (i : Nat) q q', quasis[i]? = some q → quasis[i + 1]? = some q' →
            ∃ c e, t.substitutions[i]? = some c ∧ expressions[i]? = some e ∧ contentOf source c = .ok e ∧
              c.token.range = ⟨q.range.stop, q'.range.start⟩))
      (lower source parent? t) := by
  have hfollow := ht.follow
  have hkinds : ∀ c ∈ t.substitutions, c.kind = "template_substitution" := by
    intro c hc
    simpa using (List.mem_filter.1 hc).2
  rw [Lowering.lower_templateParts ht.kind]
  refine Yields.bind (Lowering.templateParts_reads _ hkinds hfollow) ?_
  rintro _ ⟨quasis, contents, hread, rfl⟩
  have hlength : quasis.length = t.substitutions.length + 1 := by
    rw [← List.length_map Quasi.range, hread.ranges, ByteRange.length_gaps, List.length_map]
  have htile := hfollow.tile
  rw [← hread.ranges] at htile
  refine ⟨quasis, contents, _, rfl, hlength, hread.tails, hread.cooked, htile, source.bytesIn_tile htile,
    hread.contents, rfl, ?_⟩
  intro hall
  have hexpressions : contents.filter (fun e => !e.isNull) = contents := by
    rw [List.filter_eq_self]
    intro e he
    simp [hall e he]
  rw [hexpressions]
  refine ⟨by rw [← hread.contents.length_eq, hlength], ?_⟩
  intro i q q' hq hq'
  have hr : (quasis.map Quasi.range)[i]? = some q.range := by simp [hq]
  have hs : (quasis.map Quasi.range)[i + 1]? = some q'.range := by simp [hq']
  rw [hread.ranges] at hr hs
  have hbetween := ByteRange.gaps_between hr hs
  rw [List.getElem?_map, Option.map_eq_some_iff] at hbetween
  obtain ⟨c, hc, hrange⟩ := hbetween
  obtain ⟨hi, rfl⟩ := List.getElem?_eq_some_iff.1 hc
  have hi' : i < contents.length := hread.contents.length_eq ▸ hi
  exact ⟨_, contents[i], hc, List.getElem?_eq_getElem hi', hread.contents.get hi hi', hrange⟩

namespace Sample

/-- A template literal with two substitutions that stand next to each other, the second with two expressions. -/
def templateSource : Source := .ofText "`a$\x7bb\x7d$\x7bc,d\x7d`"

def templated : Cst :=
  .branch "template_string" 0 13 none [
    .leaf "`" false 0 1 none,
    .leaf "string_fragment" true 1 2 none,
    .branch "template_substitution" 2 6 none [
      .leaf "$\x7b" false 2 4 none,
      .leaf "identifier" true 4 5 none,
      .leaf "\x7d" false 5 6 none],
    .branch "template_substitution" 6 12 none [
      .leaf "$\x7b" false 6 8 none,
      .branch "sequence_expression" 8 11 none [
        .leaf "identifier" true 8 9 none,
        .leaf "," false 9 10 none,
        .leaf "identifier" true 10 11 none],
      .leaf "\x7d" false 11 12 none],
    .leaf "`" false 12 13 none]

theorem templateSyntax_templated : TemplateSyntax templated where
  kind := rfl
  wide := by decide
  inside := by decide
  ordered := by decide

/-- The literal has three stretches of text, of which the second is empty, and one expression between any two. -/
theorem lower_template_templated :
    TemplateSyntax templated ∧ ∃ (quasis : List Quasi) (expressions : List Value),
      lower templateSource none templated = .ok (nodeOf "TemplateLiteral" templated.token [
        ("quasis", .list (quasis.map (Quasi.node templateSource))), ("expressions", .list expressions)]) ∧
      quasis.length = 3 ∧
      (ByteRange.alternate (quasis.map Quasi.range) [⟨2, 6⟩, ⟨6, 12⟩]).flatMap templateSource.bytesIn =
        templateSource.bytesIn ⟨1, 12⟩ := by
  obtain ⟨v, hv⟩ : ∃ v, lower templateSource none templated = .ok v := ⟨_, rfl⟩
  have htemplate := lower_template templateSyntax_templated templateSource none
  obtain ⟨quasis, contents, expressions, rfl, hlength, -, -, -, hbytes, -⟩ := htemplate.of_eq_ok hv
  exact ⟨templateSyntax_templated, quasis, expressions, hv, hlength, hbytes⟩

end Sample

end Arbor
