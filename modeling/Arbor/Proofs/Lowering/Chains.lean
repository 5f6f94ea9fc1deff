import Arbor.Proofs.Lowering.Patterns

set_option autoImplicit false

/-! # Optional chains

Member accesses and calls that hang on each other are a chain, down to the first node that is neither, or that
starts a chain of its own (`Cst.OnSpine`). Every link of a chain becomes a node that holds what is below it
(`Lowering.Strung`), and nothing is wrapped on the way. Whether a link anywhere on the chain is optional is known
at its top, and there the chain is wrapped once (`lower_chain`). -/

namespace Arbor

open Lowering (isLink lower)
open Value (typeOf?)

namespace Cst

variable (t : Cst)

/-- A call of a template literal or of `import`, which starts a chain of its own. -/
def StartsOwn : Prop :=
  t.kind = "call_expression" ∧
    ((∃ a, Tree.part? t "arguments" = some a ∧ a.kind = "template_string") ∨
      ∃ f, Tree.part? t "function" = some f ∧ f.kind = "import")

/-- A member access or a call that goes on with the chain below it. -/
def IsLink : Prop := isLink t.kind = true ∧ ¬ t.StartsOwn

/-- The object or callee that a link hangs on. -/
def below? : Option Cst := Tree.part? t (if t.kind = "call_expression" then "function" else "object")

/-- The link is written with `?.`. -/
def IsOptional : Prop := ∃ c ∈ t.children, c.token.field? = some "optional_chain"

/-- A link of the chain that has its top at `t`. -/
inductive OnSpine : Cst → Cst → Prop
  | here {t : Cst} (link : t.IsLink) : OnSpine t t
  | further {t u l : Cst} (link : t.IsLink) (hangs : t.below? = some u) (rest : OnSpine u l) : OnSpine t l

/-- A chain is optional if one of its links is. -/
def IsOptionalChain : Prop := ∃ l, OnSpine t l ∧ l.IsOptional

variable {t}

/-- There is no link on the spine of what is no link itself. -/
theorem not_isOptionalChain (h : ¬ t.IsLink) : ¬ t.IsOptionalChain := by
  rintro ⟨l, hl, -⟩
  cases hl with
  | here link => exact h link
  | further link => exact h link

/-- The chain of a link that nothing is below of. -/
theorem isOptionalChain_of_none (h : t.IsLink) (hbelow : t.below? = none) : t.IsOptionalChain ↔ t.IsOptional := by
  constructor
  · rintro ⟨l, hl, hopt⟩
    cases hl with
    | here link => exact hopt
    | further link hangs rest =>
      rw [hbelow] at hangs
      cases hangs
  · intro hopt
    exact ⟨t, .here h, hopt⟩

/-- A chain is optional if its top is, or what the top hangs on. -/
theorem isOptionalChain_of_some (h : t.IsLink) {u : Cst} (hbelow : t.below? = some u) :
    t.IsOptionalChain ↔ t.IsOptional ∨ u.IsOptionalChain := by
  constructor
  · rintro ⟨l, hl, hopt⟩
    cases hl with
    | here link => exact .inl hopt
    | further link hangs rest =>
      obtain rfl := Option.some.inj (hbelow.symm.trans hangs)
      exact .inr ⟨l, rest, hopt⟩
  · rintro (hopt | ⟨l, hl, hopt⟩)
    · exact ⟨t, .here h, hopt⟩
    · exact ⟨l, .further h hbelow hl, hopt⟩

end Cst

namespace Lowering

/-- The node of a link: it is a member access or a call, it holds what is below the link, and it tells of itself
    whether the link is optional. -/
structure LinkNode (t : Cst) (below : Value) (fields : List (Key × Value)) : Prop where
  type : typeOf? fields =
    some (if t.kind = "call_expression" then ("CallExpression" : Text) else "MemberExpression")
  holds : Fields.get? fields (.text (if t.kind = "call_expression" then "callee" else "object")) = some below
  optional : ∃ optional, Fields.get? fields (.text "optional") = some (.bool optional) ∧
    (optional = true ↔ t.IsOptional)

/-- A chain without a wrapper: each link holds the next one, and the last one holds what its base becomes on its
    own. -/
inductive Strung (source : Source) : Option String → Cst → Value → Prop
  | link {parent? : Option String} {t u : Cst} {below : Value} {fields : List (Key × Value)} (link : t.IsLink)
      (hangs : t.below? = some u) (rest : Strung source (some t.kind) u below) (node : LinkNode t below fields) :
      Strung source parent? t (.record fields)
  | loose {parent? : Option String} {t : Cst} {fields : List (Key × Value)} (link : t.IsLink)
      (hangs : t.below? = none) (node : LinkNode t .null fields) : Strung source parent? t (.record fields)
  | base {parent? : Option String} {t : Cst} {v : Value} (other : ¬ t.IsLink)
      (lowered : lower source parent? t = .ok v) : Strung source parent? t v

section

variable {source : Source} {t c : Cst}

/-- A node below `t` cannot be lowered. -/
def FaultBelow (source : Source) (t : Cst) (f : Fault) : Prop :=
  ∃ c ∈ t.children, ∃ u ∈ c.nodes, ∃ parent?, lower source parent? u = .error f

/-- What is lowered below a node is a value, or its fault is a fault below the node. -/
theorem yields_below {u : Cst} {parent? : Option String} (hc : c ∈ t.children) (hu : u ∈ c.nodes) :
    Yields (FaultBelow source t) (fun v => lower source parent? u = .ok v) (lowered source parent? u).value := by
  cases h : (lowered source parent? u).value with
  | ok v => exact h
  | error f => exact ⟨c, hc, u, hu, parent?, h⟩

theorem mem_children_of_part? {name : String} (h : t.part? name = some c) : c ∈ t.children :=
  (List.mem_filter.1 (Tree.mem_parts_of_part? h)).1

theorem valueOf_below (name : String) :
    Yields (FaultBelow source t) (fun _ => True) (valueOf ((siteOf source t).field? name)) := by
  rw [field?_siteOf]
  cases h : t.part? name with
  | none => trivial
  | some c => exact (yields_below (mem_children_of_part? h) c.mem_nodes_self).mono fun _ _ => trivial

theorem argumentsOf_below (name : String) :
    Yields (FaultBelow source t) (fun _ => True) (argumentsOf ((siteOf source t).field? name)) := by
  rw [field?_siteOf]
  cases h : t.part? name with
  | none => trivial
  | some c =>
    rw [Option.map_some, argumentsOf, site_lowered, parts_siteOf, valuesOf]
    refine Yields.bind (P := fun _ => True) ?_ fun _ _ => trivial
    refine (Yields.mapM (R := fun _ => True) fun b hb => ?_).mono fun _ _ => trivial
    obtain ⟨u, hu, rfl⟩ := List.mem_map.1 hb
    have hnode : u ∈ c.nodes := Tree.nodes_subset_of_mem (List.mem_filter.1 hu).1 u.mem_nodes_self
    exact (yields_below (mem_children_of_part? h) hnode).mono fun _ _ => trivial

/-- A link looks for its own mark. -/
theorem isSome_mark? : ((siteOf source t).mark? "optional_chain").isSome = true ↔ t.IsOptional := by
  rw [Site.mark?, siteOf, List.find?_isSome, Cst.IsOptional]
  simp

/-! ## One link -/

/-- Where a node is asked for as an object or callee, a link answers with what is not wrapped yet. -/
theorem link_lowered (hc : c.isPart = true) (parent? : Option String) :
    (lowered source parent? c).note.link =
      if isLink c.kind then linkOf (siteOf source c) else (lower source parent? c).map (·, false) := by
  have hskip : c.token.isSkipped = false := Tree.not_isSkipped_of_isPart hc
  cases c with
  | node token note children =>
    rw [Tree.token_node] at hskip
    rw [lower, lowered, Branch.value, Tree.note_node, loweredAll_eq, readingOf, hskip]
    rfl

/-- A chain is told by its top link. -/
theorem lower_eq_chainOf (ht : isLink t.kind = true) (parent? : Option String) :
    lower source parent? t = chainOf (siteOf source t) := by
  have hrule : ruleOf t.kind = .chain := by
    have hkinds : t.kind = "member_expression" ∨ t.kind = "subscript_expression" ∨ t.kind = "call_expression" := by
      simpa [isLink, or_assoc] using ht
    rcases hkinds with hkind | hkind | hkind <;> rw [hkind] <;> rfl
  exact lower_eq hrule (by simp) parent?

/-- The kinds of nodes that a call becomes which starts a chain of its own. -/
def ownTypes : List Text := ["TaggedTemplateExpression", "ImportExpression"]

/-- A call without a template literal is not tagged. -/
theorem template_eq_none (h : ¬ ∃ a, t.part? "arguments" = some a ∧ a.kind = "template_string") :
    ((siteOf source t).field? "arguments").filter (fun b => b.kind = "template_string") = none := by
  rw [field?_siteOf]
  cases ha : t.part? "arguments" with
  | none => rfl
  | some a =>
    have hkind : ¬ a.kind = "template_string" := fun hkind => h ⟨a, ha, hkind⟩
    rw [Option.map_some, Option.filter_some, kind_lowered]
    exact if_neg (mt of_decide_eq_true hkind)

/-- The callee of a call, looked at for its kind. -/
theorem isImport_iff : ((siteOf source t).field? "function").map Tree.kind = some "import" ↔
    ∃ f, t.part? "function" = some f ∧ f.kind = "import" := by
  rw [field?_siteOf, Option.map_map, Option.map_eq_some_iff]
  simp [Tree.kind]

/-- A call that starts a chain of its own is in no chain, and nothing wraps it. -/
theorem linkOf_own (source : Source) (h : t.StartsOwn) :
    Yields (FaultBelow source t)
      (fun p => p.2 = false ∧ ∃ fields type, p.1 = .record fields ∧ typeOf? fields = some type ∧ type ∈ ownTypes)
      (linkOf (siteOf source t)) := by
  obtain ⟨hkind, hown⟩ := h
  have htoken : (siteOf source t).token.kind = "call_expression" := hkind
  rw [linkOf, if_pos htoken, callLink]
  by_cases htagged : ∃ a, t.part? "arguments" = some a ∧ a.kind = "template_string"
  · obtain ⟨a, ha, hkind⟩ := htagged
    have hfilter : ((siteOf source t).field? "arguments").filter (fun b => b.kind = "template_string") =
        some (lowered source (some t.kind) a) := by
      rw [field?_siteOf, ha, Option.map_some, Option.filter_some, kind_lowered]
      exact if_pos (decide_eq_true hkind)
    rw [hfilter]
    refine (valueOf_below "function").bind fun tag _ => ?_
    refine (yields_below (mem_children_of_part? ha) a.mem_nodes_self).bind fun quasi _ => ?_
    exact ⟨rfl, _, _, nodeOf_eq _ _ _, rfl, by decide⟩
  · have himport : ((siteOf source t).field? "function").map Tree.kind = some "import" :=
      isImport_iff.2 (hown.resolve_left htagged)
    rw [template_eq_none htagged]
    simp only [himport, if_true]
    refine (argumentsOf_below "arguments").bind fun arguments _ => ?_
    exact ⟨rfl, _, _, nodeOf_eq _ _ _, rfl, by decide⟩

/-! ## The chain below a link -/

/-- What a link finds below it: the rest of the chain, or nothing. -/
def Hangs (source : Source) (t : Cst) (below : Value) : Prop :=
  (t.below? = none ∧ below = .null) ∨ ∃ u, t.below? = some u ∧ Strung source (some t.kind) u below

theorem Hangs.strung {parent? : Option String} {below : Value} {fields : List (Key × Value)}
    (h : Hangs source t below) (link : t.IsLink) (node : LinkNode t below fields) :
    Strung source parent? t (.record fields) := by
  rcases h with ⟨hangs, rfl⟩ | ⟨u, hangs, rest⟩
  · exact .loose link hangs node
  · exact .link link hangs rest node

/-- A chain that is told without its wrapper, and whether it is optional up to here. -/
def Told (source : Source) (parent? : Option String) (t : Cst) (p : Value × Bool) : Prop :=
  Strung source parent? t p.1 ∧ (p.2 = true ↔ t.IsOptionalChain)

theorem FaultBelow.child {f : Fault} (hc : c ∈ t.children) (h : FaultBelow source c f) :
    FaultBelow source t f := by
  obtain ⟨d, hd, u, hu, parent?, hf⟩ := h
  exact ⟨c, hc, u, Tree.nodes_subset_of_mem hd hu, parent?, hf⟩

/-- A link goes on with the chain below it as it is. -/
theorem linkBelow_told (ih : ∀ c ∈ t.children, isLink c.kind = true → ∀ parent?,
      Yields (FaultBelow source c) (Told source parent? c) (linkOf (siteOf source c)))
    (ht : t.IsLink) {name : String} (hname : t.below? = t.part? name) (optional : Bool)
    (hoptional : optional = true ↔ t.IsOptional) :
    Yields (FaultBelow source t)
      (fun p => Hangs source t p.1 ∧ ((optional || p.2) = true ↔ t.IsOptionalChain))
      (linkBelow ((siteOf source t).field? name)) := by
  rw [field?_siteOf, ← hname]
  cases hbelow : t.below? with
  | none =>
    refine ⟨.inl ⟨hbelow, rfl⟩, ?_⟩
    rw [Bool.or_false, hoptional, Cst.isOptionalChain_of_none ht hbelow]
  | some u =>
    have hu : u ∈ t.parts := Tree.mem_parts_of_part? (hname ▸ hbelow)
    obtain ⟨hchild, hpart⟩ := List.mem_filter.1 hu
    have htold : Yields (FaultBelow source t) (Told source (some t.kind) u)
        (lowered source (some t.kind) u).note.link := by
      rw [link_lowered hpart]
      by_cases hlink : isLink u.kind = true
      · rw [if_pos hlink]
        exact (ih u hchild hlink (some t.kind)).imp_fault fun f hf => hf.child hchild
      · rw [if_neg hlink]
        have hother : ¬ u.IsLink := fun h => hlink h.1
        refine (yields_below hchild u.mem_nodes_self).map fun v hv => ⟨.base hother hv, ?_⟩
        exact iff_of_false (by simp) (Cst.not_isOptionalChain hother)
    refine htold.mono fun p hp => ⟨.inr ⟨u, hbelow, hp.1⟩, ?_⟩
    rw [Bool.or_eq_true, hoptional, hp.2, Cst.isOptionalChain_of_some ht hbelow]

/-! ## The whole chain -/

/-- A member access is strung on what it finds below it. -/
theorem memberLink_told (ht : t.IsLink) (hkind : t.kind ≠ "call_expression") (optional : Bool)
    (hoptional : optional = true ↔ t.IsOptional) (parent? : Option String)
    (hbelow : Yields (FaultBelow source t)
      (fun p => Hangs source t p.1 ∧ ((optional || p.2) = true ↔ t.IsOptionalChain))
      (linkBelow ((siteOf source t).field? "object"))) :
    Yields (FaultBelow source t) (Told source parent? t) (memberLink (siteOf source t) optional) := by
  refine hbelow.bind fun p hp => (valueOf_below _).bind fun property _ => ⟨hp.1.strung ht ⟨?_, ?_, ?_⟩, hp.2⟩
  · rw [if_neg hkind]
    rfl
  · rw [if_neg hkind]
    rfl
  · exact ⟨optional, rfl, hoptional⟩

/-- The node of a call, with or without type arguments. -/
theorem linkNode_call (hkind : t.kind = "call_expression") {optional : Bool}
    (hoptional : optional = true ↔ t.IsOptional) (callee arguments : Value)
    {typeArguments : List (String × Value)} (hnames : ∀ f ∈ typeArguments, f.1 = "typeArguments") :
    LinkNode t callee (Value.nodeFields "CallExpression" t.token.start t.token.stop (namedFields
      (("callee", callee) :: typeArguments ++ [("arguments", arguments), ("optional", .bool optional)]))) where
  type := by rw [if_pos hkind, Value.typeOf?_nodeFields]
  holds := by
    rw [if_pos hkind, Value.get?_nodeFields _ _ _ _ (by decide), List.cons_append, get?_namedFields_cons, if_pos rfl]
  optional := by
    refine ⟨optional, ?_, hoptional⟩
    rw [Value.get?_nodeFields _ _ _ _ (by decide), List.cons_append, get?_namedFields_cons, if_neg (by decide)]
    induction typeArguments with
    | nil =>
      rw [List.nil_append, get?_namedFields_cons, if_neg (by decide), get?_namedFields_cons, if_pos rfl]
    | cons f rest ih =>
      obtain ⟨hname, hnames⟩ := List.forall_mem_cons.1 hnames
      rw [List.cons_append, get?_namedFields_cons, hname, if_neg (by decide)]
      exact ih hnames

/-- A call is strung on what it finds below it. -/
theorem callLink_told (ht : t.IsLink) (hkind : t.kind = "call_expression") (optional : Bool)
    (hoptional : optional = true ↔ t.IsOptional) (parent? : Option String)
    (hbelow : Yields (FaultBelow source t)
      (fun p => Hangs source t p.1 ∧ ((optional || p.2) = true ↔ t.IsOptionalChain))
      (linkBelow ((siteOf source t).field? "function"))) :
    Yields (FaultBelow source t) (Told source parent? t) (callLink (siteOf source t) optional) := by
  have htagged : ¬ ∃ a, t.part? "arguments" = some a ∧ a.kind = "template_string" :=
    fun h => ht.2 ⟨hkind, .inl h⟩
  have himport : ((siteOf source t).field? "function").map Tree.kind ≠ some "import" :=
    fun h => ht.2 ⟨hkind, .inr (isImport_iff.1 h)⟩
  rw [callLink, template_eq_none htagged]
  simp only [himport, if_false]
  refine hbelow.bind fun p hp => ?_
  have hrest {typeArguments : List (String × Value)} (hnames : ∀ f ∈ typeArguments, f.1 = "typeArguments") :
      Yields (FaultBelow source t) (Told source parent? t) (do
        let arguments ← argumentsOf ((siteOf source t).field? "arguments")
        pure (nodeOf "CallExpression" t.token
          (("callee", p.1) :: typeArguments ++ [("arguments", .list arguments), ("optional", .bool optional)]),
          optional || p.2)) :=
    (argumentsOf_below "arguments").bind fun arguments _ =>
      ⟨hp.1.strung ht (linkNode_call hkind hoptional _ _ hnames), hp.2⟩
  have htype : Yields (FaultBelow source t) (fun _ => True) (valueOf ((siteOf source t).field? "type_arguments")) :=
    valueOf_below _
  cases h : (siteOf source t).field? "type_arguments" with
  | none => exact hrest (by simp)
  | some b =>
    rw [h] at htype
    exact htype.bind fun v _ => hrest (by simp)

/-- A link becomes a chain that is strung on what is below it, if this holds of the nodes below. -/
theorem linkOf_told_of_children (ih : ∀ c ∈ t.children, isLink c.kind = true → ∀ parent?,
      Yields (FaultBelow source c) (Told source parent? c) (linkOf (siteOf source c)))
    (ht : isLink t.kind = true) (parent? : Option String) :
    Yields (FaultBelow source t) (Told source parent? t) (linkOf (siteOf source t)) := by
  by_cases hown : t.StartsOwn
  · have hbase : ¬ t.IsLink := fun h => h.2 hown
    have hlower : lower source parent? t = chainOf (siteOf source t) := lower_eq_chainOf ht parent?
    rw [chainOf] at hlower
    have howned := linkOf_own source hown
    cases hlink : linkOf (siteOf source t) with
    | error f => rwa [hlink] at howned
    | ok p =>
      obtain ⟨v, inChain⟩ := p
      rw [hlink] at howned hlower
      obtain ⟨rfl : inChain = false, -⟩ := howned
      exact ⟨.base hbase hlower, iff_of_false (by simp) (Cst.not_isOptionalChain hbase)⟩
  · have hlink : t.IsLink := ⟨ht, hown⟩
    rw [linkOf]
    by_cases hkind : t.kind = "call_expression"
    · rw [if_pos (show (siteOf source t).token.kind = _ from hkind)]
      refine callLink_told hlink hkind _ isSome_mark? parent? ?_
      exact linkBelow_told ih hlink (by rw [Cst.below?, if_pos hkind]) _ isSome_mark?
    · rw [if_neg (show ¬ (siteOf source t).token.kind = _ from hkind)]
      refine memberLink_told hlink hkind _ isSome_mark? parent? ?_
      exact linkBelow_told ih hlink (by rw [Cst.below?, if_neg hkind]) _ isSome_mark?

theorem linkOf_told (ht : isLink t.kind = true) (parent? : Option String) :
    Yields (FaultBelow source t) (Told source parent? t) (linkOf (siteOf source t)) := by
  induction t using Tree.induction generalizing parent? with
  | node token note children ih => exact linkOf_told_of_children (t := .node token note children) ih ht parent?

/-- The node that wraps an optional chain. -/
def IsChain (v : Value) : Prop := ∃ fields, v = .record fields ∧ typeOf? fields = some ("ChainExpression" : Text)

theorem not_isChain {fields : List (Key × Value)} {type : Text} (h : typeOf? fields = some type)
    (hne : type ≠ "ChainExpression") : ¬ IsChain (.record fields) := by
  rintro ⟨_, heq, htype⟩
  obtain rfl := Value.record.inj heq
  exact hne (Option.some.inj (h.symm.trans htype))

theorem LinkNode.not_isChain {below : Value} {fields : List (Key × Value)} (h : LinkNode t below fields) :
    ¬ IsChain (.record fields) :=
  Lowering.not_isChain h.type (by split <;> decide)

/-- What a link becomes is no wrapper. -/
theorem not_isChain_of_linkOf (ht : isLink t.kind = true) {parent? : Option String} {p : Value × Bool}
    (h : linkOf (siteOf source t) = .ok p) (hp : Strung source parent? t p.1) : ¬ IsChain p.1 := by
  obtain ⟨v, inChain⟩ := p
  cases hp with
  | link link hangs rest node => exact node.not_isChain
  | loose link hangs node => exact node.not_isChain
  | base other lowered =>
    have hown : t.StartsOwn := by
      by_contra hown
      exact other ⟨ht, hown⟩
    obtain ⟨-, fields, type, rfl, htype, hmem⟩ := (linkOf_own source hown).of_eq_ok h
    refine Lowering.not_isChain htype ?_
    rintro rfl
    revert hmem
    decide

end

end Lowering

open Lowering (FaultBelow IsChain Strung nodeOf linkOf siteOf)

/-- A chain is wrapped once, at its top, if and only if one of its links is optional. Below the wrapper stands the
    chain itself: each of its links holds the next one without a wrapper, and tells of itself alone whether it is
    optional. Only a node below that cannot be lowered keeps a chain from being lowered. -/
theorem lower_chain {source : Source} {t : Cst} (ht : isLink t.kind = true) (parent? : Option String) :
    Yields (FaultBelow source t)
      (fun v => (IsChain v ↔ ¬ t.StartsOwn ∧ ∃ l, Cst.OnSpine t l ∧ l.IsOptional) ∧
        ∃ e, Strung source parent? t e ∧ ¬ IsChain e ∧
          (IsChain v → v = nodeOf "ChainExpression" t.token [("expression", e)]) ∧ (¬ IsChain v → v = e))
      (lower source parent? t) := by
  rw [Lowering.lower_eq_chainOf ht, Lowering.chainOf]
  have htold : Yields (FaultBelow source t) (Lowering.Told source parent? t) (linkOf (siteOf source t)) :=
    Lowering.linkOf_told ht parent?
  cases hlink : linkOf (siteOf source t) with
  | error f => rwa [hlink] at htold
  | ok p =>
    rw [hlink] at htold
    obtain ⟨hstrung, hchain⟩ := htold
    have hnot := Lowering.not_isChain_of_linkOf ht hlink hstrung
    obtain ⟨e, inChain⟩ := p
    cases inChain with
    | true =>
      have hwrapped : IsChain (nodeOf "ChainExpression" t.token [("expression", e)]) := ⟨_, rfl, rfl⟩
      have hoptional : t.IsOptionalChain := hchain.1 rfl
      have hown : ¬ t.StartsOwn := by
        intro hown
        exact Cst.not_isOptionalChain (fun h => h.2 hown) hoptional
      exact ⟨iff_of_true hwrapped ⟨hown, hoptional⟩, e, hstrung, hnot, fun _ => rfl, fun h => absurd hwrapped h⟩
    | false =>
      have hoptional : ¬ t.IsOptionalChain := by
        intro h
        cases hchain.2 h
      exact ⟨iff_of_false hnot fun h => hoptional h.2, e, hstrung, hnot, fun h => absurd h hnot, fun _ => rfl⟩

namespace Sample

/-- The source `(a?.b).c?.[d]`. -/
def chainSource : Source := .ofText "(a?.b).c?.[d]"

/-- The chain of a subscript and a member access, which has the chain in parentheses as its base. -/
def chained : Cst :=
  .branch "subscript_expression" 0 13 none [
    .branch "member_expression" 0 8 (some "object") [
      .branch "parenthesized_expression" 0 6 (some "object") [
        .leaf "(" false 0 1 none,
        .branch "member_expression" 1 5 none [
          .leaf "identifier" true 1 2 (some "object"),
          .leaf "optional_chain" true 2 4 (some "optional_chain"),
          .leaf "property_identifier" true 4 5 (some "property")],
        .leaf ")" false 5 6 none],
      .leaf "." false 6 7 none,
      .leaf "property_identifier" true 7 8 (some "property")],
    .leaf "optional_chain" true 8 10 (some "optional_chain"),
    .leaf "[" false 10 11 none,
    .leaf "identifier" true 11 12 (some "index"),
    .leaf "]" false 12 13 none]

theorem isLink_chained : chained.IsLink := by
  refine ⟨rfl, ?_⟩
  rintro ⟨hkind, -⟩
  revert hkind
  decide

/-- The chain is wrapped for its last link. -/
theorem lower_chain_chained : ∃ e, lower chainSource none chained =
      .ok (nodeOf "ChainExpression" chained.token [("expression", e)]) ∧
    Strung chainSource none chained e := by
  obtain ⟨v, hv⟩ : ∃ v, lower chainSource none chained = .ok v := ⟨_, rfl⟩
  obtain ⟨hiff, e, hstrung, -, hwrapped, -⟩ := (lower_chain (t := chained) rfl none).of_eq_ok hv
  have hoptional : chained.IsOptional := ⟨_, List.mem_cons_of_mem _ (List.mem_cons_self ..), rfl⟩
  have hchain : IsChain v := hiff.2 ⟨isLink_chained.2, chained, .here isLink_chained, hoptional⟩
  rw [hwrapped hchain] at hv
  exact ⟨e, hv, hstrung⟩

end Sample

end Arbor
