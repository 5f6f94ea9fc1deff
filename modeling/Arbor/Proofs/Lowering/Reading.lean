import Arbor.Lowering.Program
import Arbor.Proofs.Lowering.Behaviour
import Arbor.Proofs.Lowering.Drawn
import Arbor.Proofs.Lowering.Grammar

set_option autoImplicit false

/-! # What fillers read

Each filler reads some children of a node (`Filler.picks`) and leaves what is drawn from their ranges
(`Lowering.fill_drawn`). -/

namespace Arbor.Lowering

open Value (nodeFields headKeys Apart typeOf? startOf? rangeOf? records recordsOfItems recordsOfFields)

/-- An answer with the property `Q`, or any fault. -/
abbrev IfOk {α : Type} (Q : α → Prop) : Except Fault α → Prop := Yields (fun _ => True) Q

theorem ifOk_true {α : Type} (x : Except Fault α) : IfOk (fun _ => True) x := by
  cases x <;> trivial

/-- Field names of a node are no names of its type or range. -/
theorem apart_namedFields {fields : List (String × Value)}
    (hnames : areFieldNames (fields.map Prod.fst) = true) : Apart (namedFields fields) := by
  simp only [areFieldNames, Bool.and_eq_true, List.all_eq_true, List.forall_mem_map] at hnames
  intro f hf
  obtain ⟨g, hg, rfl⟩ := List.mem_map.1 hf
  have hhead : headKeys = ["type", "start", "end"].map fun name => Scalar.text (Text.ofString name) := rfl
  rw [hhead, List.mem_map_of_injective fun a b h => Text.ofString_inj.1 (Scalar.text.inj h)]
  exact of_decide_eq_true (hnames.2 g hg)

/-- What is asked of a node of a tree, told by its token and those of its children. -/
structure Survey.Lies (S : Survey) (t : Token) (children : List Token) : Prop where
  known : S.knows t
  nests : S.nests → Nests t children
  inOrder : S.ordered → InOrder t children

/-- A value is drawn from the range of a token. -/
def Survey.From (S : Survey) (t : Token) (v : Value) : Prop := S.Drawn t.stop [t.span] (records none v)

/-- What a branch becomes is drawn from its range. -/
structure Branch.Drawn (S : Survey) (b : Branch) : Prop where
  lies : S.Lies b.token (b.children.map Tree.token)
  lowered : ∃ parent?, b.note = readingOf S.source parent? b.site
  behaves : Branch.Behaves (fun _ => True) b
  value : IfOk (S.From b.token) b.value
  link : IfOk (fun found => S.From b.token found.1) b.note.link
  jsxName : IfOk (S.From b.token) b.note.jsxName

/-- Branches that end before a limit and are drawn from their ranges, with all below them. -/
def AllDrawn (S : Survey) (limit : Int) (branches : List Branch) : Prop :=
  ∀ b ∈ branches, b.Everywhere (Branch.Drawn S) ∧ (S.nests → (b.token.stop : Int) ≤ limit)

/-- A place whose children are drawn from their ranges. -/
structure Site.Drawn (S : Survey) (s : Site) : Prop where
  children : ∀ b ∈ s.children, b.Everywhere (Branch.Drawn S)
  lies : S.Lies s.token (s.children.map Tree.token)

/-- The ranges of branches. -/
def spansOf (branches : List Branch) : List Span := branches.map fun b => b.token.span

section

variable {S : Survey} {s : Site} {b : Branch} {b? : Option Branch} {branches branches' : List Branch}
  {limit : Int}

theorem spansOf_append : spansOf (branches ++ branches') = spansOf branches ++ spansOf branches' :=
  List.map_append

theorem AllDrawn.subset (h : AllDrawn S limit branches) (hsub : branches' ⊆ branches) :
    AllDrawn S limit branches' := fun b hb => h b (hsub hb)

theorem Survey.Drawn.within {os : List Occurrence} (h : S.Drawn b.token.stop [b.token.span] os)
    (hb : AllDrawn S limit [b]) : S.Drawn limit (spansOf [b]) os :=
  h.raise fun hn => (hb b (List.mem_singleton_self b)).2 hn

theorem AllDrawn.singleton (h : AllDrawn S limit branches) (hb : b ∈ branches) : AllDrawn S limit [b] :=
  h.subset (List.cons_subset.2 ⟨hb, List.nil_subset _⟩)

theorem AllDrawn.site (h : AllDrawn S limit [b]) : (Branch.site b).Drawn S :=
  have hb := (h b (List.mem_singleton_self b)).1
  ⟨fun _ hc => hb.child hc, hb.here.lies⟩

theorem AllDrawn.here (h : AllDrawn S limit [b]) : b.Drawn S := (h b (List.mem_singleton_self b)).1.here

/-! ## Children that are picked -/

theorem toList_sublist {α : Type} {a? : Option α} {l : List α} (h : ∀ a, a? = some a → a ∈ l) :
    a?.toList.Sublist l := by
  cases a? with
  | none => exact List.nil_sublist l
  | some a => exact List.singleton_sublist.2 (h a rfl)

theorem parts_sublist (s : Site) : s.parts.Sublist s.children := List.filter_sublist

theorem partsOf_sublist (s : Site) (kind : String) : (s.partsOf kind).Sublist s.children :=
  List.filter_sublist.trans (parts_sublist s)

theorem fieldAll_sublist (s : Site) (field : String) : (s.fieldAll field).Sublist s.children :=
  List.filter_sublist.trans (parts_sublist s)

theorem field?_sublist (s : Site) (field : String) : (s.field? field).toList.Sublist s.children :=
  (toList_sublist fun _ => List.mem_of_mem_head?).trans (fieldAll_sublist s field)

theorem first?_sublist (s : Site) : s.first?.toList.Sublist s.children :=
  (toList_sublist fun _ => List.mem_of_mem_head?).trans (parts_sublist s)

theorem lastOfMany_sublist (s : Site) : (s.parts.drop 1).getLast?.toList.Sublist s.children :=
  (toList_sublist fun _ => List.mem_of_getLast?).trans ((List.drop_sublist 1 _).trans (parts_sublist s))

theorem nth_sublist (s : Site) (position : Nat) : s.parts[position]?.toList.Sublist s.children :=
  (toList_sublist fun _ => List.mem_of_getElem?).trans (parts_sublist s)

theorem orElse_sublist {b? c? : Option Branch} (hb : b?.toList.Sublist branches)
    (hc : c?.toList.Sublist branches) : (b? <|> c?).toList.Sublist branches := by
  cases b? with
  | none => exact hc
  | some b => exact hb

/-- The decorators of a node. -/
def decoratorsAt (s : Site) : List Branch :=
  match s.fieldAll "decorator" with
  | [] => s.partsOf "decorator"
  | decorators => decorators

/-- The attributes of a tag. -/
def attributesAt (s : Site) : List Branch :=
  match s.fieldAll "attribute" with
  | [] => s.parts.filter fun b => b.kind = "jsx_attribute" || b.kind = "jsx_expression"
  | attributes => attributes

/-- The clauses of the heritage of a class. -/
def heritageAt (s : Site) : List Branch :=
  match (s.partsOf "class_heritage").getLast? with
  | some heritage => heritage.site.parts
  | none => []

/-- Whether a clause tells what a class implements. -/
def isImplements (b : Branch) : Bool := b.kind = "implements_clause"

theorem decoratorsAt_sublist (s : Site) : (decoratorsAt s).Sublist s.children := by
  unfold decoratorsAt
  split
  · exact partsOf_sublist s _
  · exact fieldAll_sublist s _

theorem attributesAt_sublist (s : Site) : (attributesAt s).Sublist s.children := by
  unfold attributesAt
  split
  · exact List.filter_sublist.trans (parts_sublist s)
  · exact fieldAll_sublist s _

/-! ## Ranges of children -/

section

variable (hs : s.Drawn S)

include hs

theorem child_inside (hn : S.nests) (hb : b ∈ s.children) : b.token.span.Inside s.token.span := by
  obtain ⟨hstart, hstop⟩ := (hs.lies.nests hn).inside b.token (List.mem_map_of_mem hb)
  exact ⟨Int.ofNat_le.2 hstart, Int.ofNat_le.2 hstop⟩

theorem site_wide (hn : S.nests) : (s.token.start : Int) ≤ s.token.stop :=
  Int.ofNat_le.2 (hs.lies.nests hn).wide

theorem children_drawn (hsub : branches ⊆ s.children) : AllDrawn S s.token.stop branches :=
  fun b hb => ⟨hs.children b (hsub hb), fun hn => (child_inside hs hn (hsub hb)).2⟩

theorem child_drawn (hb : b ∈ s.children) : AllDrawn S s.token.stop [b] :=
  children_drawn hs (List.cons_subset.2 ⟨hb, List.nil_subset _⟩)

theorem spans_inside (hsub : branches ⊆ s.children) (hn : S.nests) :
    ∀ span ∈ spansOf branches, span.Inside s.token.span := by
  intro span hspan
  obtain ⟨b, hb, rfl⟩ := List.mem_map.1 hspan
  exact child_inside hs hn (hsub hb)

/-- Children stand in order. -/
theorem spans_apart (hsub : branches.Sublist s.children) (ho : S.ordered) :
    (spansOf branches).Pairwise Span.Before := by
  have hall : (spansOf s.children).Pairwise Span.Before := by
    have hapart := (hs.lies.inOrder ho).apart
    rw [List.pairwise_map] at hapart
    exact List.pairwise_map.2 (hapart.imp fun h => Int.ofNat_le.2 h)
  exact hall.sublist (hsub.map _)

/-- What is drawn from children is drawn from the node. -/
theorem gathered {os : List Occurrence} (h : S.Drawn limit (spansOf branches) os)
    (hsub : branches.Sublist s.children) : S.Drawn limit [s.token.span] os :=
  h.gather (spans_inside hs hsub.subset) (spans_apart hs hsub)

/-- A node that tells nothing is drawn from its range if its fields are drawn from inside of it. -/
theorem nodeOf_drawn {type : Text} {fields : List (String × Value)} {spans : List Span}
    (hnames : areFieldNames (fields.map Prod.fst) = true) (htype : type ∉ tellingTypes)
    (h : S.Drawn s.token.stop spans (recordsOfFields (some type) (namedFields fields)))
    (hin : S.nests → ∀ span ∈ spans, span.Inside s.token.span)
    (hord : S.ordered → spans.Pairwise Span.Before) : S.From s.token (nodeOf type s.token fields) :=
  drawn_node (apart_namedFields hnames) (spelled_of_untold rfl htype) h
    (fun hn => ⟨site_wide hs hn, hin hn⟩) hord

end

/-! ## What several children become -/

section

variable {x : Except Fault Value} {f : Branch → Except Fault Value}

theorem value_drawn (h : AllDrawn S limit [b]) :
    IfOk (fun v => S.Drawn limit (spansOf [b]) (records none v)) (Branch.value b) :=
  h.here.value.mono fun _ hv => hv.within h

theorem valueOf_drawn (h : AllDrawn S limit b?.toList) :
    IfOk (fun v => S.Drawn limit (spansOf b?.toList) (records none v)) (valueOf b?) := by
  cases b? with
  | none => exact .nil
  | some b => exact value_drawn h

/-- What each element becomes, all of them become together. -/
theorem mapM_drawnBy (S : Survey) (limit : Int) {α β : Type} (spans : α → List Span)
    (os : β → List Occurrence) {f : α → Except Fault β} {l : List α}
    (hf : ∀ a ∈ l, IfOk (fun b => S.Drawn limit (spans a) (os b)) (f a)) :
    IfOk (fun bs => S.Drawn limit (l.flatMap spans) (bs.flatMap os)) (l.mapM f) := by
  induction l with
  | nil => exact .nil
  | cons a rest ih =>
    obtain ⟨ha, hrest⟩ := List.forall_mem_cons.1 hf
    rw [List.mapM_cons]
    exact ha.bind fun b hb => (ih hrest).bind fun bs hbs => hb.append hbs

theorem spansOf_eq (branches : List Branch) : spansOf branches = branches.flatMap fun b => spansOf [b] :=
  List.map_eq_flatMap

theorem mapM_drawn (S : Survey) (limit : Int)
    (hf : ∀ b ∈ branches, IfOk (fun v => S.Drawn limit (spansOf [b]) (records none v)) (f b)) :
    IfOk (fun values => S.Drawn limit (spansOf branches) (recordsOfItems values)) (branches.mapM f) := by
  rw [spansOf_eq]
  refine (mapM_drawnBy S limit _ (records none) hf).mono fun values hvalues => ?_
  rwa [Value.recordsOfItems_eq]

theorem valuesOf_drawn (h : AllDrawn S limit branches) :
    IfOk (fun values => S.Drawn limit (spansOf branches) (recordsOfItems values)) (valuesOf branches) := by
  refine (mapM_drawn S limit fun b hb => value_drawn (h.singleton hb)).bind fun values hvalues => ?_
  refine Yields.pure.2 ?_
  rwa [Value.recordsOfItems_filter]

/-- Branches that lie in a stretch of the source, one after another. -/
structure Survey.Cuts (S : Survey) (span : Span) (branches : List Branch) : Prop where
  inside : S.nests → ∀ a ∈ spansOf branches, a.Inside span
  apart : S.ordered → (spansOf branches).Pairwise Span.Before

theorem cuts_children (hs : s.Drawn S) (hsub : branches.Sublist s.children) :
    S.Cuts s.token.span branches :=
  ⟨fun hn => spans_inside hs hsub.subset hn, spans_apart hs hsub⟩

section

variable {below : Branch → List Branch} (hbelow : ∀ b ∈ branches, S.Cuts b.token.span (below b))

include hbelow

theorem flatMap_apart (ho : S.ordered) (h : (spansOf branches).Pairwise Span.Before) :
    (spansOf (branches.flatMap below)).Pairwise Span.Before := by
  have hn := S.nests_of_ordered ho
  rw [spansOf, List.pairwise_map] at h ⊢
  refine List.pairwise_flatMap.2 ⟨fun b hb => List.pairwise_map.1 ((hbelow b hb).apart ho), ?_⟩
  refine h.imp_of_mem fun hb hc hbc d hd e he => ?_
  have hd := (hbelow _ hb).inside hn _ (List.mem_map_of_mem hd)
  have he := (hbelow _ hc).inside hn _ (List.mem_map_of_mem he)
  exact Int.le_trans hd.2 (Int.le_trans hbc he.1)

/-- What lies below branches lies where the branches lie. -/
theorem Survey.Cuts.flatMap {span : Span} (h : S.Cuts span branches) :
    S.Cuts span (branches.flatMap below) := by
  refine ⟨fun hn a ha => ?_, fun ho => flatMap_apart hbelow ho (h.apart ho)⟩
  obtain ⟨c, hc, rfl⟩ := List.mem_map.1 ha
  obtain ⟨b, hb, hc⟩ := List.mem_flatMap.1 hc
  exact ((hbelow b hb).inside hn _ (List.mem_map_of_mem hc)).trans (h.inside hn _ (List.mem_map_of_mem hb))

/-- What is drawn from below branches is drawn from the branches. -/
theorem flatMap_drawn {os : List Occurrence} (h : S.Drawn limit (spansOf (branches.flatMap below)) os) :
    S.Drawn limit (spansOf branches) os := by
  refine h.coarsen (fun hn a ha => ?_) (flatMap_apart hbelow)
  obtain ⟨c, hc, rfl⟩ := List.mem_map.1 ha
  obtain ⟨b, hb, hc⟩ := List.mem_flatMap.1 hc
  exact ⟨b.token.span, List.mem_map_of_mem hb, (hbelow b hb).inside hn _ (List.mem_map_of_mem hc)⟩

end

/-- One of the children is what it is alone, and several become a node. -/
theorem sequenceOf_drawn (hs : s.Drawn S) (hsub : branches.Sublist s.children) :
    IfOk (S.From s.token) (sequenceOf s.token branches) := by
  have hall := children_drawn hs hsub.subset
  have several : IfOk (S.From s.token) (do
      pure (nodeOf "SequenceExpression" s.token [("expressions", .list (← valuesOf branches))])) := by
    refine (valuesOf_drawn hall).bind fun values hvalues => ?_
    refine nodeOf_drawn hs rfl (by decide) (.last hvalues.list) ?_ ?_
    · simpa using spans_inside hs hsub.subset
    · simpa using spans_apart hs hsub
  rcases branches with _ | ⟨b, _ | ⟨c, rest⟩⟩
  · exact several
  · exact (value_drawn hall).mono fun v hv => gathered hs hv hsub
  · exact several

theorem expressionOf_drawn (hs : s.Drawn S) : IfOk (S.From s.token) (expressionOf s) := by
  have hsequence := sequenceOf_drawn hs (List.filter_sublist (p := Tree.isPart))
  unfold expressionOf
  split
  · exact Yields.ok.2 .nil
  · exact hsequence

theorem firstOf_drawn (hs : s.Drawn S) :
    IfOk (fun v => S.Drawn s.token.stop (spansOf s.first?.toList) (records none v)) (firstOf s) :=
  valueOf_drawn (children_drawn hs (first?_sublist s).subset)

/-- What is picked within a child is drawn from the child. -/
theorem valueWithin_drawn (h : AllDrawn S limit [b]) (hsub : b?.toList.Sublist b.children) :
    IfOk (fun v => S.Drawn limit (spansOf [b]) (records none v)) (valueOf b?) :=
  (valueOf_drawn (children_drawn h.site hsub.subset)).mono fun _ hv =>
    Survey.Drawn.within (gathered h.site hv hsub) h

theorem firstWithin_drawn (h : AllDrawn S limit [b]) :
    IfOk (fun v => S.Drawn limit (spansOf [b]) (records none v)) (firstOf b.site) :=
  valueWithin_drawn h (first?_sublist b.site)

/-- The parts of a child are drawn from the child. -/
theorem partsWithin_drawn (h : AllDrawn S limit [b]) :
    IfOk (fun values => S.Drawn limit (spansOf [b]) (recordsOfItems values)) (valuesOf b.site.parts) :=
  (valuesOf_drawn (children_drawn h.site (parts_sublist b.site).subset)).mono fun _ hv =>
    Survey.Drawn.within (gathered h.site hv (parts_sublist b.site)) h

theorem expressionWithin_drawn (h : AllDrawn S limit [b]) :
    IfOk (fun v => S.Drawn limit (spansOf [b]) (records none v)) (expressionOf b.site) :=
  (expressionOf_drawn h.site).mono fun _ hv => Survey.Drawn.within hv h

theorem elementsOf_drawn (h : AllDrawn S limit branches) (pending : Bool) :
    IfOk (fun values => S.Drawn limit (spansOf (branches.filter Tree.isPart)) (recordsOfItems values))
      (elementsOf pending branches) := by
  induction branches generalizing pending with
  | nil => exact .nil
  | cons b rest ih =>
    have hrest := h.subset (List.subset_cons_self b rest)
    have skip (hb : (rest.filter Tree.isPart).Sublist ((b :: rest).filter Tree.isPart)) (pending' : Bool) :
        IfOk (fun values => S.Drawn limit (spansOf ((b :: rest).filter Tree.isPart)) (recordsOfItems values))
          (elementsOf pending' rest) :=
      (ih hrest pending').mono fun _ hv => hv.weaken (hb.map _)
    have hskip := skip ((List.sublist_cons_self b rest).filter _)
    rw [elementsOf]
    split
    · refine (hskip false).bind fun after hafter => ?_
      cases pending with
      | true => exact hafter
      | false => exact hafter
    · split
      · next hpart =>
        refine (value_drawn (h.singleton (List.mem_cons_self ..))).bind fun v hv => ?_
        refine (ih hrest true).bind fun after hafter => ?_
        rw [List.filter_cons_of_pos hpart]
        exact hv.append hafter
      · exact hskip pending

theorem clauseOf_drawn (h : AllDrawn S limit b?.toList) :
    IfOk (fun v => S.Drawn limit (spansOf b?.toList) (records none v)) (clauseOf b?) := by
  cases b? with
  | none => exact .nil
  | some b =>
    rw [clauseOf]
    split
    · exact Yields.ok.2 .nil
    · split
      · exact expressionWithin_drawn h
      · exact value_drawn h

theorem keyOf_drawn (h : AllDrawn S limit b?.toList) :
    IfOk (fun v => S.Drawn limit (spansOf b?.toList) (records none v)) (keyOf b?) := by
  cases b? with
  | none => exact .nil
  | some b =>
    rw [keyOf]
    split
    · exact expressionWithin_drawn h
    · exact value_drawn h

/-- The identifier that a token spells starts where the token starts. -/
theorem identifierOf_drawn (t : Token) :
    S.Drawn t.stop [⟨t.start, t.start⟩] (records none (identifierOf S.source t)) := by
  have hspelled : S.Spelled none (nodeFields "Identifier" t.start t.stop
      (namedFields [("name", .text (t.text S.source))])) := by
    refine .inr (.inr (.inr (spells_name (by decide) fun name hname => ?_)))
    rw [get?_namedFields_cons, if_pos rfl] at hname
    exact (Scalar.text.inj (Value.scalar.inj (Option.some.inj hname))).symm
  exact drawn_node (p := []) (apart_namedFields rfl) hspelled (.field (p := []) .nil .nil)
    (fun _ => ⟨Int.le_refl _, by simp⟩) (by simp)

theorem shorthandOf_drawn {t : Token} (hwide : S.nests → t.start ≤ t.stop) :
    S.From t (shorthandOf S.source t) := by
  have hname := identifierOf_drawn (S := S) t
  refine drawn_node (p := [⟨t.start, t.start⟩, ⟨t.start, t.start⟩]) (apart_namedFields rfl)
    (spelled_of_untold rfl (by decide)) ?_ (fun hn => ?_) fun _ => ?_
  · exact .flat (.flat (.flat (.flat (.field hname.placed (.last hname.placed)))))
  · have hwide : (t.start : Int) ≤ t.stop := Int.ofNat_le.2 (hwide hn)
    simp [Span.Inside, hwide]
  · simp [Span.Before]

theorem membersOf_drawn (h : AllDrawn S limit branches) :
    IfOk (fun values => S.Drawn limit (spansOf branches) (recordsOfItems values))
      (membersOf S.source branches) := by
  refine (mapM_drawn S limit fun b hb => ?_).bind fun values hvalues => ?_
  · have hb := h.singleton hb
    split
    · exact (shorthandOf_drawn fun hn => (hb.here.lies.nests hn).wide).within hb
    · exact value_drawn hb
  · refine Yields.pure.2 ?_
    rwa [Value.recordsOfItems_filter]

theorem paramsOf_drawn (h : AllDrawn S limit b?.toList) :
    IfOk (fun values => S.Drawn limit (spansOf b?.toList) (recordsOfItems values)) (paramsOf b?) := by
  cases b? with
  | none => exact .nil
  | some b =>
    rw [paramsOf]
    split
    · exact partsWithin_drawn h
    · exact valuesOf_drawn h

theorem decoratorsOf_drawn (hs : s.Drawn S) :
    IfOk (fun values => S.Drawn s.token.stop (spansOf (decoratorsAt s)) (recordsOfItems values))
      (decoratorsOf s) := by
  have heq : decoratorsOf s = valuesOf (decoratorsAt s) := by
    unfold decoratorsOf decoratorsAt
    cases s.fieldAll "decorator" <;> rfl
  rw [heq]
  exact valuesOf_drawn (children_drawn hs (decoratorsAt_sublist s).subset)

theorem jsxAttributesOf_drawn (hs : s.Drawn S) :
    IfOk (fun values => S.Drawn s.token.stop (spansOf (attributesAt s)) (recordsOfItems values))
      (jsxAttributesOf s) := by
  have heq : jsxAttributesOf s = valuesOf (attributesAt s) := by
    unfold jsxAttributesOf attributesAt
    cases s.fieldAll "attribute" <;> rfl
  rw [heq]
  exact valuesOf_drawn (children_drawn hs (attributesAt_sublist s).subset)

/-- The base of a class and what it implements are drawn from clauses of their own. -/
theorem heritageClauses_drawn {base : Value} {implemented : List Value} {p q : List Span}
    (h : AllDrawn S limit branches) (hbase : S.Drawn limit p (records none base))
    (himplemented : S.Drawn limit q (recordsOfItems implemented)) :
    IfOk (fun found =>
      S.Drawn limit (p ++ spansOf (branches.filter fun b => !isImplements b)) (records none found.1) ∧
        S.Drawn limit (q ++ spansOf (branches.filter isImplements)) (recordsOfItems found.2))
      (heritageClauses base implemented branches) := by
  induction branches generalizing base implemented p q with
  | nil =>
    refine Yields.ok.2 ⟨?_, ?_⟩
    · rwa [List.filter_nil, spansOf, List.map_nil, List.append_nil]
    · rwa [List.filter_nil, spansOf, List.map_nil, List.append_nil]
  | cons clause rest ih =>
    have hclause := h.singleton (List.mem_cons_self ..)
    have hrest := h.subset (List.subset_cons_self clause rest)
    -- a clause that gives the base comes before what is left of the clauses
    have based (hkind : isImplements clause = false) {v : Value} {p' : List Span}
        (hp : p'.Sublist (p ++ spansOf [clause])) (hv : S.Drawn limit p' (records none v)) :
        IfOk (fun found =>
          S.Drawn limit (p ++ spansOf ((clause :: rest).filter fun b => !isImplements b))
              (records none found.1) ∧
            S.Drawn limit (q ++ spansOf ((clause :: rest).filter isImplements)) (recordsOfItems found.2))
          (heritageClauses v implemented rest) := by
      refine (ih hrest (hv.weaken hp) himplemented).mono fun found hfound => ?_
      rw [List.filter_cons_of_pos (by simp [hkind]), List.filter_cons_of_neg (by simp [hkind])]
      rw [List.append_assoc] at hfound
      exact hfound
    have hlast : (spansOf [clause]).Sublist (p ++ spansOf [clause]) := List.sublist_append_right _ _
    rw [heritageClauses]
    split
    · next hkind =>
      have hsub : (clause.site.field? "value" <|> clause.site.first?).toList.Sublist clause.children :=
        orElse_sublist (field?_sublist clause.site "value") (first?_sublist clause.site)
      exact (valueWithin_drawn hclause hsub).bind fun v hv =>
        based (by rw [isImplements, hkind]; decide) hlast hv
    · split
      · next hkind =>
        have himplements : isImplements clause = true := decide_eq_true hkind
        refine (partsWithin_drawn hclause).bind fun more hmore => ?_
        have happend := himplemented.append hmore
        rw [← Value.recordsOfItems_append] at happend
        refine (ih hrest hbase happend).mono fun found hfound => ?_
        rw [List.filter_cons_of_neg (by simp [himplements]), List.filter_cons_of_pos himplements]
        rw [List.append_assoc] at hfound
        exact hfound
      · next hkind =>
        have hother : isImplements clause = false := decide_eq_false hkind
        split
        · exact (value_drawn hclause).bind fun v hv => based hother hlast hv
        · exact based hother (List.sublist_append_left _ _) hbase

theorem heritageAt_cases (s : Site) :
    heritageAt s = [] ∨ ∃ heritage ∈ s.partsOf "class_heritage", heritageAt s = heritage.site.parts := by
  unfold heritageAt
  split
  · next heritage hlast => exact .inr ⟨heritage, List.mem_of_getLast? hlast, rfl⟩
  · exact .inl rfl

theorem heritageAt_drawn (hs : s.Drawn S) : AllDrawn S s.token.stop (heritageAt s) := by
  rcases heritageAt_cases s with heq | ⟨heritage, hmem, heq⟩
  · rw [heq]
    exact fun b hb => absurd hb List.not_mem_nil
  · rw [heq]
    have hheritage := children_drawn hs (partsOf_sublist s "class_heritage").subset
    have hparts := children_drawn (hheritage.singleton hmem).site (parts_sublist heritage.site).subset
    exact fun b hb => ⟨(hparts b hb).1, fun hn =>
      Int.le_trans ((hparts b hb).2 hn) ((hheritage heritage hmem).2 hn)⟩

theorem heritageOf_drawn (hs : s.Drawn S) :
    IfOk (fun found =>
      S.Drawn s.token.stop (spansOf ((heritageAt s).filter fun b => !isImplements b)) (records none found.1) ∧
        S.Drawn s.token.stop (spansOf ((heritageAt s).filter isImplements)) (recordsOfItems found.2))
      (heritageOf s) := by
  have heq : heritageOf s = heritageClauses .null [] (heritageAt s) := by
    unfold heritageOf heritageAt
    cases (s.partsOf "class_heritage").getLast? <;> rfl
  have hnull : S.Drawn s.token.stop [] (records none .null) := .nil
  have hnone : S.Drawn s.token.stop [] (recordsOfItems []) := .nil
  rw [heq]
  exact heritageClauses_drawn (heritageAt_drawn hs) hnull hnone

theorem jsxNameOf_drawn (h : AllDrawn S limit b?.toList) :
    IfOk (fun v => S.Drawn limit (spansOf b?.toList) (records none v)) (jsxNameOf b?) := by
  cases b? with
  | none => exact .nil
  | some b => exact h.here.jsxName.mono fun _ hv => Survey.Drawn.within hv h

theorem typeOf_drawn (h : AllDrawn S limit b?.toList) :
    IfOk (fun v => S.Drawn limit (spansOf b?.toList) (records none v)) (typeOf S.source b?) := by
  cases b? with
  | none => exact .nil
  | some b =>
    rw [typeOf]
    split
    · -- a bare name refers to a type
      have hname := identifierOf_drawn (S := S) b.token
      have hwide : S.nests → (b.token.start : Int) ≤ b.token.stop := fun hn =>
        Int.ofNat_le.2 (h.here.lies.nests hn).wide
      refine Survey.Drawn.within (drawn_node (apart_namedFields rfl) (spelled_of_untold rfl (by decide))
        (.last hname.placed) (fun hn => ⟨hwide hn, ?_⟩) (by simp)) h
      simp [Span.Inside, hwide hn]
    · exact value_drawn h

end

end

end Arbor.Lowering
