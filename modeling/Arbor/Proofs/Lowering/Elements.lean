import Arbor.Proofs.Lowering.Filling
import Arbor.Proofs.Lowering.Places

set_option autoImplicit false

/-! # What elements leave

An element has its tags at its ends: in a tree in order the opening tag comes before the children, and the closing
tag after them. -/

namespace Arbor.Lowering

open Value (nodeFields headKeys Apart typeOf? startOf? rangeOf? records recordsOfItems recordsOfFields)

section

variable {S : Survey} {s : Site} {b : Branch} {b? c? : Option Branch} {limit : Int}

/-! ## Names and braces -/

section

variable (hs : s.Drawn S)

include hs

/-- Two parts become a name. -/
theorem namePair_drawn (hsub : b?.toList ⊆ s.children) (hsub' : c?.toList ⊆ s.children)
    (hord : S.ordered → (spansOf b?.toList ++ spansOf c?.toList).Pairwise Span.Before) {type : Text}
    {name name' : String} (hnames : areFieldNames [name, name'] = true) (huntold : type ∉ tellingTypes) :
    IfOk (S.From s.token) (do
      let first ← jsxNameOf b?
      let second ← jsxNameOf c?
      pure (nodeOf type s.token [(name, first), (name', second)])) := by
  refine (jsxNameOf_drawn (children_drawn hs hsub)).bind fun first hfirst => ?_
  refine (jsxNameOf_drawn (children_drawn hs hsub')).bind fun second hsecond => ?_
  refine nodeOf_drawn hs hnames huntold (.field hfirst.placed (.last hsecond.placed)) (fun hn => ?_) hord
  exact List.forall_mem_append.2 ⟨spans_inside hs hsub hn, spans_inside hs hsub' hn⟩

/-- The first and the last part stand in order. -/
theorem ends_apart (ho : S.ordered) :
    (spansOf s.first?.toList ++ spansOf (s.parts.drop 1).getLast?.toList).Pairwise Span.Before := by
  have hfollow : Reach.follow (grammarOrder s.token.kind) [.first, .lastOfMany] = true := rfl
  have hapart := reads_apart hs ho hfollow
  simpa [Reach.reads, Reach.picks] using hapart

theorem jsxNameAt_drawn {value : Except Fault Value} (hvalue : IfOk (S.From s.token) value) :
    IfOk (S.From s.token) (jsxNameAt S.source s value) := by
  have hfirst := (first?_sublist s).subset
  have hlast := (lastOfMany_sublist s).subset
  unfold jsxNameAt
  dsimp only
  split
  · have hspelled : S.Spelled none (nodeFields "JSXIdentifier" s.token.start s.token.stop
        (namedFields [("name", .text (s.token.text S.source))])) := by
      refine .inr (.inr (.inr (spells_name (by decide) fun name hname => ?_)))
      rw [get?_namedFields_cons, if_pos rfl] at hname
      exact (Scalar.text.inj (Value.scalar.inj (Option.some.inj hname))).symm
    exact Yields.pure.2 (drawn_node (p := []) (apart_namedFields rfl) hspelled (.flat .nil)
      (fun hn => ⟨site_wide hs hn, by simp⟩) (by simp))
  · split
    · exact namePair_drawn hs hfirst hlast (ends_apart hs) rfl (by decide)
    · split
      · next hkind =>
        have hfollow : Reach.follow (grammarOrder s.token.kind) [.field "object", .field "property"] = true := by
          rcases hkind with hkind | hkind <;> rw [hkind] <;> decide
        have hfields (ho : S.ordered) :
            (spansOf (s.field? "object").toList ++ spansOf (s.field? "property").toList).Pairwise Span.Before := by
          have hapart := reads_apart hs ho hfollow
          simpa [Reach.reads, Reach.picks] using hapart
        split
        · next object property hobject hproperty =>
          rw [hobject, hproperty] at hfields
          refine namePair_drawn hs ?_ ?_ hfields rfl (by decide)
          · exact hobject ▸ (field?_sublist s "object").subset
          · exact hproperty ▸ (field?_sublist s "property").subset
        · have hends := ends_apart hs
          split
          · next last hl =>
            rw [hl] at hends hlast
            exact namePair_drawn hs hfirst hlast hends rfl (by decide)
          · have hnone : (none : Option Branch).toList ⊆ s.children := List.nil_subset _
            exact namePair_drawn hs hnone hnone (fun _ => .nil) rfl (by decide)
      · exact hvalue

theorem jsxExpressionOf_drawn (hkind : s.token.kind = "jsx_expression") (inTag : Bool) :
    IfOk (S.From s.token) (jsxExpressionOf s inTag) := by
  unfold jsxExpressionOf
  split
  · have hstart (hn : S.nests) : s.token.start < s.token.stop :=
      (hs.lies.nests hn).delimited (by rw [hkind]; decide)
    -- what is empty starts after the brace
    let inner : Nat := s.token.start + 1
    let stop : Nat := max inner (s.token.stop - 1)
    have hinner : S.Drawn stop [⟨inner, inner⟩] (records (some ⟨"JSXExpressionContainer", .text "expression"⟩)
        (nodeAt "JSXEmptyExpression" inner stop [])) :=
      drawn_node (p := []) (apart_namedFields rfl) (spelled_of_untold rfl (by decide)) .nil
        (fun _ => ⟨Int.le_refl _, by simp⟩) (by simp)
    have hempty : S.Drawn s.token.stop [s.token.span] (records (some ⟨"JSXExpressionContainer", .text "expression"⟩)
        (nodeAt "JSXEmptyExpression" inner stop [])) := by
      refine (hinner.raise fun hn => ?_).coarsen (fun hn => ?_) fun _ _ => List.pairwise_singleton _ _
      · have hstart := hstart hn
        omega
      · exact List.forall_mem_singleton.2 ⟨s.token.span, List.mem_singleton_self _,
          Int.ofNat_le.2 (Nat.le_succ _), Int.ofNat_le.2 (hstart hn)⟩
    exact Yields.pure.2 (node_drawn hs [.whole] rfl (by decide) (fun _ => rfl) (.field hempty .nil))
  · next part rest heq =>
    have hpart : part ∈ s.children := (parts_sublist s).subset (heq ▸ List.mem_cons_self ..)
    have hone : [part] ⊆ s.children := List.cons_subset.2 ⟨hpart, List.nil_subset _⟩
    split
    · refine (firstWithin_drawn (children_drawn hs hone)).bind fun v hv => ?_
      exact Yields.pure.2 (nodeOf_drawn hs rfl (by decide) (.last hv.placed) (spans_inside hs hone)
        fun _ => List.pairwise_singleton _ _)
    · refine (sequenceOf_drawn hs (heq ▸ parts_sublist s)).bind fun v hv => ?_
      exact Yields.pure.2 (node_drawn hs [.whole] rfl (by decide) (fun _ => rfl) (.field hv.placed .nil))

end

/-! ## Children -/

theorem jsxChildOf_drawn (hb : AllDrawn S limit [b]) : IfOk (S.From b.token) (jsxChildOf S.source b) := by
  have hs := hb.site
  have hwide (hn : S.nests) := site_wide hs hn
  unfold jsxChildOf
  dsimp only
  split
  · have hspelled : S.Spelled none (nodeFields "JSXText" b.token.start b.token.stop (namedFields
        [("value", .text (b.token.text S.source)), ("raw", .text (b.token.text S.source))])) :=
      .inr (.inr (.inr (spells_raw (.inl rfl) (by
        rw [get?_namedFields_cons, if_neg (by decide), get?_namedFields_cons, if_pos rfl]; rfl))))
    exact Yields.ok.2 (drawn_node (p := []) (apart_namedFields rfl) hspelled (.flat (.flat .nil))
      (fun hn => ⟨hwide hn, by simp⟩) (by simp))
  · split
    · split
      · next part hpart =>
        have hone : [part] ⊆ b.site.children := by
          have hfirst := (first?_sublist b.site).subset
          rwa [hpart] at hfirst
        split
        · refine (firstWithin_drawn (children_drawn hs hone)).bind fun v hv => ?_
          exact Yields.pure.2 (nodeOf_drawn hs rfl (by decide) (.last hv.placed) (spans_inside hs hone)
            fun _ => List.pairwise_singleton _ _)
        · exact hb.here.value
      · exact hb.here.value
    · exact hb.here.value

/-! ## Tags -/

/-- What is left when the elements at the ends are put back at the ends. -/
theorem ends_sublist {α : Type} {l : List α} {isEnd : α → Bool} {first? last? : Option α}
    (hfirst : ∀ a, first? = some a → l.head? = some a ∧ isEnd a = true)
    (hlast : ∀ a, last? = some a → l.getLast? = some a ∧ isEnd a = true)
    (hne : ∀ a, first? = some a → last? ≠ some a) :
    (first?.toList ++ (l.filter (fun a => !isEnd a) ++ last?.toList)).Sublist l := by
  have closed {l : List α} (hlast : ∀ a, last? = some a → l.getLast? = some a ∧ isEnd a = true) :
      (l.filter (fun a => !isEnd a) ++ last?.toList).Sublist l := by
    cases last? with
    | none =>
      rw [Option.toList_none, List.append_nil]
      exact List.filter_sublist
    | some a =>
      obtain ⟨hget, hend⟩ := hlast a rfl
      obtain ⟨init, rfl⟩ := List.getLast?_eq_some_iff.1 hget
      rw [List.filter_append, List.filter_cons_of_neg (by simp [hend]), List.filter_nil, List.append_nil]
      exact List.filter_sublist.append (List.Sublist.refl _)
  cases first? with
  | none => exact closed hlast
  | some a =>
    obtain ⟨hhead, hend⟩ := hfirst a rfl
    obtain ⟨rest, rfl⟩ := List.head?_eq_some_iff.1 hhead
    rw [List.filter_cons_of_neg (by simp [hend])]
    refine (closed fun b hb => ?_).cons_cons a
    obtain ⟨hget, hend⟩ := hlast b hb
    cases rest with
    | nil =>
      obtain rfl : a = b := Option.some.inj hget
      exact absurd hb (hne a rfl)
    | cons c rest => exact ⟨by rwa [List.getLast?_cons_cons] at hget, hend⟩

theorem map_fst_placedParts (s : Site) : (placedParts s.children 0).map Prod.fst = s.parts := by
  have hparts := List.filter_map (f := Prod.fst) (p := Tree.isPart) (l := s.children.zipIdx)
  rw [List.zipIdx_map_fst] at hparts
  exact hparts.symm

theorem mem_children_of_placed {s : Site} {p : Placed} (h : p ∈ placedParts s.children 0) : p.1 ∈ s.children :=
  (parts_sublist s).subset (map_fst_placedParts s ▸ List.mem_map_of_mem h)

/-- A tag is found at an end of the parts, if no other part has its field. -/
theorem eq_end_of_tagOf {parts : List Placed} {field kind : String} {end? : Option Placed} {p : Placed}
    (hfield : ∀ q ∈ parts, q.1.token.field? = some field → end? = some q ∧ q.1.kind = kind)
    (h : tagOf parts field kind end? = some p) : end? = some p ∧ p.1.kind = kind := by
  unfold tagOf at h
  split at h
  · next q hq =>
    cases h
    exact hfield _ (List.mem_of_find?_eq_some hq) (by simpa using List.find?_some hq)
  · obtain ⟨hend, hp⟩ := Option.filter_eq_some_iff.1 h
    exact ⟨hend, of_decide_eq_true hp⟩

namespace Site

variable (s : Site)

/-- The opening tag of an element. -/
def openingTag? : Option Placed :=
  tagOf (placedParts s.children 0) "open_tag" "jsx_opening_element" (placedParts s.children 0).head?

/-- The closing tag of an element. -/
def closingTag? : Option Placed :=
  tagOf (placedParts s.children 0) "close_tag" "jsx_closing_element" (placedParts s.children 0).getLast?

/-- Whether a part of an element is one of its tags. -/
def isTag (p : Placed) : Bool :=
  s.openingTag?.map Prod.snd = some p.2 || s.closingTag?.map Prod.snd = some p.2

/-- The parts of an element that are no tags. -/
def inner : List Placed := (placedParts s.children 0).filter fun p => !s.isTag p

theorem mem_of_openingTag {p : Placed} (h : s.openingTag? = some p) : p ∈ placedParts s.children 0 :=
  mem_of_tagOf (fun _ => List.mem_of_mem_head?) h

theorem mem_of_closingTag {p : Placed} (h : s.closingTag? = some p) : p ∈ placedParts s.children 0 :=
  mem_of_tagOf (fun _ => List.mem_of_getLast?) h

theorem mem_of_inner {p : Placed} (h : p ∈ s.inner) : p ∈ placedParts s.children 0 := List.mem_of_mem_filter h

end Site

section

variable (hs : s.Drawn S) (ho : S.ordered) (hkind : s.token.kind = "jsx_element")

include hs ho hkind

/-- The parts before and after a part of an element are no tags. -/
theorem tags_apart : (placedParts s.children 0).Pairwise fun p q =>
    q.1.token.field? ≠ some "open_tag" ∧ p.1.token.field? ≠ some "close_tag" := by
  have htags := (hs.lies.inOrder ho).tags hkind
  rwa [parts_tokens, ← map_fst_placedParts, List.map_map, List.pairwise_map] at htags

/-- In order the opening tag is the first part. -/
theorem opening_first {p : Placed} (h : s.openingTag? = some p) :
    (placedParts s.children 0).head? = some p ∧ p.1.kind = "jsx_opening_element" := by
  have hends := tags_apart hs ho hkind
  refine eq_end_of_tagOf (fun q hq hfield => ⟨?_, ?_⟩) h
  · cases hparts : placedParts s.children 0 with
    | nil =>
      rw [hparts] at hq
      cases hq
    | cons first rest =>
      rw [hparts] at hq hends
      rcases List.mem_cons.1 hq with rfl | hq
      · rfl
      · exact absurd hfield (List.rel_of_pairwise_cons hends hq).1
  · exact ((hs.lies.inOrder ho).tagKinds hkind _ (List.mem_map_of_mem (mem_children_of_placed hq))).1 hfield

/-- In order the closing tag is the last part. -/
theorem closing_last {p : Placed} (h : s.closingTag? = some p) :
    (placedParts s.children 0).getLast? = some p ∧ p.1.kind = "jsx_closing_element" := by
  have hends := tags_apart hs ho hkind
  refine eq_end_of_tagOf (fun q hq hfield => ⟨?_, ?_⟩) h
  · rcases List.eq_nil_or_concat (placedParts s.children 0) with hparts | ⟨init, last, hparts⟩
    · rw [hparts] at hq
      cases hq
    · rw [List.concat_eq_append] at hparts
      rw [hparts] at hq hends
      rw [hparts, List.getLast?_concat]
      rcases List.mem_append.1 hq with hq | hq
      · exact absurd hfield ((List.pairwise_append.1 hends).2.2 q hq last (List.mem_singleton_self _)).2
      · rw [List.mem_singleton.1 hq]
  · exact ((hs.lies.inOrder ho).tagKinds hkind _ (List.mem_map_of_mem (mem_children_of_placed hq))).2 hfield

end

/-! ## Elements -/

/-- The ranges of the tags and of what stands between them. -/
def elementSpans (opening? : Option Placed) (inner : List Placed) (closing? : Option Placed) : List Span :=
  spansOf (opening?.map Prod.fst).toList ++
    (spansOf (inner.map Prod.fst) ++ spansOf (closing?.map Prod.fst).toList)

theorem elementSpans_eq (opening? : Option Placed) (inner : List Placed) (closing? : Option Placed) :
    elementSpans opening? inner closing? =
      spansOf ((opening?.toList ++ (inner ++ closing?.toList)).map Prod.fst) := by
  cases opening? <;> cases closing? <;> simp [elementSpans, spansOf]

/-- A tag without a name is drawn from its range. -/
theorem bareTag_drawn (hb : AllDrawn S limit [b]) {type : Text} (huntold : type ∉ tellingTypes) :
    S.Drawn limit (spansOf [b]) (records none (nodeOf type b.token [])) :=
  Survey.Drawn.within (node_drawn hb.site [] rfl huntold (fun _ => rfl) .nil) hb

-- the hypothesis stands after the colon, since the match would take it up otherwise
theorem closingFragment_drawn (closing? : Option Placed) :
    AllDrawn S limit (closing?.map Prod.fst).toList →
      S.Drawn limit (spansOf (closing?.map Prod.fst).toList) (records none (match closing? with
        | some (b, _) => nodeOf "JSXClosingFragment" b.token []
        | none => .null)) := by
  intro h
  cases closing? with
  | none => exact .nil
  | some p => exact bareTag_drawn h (by decide)

section

variable (hs : s.Drawn S)

include hs

theorem placed_drawn {p : Placed} (hp : p ∈ placedParts s.children 0) : AllDrawn S s.token.stop [p.1] :=
  child_drawn hs (mem_children_of_placed hp)

/-- The tags and what stands between them lie within the element. -/
theorem elementSpans_inside (hn : S.nests) :
    ∀ a ∈ elementSpans s.openingTag? s.inner s.closingTag?, a.Inside s.token.span := by
  rw [elementSpans_eq]
  refine spans_inside hs (fun b hb => ?_) hn
  obtain ⟨p, hp, rfl⟩ := List.mem_map.1 hb
  rcases List.mem_append.1 hp with hp | hp
  · exact mem_children_of_placed (s.mem_of_openingTag (Option.mem_toList.1 hp))
  rcases List.mem_append.1 hp with hp | hp
  · exact mem_children_of_placed (s.mem_of_inner hp)
  · exact mem_children_of_placed (s.mem_of_closingTag (Option.mem_toList.1 hp))

/-- In order the tags stand around what is between them. -/
theorem elementSpans_apart (ho : S.ordered) (hkind : s.token.kind = "jsx_element") :
    (elementSpans s.openingTag? s.inner s.closingTag?).Pairwise Span.Before := by
  have hsub : (s.openingTag?.toList ++ (s.inner ++ s.closingTag?.toList)).Sublist (placedParts s.children 0) := by
    refine ends_sublist (fun p hp => ⟨(opening_first hs ho hkind hp).1, by simp [Site.isTag, hp]⟩)
      (fun p hp => ⟨(closing_last hs ho hkind hp).1, by simp [Site.isTag, hp]⟩) fun p hp hp' => ?_
    -- the two tags are of different kinds
    have hkinds := (opening_first hs ho hkind hp).2
    rw [(closing_last hs ho hkind hp').2] at hkinds
    exact absurd hkinds (by decide)
  rw [elementSpans_eq]
  exact spans_apart hs ((hsub.map Prod.fst).trans (map_fst_placedParts s ▸ parts_sublist s)) ho

theorem closingTag_drawn : AllDrawn S s.token.stop (s.closingTag?.map Prod.fst).toList := by
  cases hclosing : s.closingTag? with
  | none => exact fun b hb => absurd hb List.not_mem_nil
  | some p => exact placed_drawn hs (s.mem_of_closingTag hclosing)

/-- What stands between the tags becomes what is drawn from it. -/
theorem inner_drawn :
    IfOk (fun found => S.Drawn s.token.stop (spansOf (s.inner.map Prod.fst))
        (recordsOfItems (found.filter fun v => !v.isNull)))
      (s.inner.mapM fun p => jsxChildOf S.source p.1) := by
  have hchild : ∀ p ∈ s.inner, IfOk (fun v => S.Drawn s.token.stop (spansOf [p.1]) (records none v))
      (jsxChildOf S.source p.1) := fun p hp =>
    have hp := placed_drawn hs (s.mem_of_inner hp)
    (jsxChildOf_drawn hp).mono fun _ hv => Survey.Drawn.within hv hp
  refine (mapM_drawnBy S s.token.stop (fun p : Placed => spansOf [p.1]) (records none) hchild).mono
    fun found hfound => ?_
  rw [Value.recordsOfItems_filter, Value.recordsOfItems_eq, spansOf, List.map_map, List.map_eq_flatMap]
  exact hfound

theorem jsxElementOf_drawn (hkind : s.token.kind = "jsx_element") :
    IfOk (S.From s.token) (jsxElementOf S.source s) := by
  have hin (hn : S.nests) := elementSpans_inside hs hn
  have hord (ho : S.ordered) := elementSpans_apart hs ho hkind
  have hclosed := closingTag_drawn hs
  refine (inner_drawn hs).bind fun found hchildren => ?_
  dsimp only
  split
  · next hopening =>
    have hopening : s.openingTag? = none := hopening
    rw [hopening] at hin hord
    refine (valueOf_drawn hclosed).bind fun closing hv => ?_
    exact nodeOf_drawn hs rfl (by decide) (.flat (.field hchildren.list (.last hv.placed))) hin hord
  · next opening position hopening =>
    have hopening : s.openingTag? = some (opening, position) := hopening
    have hopened := placed_drawn hs (s.mem_of_openingTag hopening)
    rw [hopening] at hin hord
    split
    · exact Yields.pure.2 (nodeOf_drawn hs rfl (by decide) (.field (bareTag_drawn hopened (by decide)).placed
        (.field hchildren.list (.last (closingFragment_drawn s.closingTag? hclosed).placed))) hin hord)
    · have hkind (ho : S.ordered) := (opening_first hs ho hkind hopening).2
      refine (jsxOpeningOf_drawn hopened.site (fun ho => .inl (hkind ho)) false).bind fun tag htag => ?_
      refine (valueOf_drawn hclosed).bind fun closing hv => ?_
      exact nodeOf_drawn hs rfl (by decide) (.field (Survey.Drawn.within htag hopened).placed
        (.field hchildren.list (.last hv.placed))) hin hord

end

end

end Arbor.Lowering
