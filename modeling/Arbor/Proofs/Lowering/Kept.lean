import Arbor.Proofs.Lowering.Filling

set_option autoImplicit false

/-! # What nodes without a rule leave

A node whose kind has no rule keeps its parts. Parts under one name are gathered where the first of them stands,
so they are in the order of the source only if they stand together. -/

namespace Arbor

/-- A key that no field has but the last one. -/
def Fields.IsLast {K V : Type} (fields : Fields K V) (key : K) : Prop :=
  ∃ pre, key ∉ Fields.keys pre ∧ (fields = pre ∨ ∃ v, fields = pre ++ [(key, v)])

namespace Lowering

open Value (nodeFields headKeys Apart typeOf? startOf? rangeOf? records recordsOfItems recordsOfFields)

section

variable {S : Survey} {limit : Int} {p q : List Span} {rest : List (Key × Value)}

/-! ## Fields that are stored -/

theorem recordsOfFields_concat (pre : List (Key × Value)) (key : Key) (v : Value) :
    recordsOfFields none (pre ++ [(key, v)]) = recordsOfFields none pre ++ records none v := by
  rw [Value.recordsOfFields_append, Value.recordsOfFields_cons, Value.recordsOfFields_nil, List.append_nil]
  rfl

/-- A field that is stored holds only what was held before and what is stored. -/
theorem records_set_subset {key : Key} {w : Value} {os : List Occurrence}
    (hw : records none w ⊆ recordsOfFields none rest ++ os) :
    recordsOfFields none (Fields.set rest key w) ⊆ recordsOfFields none rest ++ os := by
  intro o ho
  obtain ⟨f, hf, ho⟩ := (Value.mem_recordsOfFields none).1 ho
  rcases Fields.mem_set hf with rfl | hf
  · exact hw ho
  · exact List.mem_append_left _ ((Value.mem_recordsOfFields none).2 ⟨f, hf, ho⟩)

/-- A field that is stored last holds what comes last. -/
theorem drawn_stored {key : Key} {v : Value} (h : S.Drawn limit p (recordsOfFields none rest))
    (hv : S.Drawn limit q (records none v)) (hlast : S.ordered → Fields.IsLast rest key) :
    S.Drawn limit (p ++ q) (recordsOfFields none (Fields.set rest key v)) := by
  refine (h.append hv).restrict (records_set_subset (List.subset_append_right _ _)) fun ho => ?_
  refine List.Sublist.filterMap _ ?_
  obtain ⟨pre, hpre, rfl | ⟨old, rfl⟩⟩ := hlast ho
  · rw [Fields.set_of_not_mem hpre, recordsOfFields_concat]
  · rw [Fields.set_append_of_not_mem hpre, Fields.set, if_pos rfl, recordsOfFields_concat, recordsOfFields_concat]
    exact (List.sublist_append_left _ _).append (List.Sublist.refl _)

/-- A value that is added to the last field comes last. -/
theorem records_added {name : Text} (h : Fields.IsLast rest (.text name)) (v : Value) :
    recordsOfFields none (addToField rest name v) = recordsOfFields none rest ++ records none v := by
  unfold addToField
  obtain ⟨pre, hpre, rfl | ⟨old, rfl⟩⟩ := h
  · rw [(Fields.get?_eq_none_iff _ _).2 hpre, Fields.set_of_not_mem hpre, recordsOfFields_concat]
  · rw [Fields.get?_append_cons hpre, Fields.set_append_of_not_mem hpre,
      Fields.set, if_pos rfl, recordsOfFields_concat, recordsOfFields_concat, List.append_assoc]
    cases old with
    | list items =>
      rw [Value.records_list, Value.recordsOfItems_append]
      simp [recordsOfItems, Value.records_list]
    | _ => simp [recordsOfItems, Value.records_list]

/-- A value that is added to the last field is drawn from what comes last. -/
theorem drawn_added {name : Text} {v : Value} (h : S.Drawn limit p (recordsOfFields none rest))
    (hv : S.Drawn limit q (records none v)) (hlast : S.ordered → Fields.IsLast rest (.text name)) :
    S.Drawn limit (p ++ q) (recordsOfFields none (addToField rest name v)) := by
  have held {w : Value} (hget : Fields.get? rest (.text name) = some w) :
      records none w ⊆ recordsOfFields none rest := fun o ho =>
    (Value.mem_recordsOfFields none).2 ⟨_, Fields.mem_of_get? hget, ho⟩
  have hsub : recordsOfFields none (addToField rest name v) ⊆ recordsOfFields none rest ++ records none v := by
    refine records_set_subset ?_
    cases hget : Fields.get? rest (.text name) with
    | none => exact List.subset_append_right _ _
    | some old =>
      have hold : records none old ++ records none v ⊆ recordsOfFields none rest ++ records none v :=
        List.append_subset.2 ⟨List.subset_append_of_subset_left _ (held hget), List.subset_append_right _ _⟩
      cases old with
      | list items => simpa [Value.records_list, Value.recordsOfItems_append, recordsOfItems] using hold
      | _ => simpa [Value.records_list, recordsOfItems] using hold
  refine (h.append hv).restrict hsub fun ho => ?_
  rw [records_added (hlast ho)]

theorem isLast_of_grouped {key : Key} {more : List Key} (h : Grouped (Fields.keys rest ++ key :: more))
    (honce : (Fields.keys rest).Nodup) : Fields.IsLast rest key := by
  by_cases hmem : key ∈ Fields.keys rest
  · obtain ⟨keys, hkeys, hnot⟩ := h.exists_eq_concat honce hmem
    obtain ⟨pre, post, rfl, rfl, hpost⟩ := List.map_eq_append_iff.1 hkeys
    obtain ⟨⟨k, v⟩, rfl, rfl⟩ := List.map_eq_singleton_iff.1 hpost
    exact ⟨pre, hnot, .inr ⟨v, rfl⟩⟩
  · exact ⟨rest, hmem, .inl rfl⟩

/-! ## Parts that are kept -/

/-- Whether a child has a field. -/
def hasField (b : Branch) : Bool := b.token.field?.isSome

/-- The keys under which branches are kept. -/
def keptKeys (branches : List Branch) : List Key := branches.map fun b => .text (keptKey b.token)

/-- What has been kept so far: the fields, drawn from `p`, and the parts without a field, drawn from `q`. The keys
    `later` are still to come. -/
structure Survey.Gathers (S : Survey) (limit : Int) (p q : List Span) (later : List Key)
    (rest : List (Key × Value)) (unnamed : List Value) : Prop where
  apart : Apart rest
  once : (Fields.keys rest).Nodup
  kept : ∀ f ∈ rest, isKept f.2 = true
  fields : S.Drawn limit p (recordsOfFields none rest)
  items : S.Drawn limit q (recordsOfItems unnamed)
  grouped : S.ordered → Grouped (Fields.keys rest ++ later)

theorem Survey.Gathers.weaken {p' q' : List Span} {later later' : List Key} {unnamed : List Value}
    (h : S.Gathers limit p q later rest unnamed) (hp : p.Sublist p') (hq : q.Sublist q')
    (hlater : later'.Sublist later) : S.Gathers limit p' q' later' rest unnamed :=
  ⟨h.apart, h.once, h.kept, h.fields.weaken hp, h.items.weaken hq,
    fun ho => (h.grouped ho).sublist ((List.Sublist.refl _).append hlater)⟩

theorem genericKey_not_mem_headKeys (field : String) : (.text (genericKey field) : Key) ∉ headKeys := by
  have hhead : headKeys = ["type", "start", "end"].map fun name => Scalar.text (Text.ofString name) := rfl
  unfold genericKey
  split
  · decide
  · next hfield =>
    rw [hhead, List.mem_map_of_injective fun a b h => Text.ofString_inj.1 (Scalar.text.inj h)]
    simpa using hfield

/-- A field that is added to a node is added to its other fields. -/
theorem addToField_nodeFields (type : Text) (start stop : Int) {name : Text}
    (h : (.text name : Key) ∉ headKeys) (v : Value) :
    addToField (nodeFields type start stop rest) name v = nodeFields type start stop (addToField rest name v) := by
  unfold addToField
  rw [Value.get?_nodeFields _ _ _ _ h, Value.set_nodeFields _ _ _ _ h]

/-- What is added to a field is kept as it is, or in a list. -/
theorem kept_added {name : Text} {v : Value} (h : ∀ f ∈ rest, isKept f.2 = true) (hv : isKept v = true) :
    ∀ f ∈ addToField rest name v, isKept f.2 = true := by
  intro f hf
  rcases Fields.mem_set hf with rfl | hf
  · dsimp only
    split
    · exact hv
    · rfl
    · rfl
  · exact h f hf

/-- A value that is drawn from a source and is neither null nor another scalar may be kept. -/
theorem isKept_of_drawn {v : Value} (h : S.Drawn limit p (records none v)) (hscalar : ∀ c, v ≠ .scalar c) :
    isKept v = true := by
  cases v with
  | scalar c => exact absurd rfl (hscalar c)
  | list items => rfl
  | record fields =>
    obtain ⟨type, start, stop, rest, rfl, -⟩ := h.exists_eq
    rfl

/-- A part that is kept behind the others without a field. -/
theorem Survey.Gathers.hold {later : List Key} {unnamed : List Value} {v : Value}
    (h : S.Gathers limit p q later rest unnamed) {q' : List Span} (hv : S.Drawn limit q' (records none v)) :
    S.Gathers limit p (q ++ q') later rest (unnamed ++ [v]) := by
  refine ⟨h.apart, h.once, h.kept, h.fields, ?_, h.grouped⟩
  have hitems := h.items.append hv
  rwa [← List.append_nil (records none v), show records none v ++ [] = recordsOfItems [v] from rfl,
    ← Value.recordsOfItems_append] at hitems

/-- A part that is kept in a field. -/
theorem Survey.Gathers.add {later : List Key} {unnamed : List Value} {name : Text} {v : Value}
    (h : S.Gathers limit p q (.text name :: later) rest unnamed) {p' : List Span}
    (hv : S.Drawn limit p' (records none v)) (hhead : (.text name : Key) ∉ headKeys) (hkept : isKept v = true) :
    S.Gathers limit (p ++ p') q later (addToField rest name v) unnamed := by
  refine ⟨h.apart.set hhead _, Fields.nodup_keys_set h.once _ _, kept_added h.kept hkept,
    drawn_added h.fields hv fun ho => isLast_of_grouped (h.grouped ho) h.once, h.items, fun ho => ?_⟩
  have hgrouped := h.grouped ho
  rw [addToField, Fields.keys_set]
  split
  · exact hgrouped.sublist ((List.Sublist.refl _).append (List.sublist_cons_self _ _))
  · rwa [List.append_assoc]

theorem genericFields_drawn {type : Text} {start stop : Int} {branches : List Branch} {later : List Key}
    {unnamed : List Value} (hb : AllDrawn S limit branches)
    (h : S.Gathers limit p q (keptKeys (branches.filter hasField) ++ later) rest unnamed) :
    IfOk (fun found => ∃ rest', found.1 = nodeFields type start stop rest' ∧
        S.Gathers limit (p ++ spansOf (branches.filter hasField))
          (q ++ spansOf (branches.filter fun b => !hasField b)) later rest' found.2 ∧
        (branches.filter (fun b => !hasField b) = [] → found.2 = unnamed))
      (genericFields (nodeFields type start stop rest) unnamed branches) := by
  induction branches generalizing rest unnamed p q with
  | nil => exact Yields.ok.2 ⟨rest, rfl, h.weaken (by simp [spansOf]) (by simp [spansOf]) (.refl _), fun _ => rfl⟩
  | cons b bs ih =>
    have hfirst := hb.singleton (List.mem_cons_self ..)
    have hrest := hb.subset (List.subset_cons_self b bs)
    have hgrown : IfOk Value.Grown (Branch.value b) :=
      hfirst.here.behaves.value.mono fun _ hv => hv.toGrown
    rw [genericFields]
    refine ((value_drawn hfirst).and hgrown).bind fun v hv => ?_
    obtain ⟨hv, hgrown⟩ := hv
    cases hfield : b.token.field? with
    | none =>
      have hno : hasField b = false := by rw [hasField, hfield]; rfl
      rw [List.filter_cons_of_neg (by simp [hno])] at h ⊢
      rw [List.filter_cons_of_pos (by simp [hno])]
      split
      · refine (ih hrest h).mono fun found hfound => ?_
        obtain ⟨rest', heq, hgathers, -⟩ := hfound
        refine ⟨rest', heq, hgathers.weaken (.refl _) ?_ (.refl _), fun hnil => by cases hnil⟩
        exact (List.Sublist.refl _).append (List.sublist_cons_self _ _)
      · refine (ih hrest (Survey.Gathers.hold h hv)).mono fun found hfound => ?_
        obtain ⟨rest', heq, hgathers, -⟩ := hfound
        rw [List.append_assoc] at hgathers
        exact ⟨rest', heq, hgathers, fun hnil => by cases hnil⟩
    | some field =>
      have hyes : hasField b = true := by rw [hasField, hfield]; rfl
      have hkey : keptKey b.token = genericKey field := by rw [keptKey, hfield]
      rw [List.filter_cons_of_pos hyes] at h ⊢
      rw [List.filter_cons_of_neg (by simp [hyes])]
      split
      · refine (ih hrest (h.weaken (.refl _) (.refl _) (List.sublist_cons_self _ _))).mono fun found hfound => ?_
        obtain ⟨rest', heq, hgathers, hnone⟩ := hfound
        refine ⟨rest', heq, hgathers.weaken ?_ (.refl _) (.refl _), hnone⟩
        exact (List.Sublist.refl _).append (List.sublist_cons_self _ _)
      · next hnull =>
        rw [keptKeys, List.map_cons, hkey] at h
        have hkept : isKept v = true := isKept_of_drawn hv fun c heq => hnull (by rw [heq, hgrown.null c heq]; rfl)
        have hhead := genericKey_not_mem_headKeys field
        dsimp only
        rw [addToField_nodeFields _ _ _ hhead]
        refine (ih hrest (Survey.Gathers.add h hv hhead hkept)).mono fun found hfound => ?_
        obtain ⟨rest', heq, hgathers, hnone⟩ := hfound
        rw [List.append_assoc] at hgathers
        exact ⟨rest', heq, hgathers, hnone⟩

/-! ## Nodes without a rule -/

/-- Whether a kind is lowered by keeping its parts. -/
def IsGeneric (kind : String) : Prop := rules.lookup kind = none ∨ kind = "export_statement"

section

variable {t : Token} (hknown : S.knows t) (hkind : IsGeneric t.kind)

include hknown hkind

/-- A node without a rule that keeps parts alone is exempt from telling a text, or tells none. -/
theorem spelled_generic (h : Parted (genericType t.kind) rest) :
    S.Spelled none (nodeFields (genericType t.kind) t.start t.stop rest) := by
  by_cases hname : genericType t.kind ∈ nameTypes
  · have hkey : (.text "name" : Key) ∈ partKeys (genericType t.kind) := by
      rw [partKeys, if_neg fun htype => absurd (htype ▸ hname) (by decide)]
      exact List.mem_cons_self
    exact .inr (.inr (.inr (spells_name hname fun name hget => by cases h _ hkey _ hget)))
  · rcases hkind with hnone | hexport
    · exact .inr (.inr (.inl ⟨t, hknown, hnone, hname, rest, h, rfl⟩))
    · have htype : genericType t.kind = "ExportStatement" := by
        rw [hexport]
        decide
      exact spelled_of_untold (congrArg some htype) (by decide)

/-- A node without a rule and without parts gives its text. -/
theorem spelled_leaf : S.Spelled none (nodeFields (genericType t.kind) t.start t.stop
    [(.text "raw", .text (t.text S.source))]) := by
  have hget {key : Key} (hkey : key ≠ .text "raw") :
      Fields.get? [((.text "raw" : Key), Value.text (t.text S.source))] key = none := by
    rw [Fields.get?_cons, if_neg (Ne.symm hkey)]
    rfl
  by_cases hname : genericType t.kind ∈ nameTypes
  · refine .inr (.inr (.inr (spells_name hname fun name hnamed => ?_)))
    rw [hget (by decide)] at hnamed
    cases hnamed
  by_cases hraw : genericType t.kind = "JSXText" ∨ genericType t.kind = "Literal"
  · exact .inr (.inr (.inr (spells_raw hraw rfl)))
  by_cases htemplate : genericType t.kind = "TemplateElement"
  · refine spelled_generic hknown hkind fun key hkey v hv => ?_
    rw [partKeys, if_pos htemplate, List.mem_singleton] at hkey
    rw [hkey, hget (by decide)] at hv
    cases hv
  · refine spelled_of_untold rfl ?_
    rw [not_or] at hraw
    simp only [nameTypes, List.mem_cons, List.not_mem_nil, or_false, not_or] at hname
    simp [tellingTypes, hname, hraw, htemplate]

end

/-- In order, the parts with a field come before those without one. -/
theorem filter_hasField {s : Site} (hs : s.Drawn S) (ho : S.ordered) (hkind : IsGeneric s.token.kind) :
    s.parts.filter hasField ++ s.parts.filter (fun b => !hasField b) = s.parts := by
  have hlast := (hs.lies.inOrder ho).unnamed_last hkind
  rw [parts_tokens, List.pairwise_map] at hlast
  have hsplit := filter_append_filter (p := fun b : Branch => !hasField b) (hlast.imp fun {b c} h hb => by
    simpa [hasField] using h (by simpa [hasField] using hb))
  simpa only [Bool.not_not] using hsplit

/-- Parts that are kept under one name stand together. -/
theorem grouped_keptKeys {s : Site} (hs : s.Drawn S) (ho : S.ordered) (hkind : IsGeneric s.token.kind) :
    Grouped (keptKeys (s.parts.filter hasField) ++
      (s.parts.filter fun b => !hasField b).map fun _ => (.text "children" : Key)) := by
  have hgrouped := ((hs.lies.inOrder ho).grouped hkind).map fun a b (h : Scalar.text a = .text b) => Scalar.text.inj h
  have hunnamed : keptKeys (s.parts.filter fun b => !hasField b) =
      (s.parts.filter fun b => !hasField b).map fun _ => .text "children" := by
    refine List.map_congr_left fun b hb => ?_
    have hnone : b.token.field? = none := by simpa [hasField] using (List.mem_filter.1 hb).2
    rw [keptKey, hnone]
  rw [parts_tokens, List.map_map, List.map_map, ← filter_hasField hs ho hkind, List.map_append] at hgrouped
  rw [← hunnamed]
  exact hgrouped

/-- The ranges of the parts of a node as they are gathered: those that have a field, and the others. -/
def genericSpans (s : Site) : List Span :=
  spansOf (s.parts.filter hasField) ++ spansOf (s.parts.filter fun b => !hasField b)

theorem parted_of_kept {rest : List (Key × Value)} (h : ∀ f ∈ rest, isKept f.2 = true) (type : Text) :
    Parted type rest :=
  fun _ _ _ hget => h _ (Fields.mem_of_get? hget)

theorem children_not_mem_partKeys (type : Text) : (.text "children" : Key) ∉ partKeys type := by
  unfold partKeys
  split <;> decide

section

variable {s : Site} (hs : s.Drawn S)

include hs

theorem genericSpans_inside (hn : S.nests) : ∀ a ∈ genericSpans s, a.Inside s.token.span := by
  have hparts := parts_sublist s
  have hnamed := spans_inside hs ((List.filter_sublist (p := hasField)).trans hparts).subset hn
  have hunnamed := spans_inside hs ((List.filter_sublist (p := fun b => !hasField b)).trans hparts).subset hn
  exact List.forall_mem_append.2 ⟨hnamed, hunnamed⟩

/-- In order the parts without a field are the last ones. -/
theorem genericSpans_apart (ho : S.ordered) (hkind : IsGeneric s.token.kind) :
    (genericSpans s).Pairwise Span.Before := by
  rw [genericSpans, ← spansOf_append, filter_hasField hs ho hkind]
  exact spans_apart hs (parts_sublist s) ho

/-- A node without a rule is drawn from its parts if its fields are. -/
theorem generic_drawn (hkind : IsGeneric s.token.kind) {rest : List (Key × Value)} (hapart : Apart rest)
    (hspelled : S.Spelled none (nodeFields (genericType s.token.kind) s.token.start s.token.stop rest))
    (h : S.Drawn s.token.stop (genericSpans s) (recordsOfFields none rest)) :
    S.From s.token (.record (nodeFields (genericType s.token.kind) s.token.start s.token.stop rest)) :=
  drawn_node hapart hspelled h.placedIn
    (fun hn => ⟨site_wide hs hn, genericSpans_inside hs hn⟩) fun ho => genericSpans_apart hs ho hkind

theorem genericOf_drawn (hkind : IsGeneric s.token.kind) :
    IfOk (S.From s.token) (genericOf S.source s) := by
  have hparts := parts_sublist s
  unfold genericOf
  dsimp only
  split
  · have hraw : Apart [(.text "raw", .text (s.token.text S.source))] :=
      List.forall_mem_singleton.2 raw_not_mem_headKeys
    exact Yields.pure.2 (generic_drawn hs hkind hraw (spelled_leaf hs.lies.known hkind) .nil)
  · have hstart : S.Gathers s.token.stop [] [] (keptKeys (s.parts.filter hasField) ++
        (s.parts.filter fun b => !hasField b).map fun _ => .text "children") [] [] := by
      exact ⟨by simp [Value.Apart], .nil, by simp, .nil, .nil, fun ho => grouped_keptKeys hs ho hkind⟩
    refine (genericFields_drawn (children_drawn hs hparts.subset) hstart).bind fun found hfound => ?_
    obtain ⟨fields, unnamed⟩ := found
    obtain ⟨rest, rfl, hgathers, hnone⟩ := hfound
    rw [List.nil_append, List.nil_append] at hgathers
    have hparted := parted_of_kept hgathers.kept (genericType s.token.kind)
    dsimp only
    refine Yields.pure.2 ?_
    split
    · exact generic_drawn hs hkind hgathers.apart (spelled_generic hs.lies.known hkind hparted)
        (hgathers.fields.weaken (List.sublist_append_left _ _))
    · next hsome =>
      have hhead : (.text "children" : Key) ∉ headKeys := by decide
      rw [Value.set_nodeFields _ _ _ _ hhead]
      have hchildren := hparted.set (children_not_mem_partKeys _) (.list unnamed)
      refine generic_drawn hs hkind (hgathers.apart.set hhead _)
        (spelled_generic hs.lies.known hkind hchildren)
        (drawn_stored hgathers.fields hgathers.items.list fun ho => ?_)
      · cases hlist : s.parts.filter fun b => !hasField b with
        | nil =>
          obtain rfl : unnamed = [] := hnone hlist
          exact absurd rfl hsome
        | cons b more =>
          have hgrouped := hgathers.grouped ho
          rw [hlist, List.map_cons] at hgrouped
          exact isLast_of_grouped hgrouped hgathers.once

end

/-! ## Exports -/

section

variable {s : Site} (hs : s.Drawn S)

include hs

theorem defaultExport_drawn : IfOk (S.From s.token) (defaultExport s) := by
  have hsub : (s.field? "declaration" <|> s.field? "value").toList.Sublist s.children :=
    orElse_sublist (field?_sublist s "declaration") (field?_sublist s "value")
  have hall := children_drawn hs hsub.subset
  have declared {declaration : Value} (h : S.Drawn s.token.stop
      (spansOf (s.field? "declaration" <|> s.field? "value").toList) (records none declaration)) :
      S.From s.token (nodeOf "ExportDefaultDeclaration" s.token [("declaration", declaration)]) := by
    exact nodeOf_drawn hs rfl (by decide) (.last h.placed) (spans_inside hs hsub.subset) (spans_apart hs hsub)
  unfold defaultExport
  dsimp only
  cases htarget : s.field? "declaration" <|> s.field? "value" with
  | none =>
    rw [htarget] at declared
    exact declared .nil
  | some b =>
    rw [htarget] at hall declared
    have hplain : IfOk (fun v => b.kind ∈ functionKinds ++ classKinds → ∀ fields, v = .record fields →
        ∃ type ∉ holdingTypes, typeOf? fields = some type) (Branch.value b) := by
      by_cases hkind : b.kind ∈ functionKinds ++ classKinds
      · exact (plain_type hall.here hkind).mono fun v hv _ => hv
      · exact (ifOk_true _).mono fun v _ h => absurd h hkind
    refine ((value_drawn hall).and hplain).bind fun declaration hd => ?_
    obtain ⟨hd, hplain⟩ := hd
    have retyped (hkind : b.kind ∈ functionKinds ++ classKinds) {type : Text} (huntold : type ∉ tellingTypes) :
        IfOk (S.From s.token) (do
          let declaration ← setField declaration "type" (.text type)
          pure (nodeOf "ExportDefaultDeclaration" s.token [("declaration", declaration)])) := by
      cases declaration with
      | record fields =>
        obtain ⟨old, hold, htype⟩ := hplain hkind fields rfl
        exact Yields.pure.2 (declared (drawn_retyped hd htype hold huntold))
      | _ => trivial
    split
    · exact Yields.pure.2 (declared hd)
    · split
      · next hfunction =>
        exact retyped (List.mem_append_left _ (List.contains_iff_mem.1 hfunction)) (by decide)
      · split
        · next hclass => exact retyped (List.mem_append_right _ (List.contains_iff_mem.1 hclass)) (by decide)
        · exact Yields.pure.2 (declared hd)

/-- The clause of an export, and the source that it exports from. -/
theorem clause_inside {clause : Branch} (hchild : clause ∈ s.children) (hn : S.nests) :
    ∀ a ∈ spansOf [clause] ++ Reach.reads s (.field "source"), a.Inside s.token.span := by
  refine List.forall_mem_append.2 ⟨?_, reads_inside hs hn (.field "source")⟩
  exact spans_inside hs (List.cons_subset.2 ⟨hchild, List.nil_subset _⟩) hn

/-- In order the clause comes before the source. -/
theorem clause_apart (hkind : s.token.kind = "export_statement") {clause : Branch} (hchild : clause ∈ s.children)
    (hclauses : clause.kind = "namespace_export" ∨ clause.kind = "export_clause") (ho : S.ordered) :
    (spansOf [clause] ++ Reach.reads s (.field "source")).Pairwise Span.Before := by
  refine List.pairwise_append.2 ⟨List.pairwise_singleton _ _,
    spans_apart hs (field?_sublist s "source") ho, fun a ha c hc => ?_⟩
  obtain ⟨origin, horigin, rfl⟩ := List.mem_map.1 hc
  rw [List.mem_singleton.1 ha]
  refine seats_before hs ho (x := .ofKind clause.kind) (y := .under "source") ?_ hchild
    ((field?_sublist s "source").subset horigin) rfl (of_mem_field? horigin)
  rcases hclauses with hclauses | hclauses <;> rw [hclauses, hkind] <;> decide

theorem exportOf_drawn (hkind : s.token.kind = "export_statement") :
    IfOk (S.From s.token) (exportOf S.source s) := by
  have hdeclaration := field_drawn hs "declaration"
  refine (valueOf_drawn (field_drawn hs "source")).bind fun origin horigin => ?_
  split
  · exact defaultExport_drawn hs
  · split
    · next declaration hfield =>
      rw [hfield] at hdeclaration
      refine (value_drawn hdeclaration).bind fun v hv => ?_
      refine node_drawn hs [.field "declaration"] rfl (by decide) (fun _ => rfl) ?_
      rw [List.flatMap_singleton, reads_field hfield]
      have hrest : S.Drawn s.token.stop [] (recordsOfFields (some "ExportNamedDeclaration")
          (namedFields [("specifiers", .list []), ("source", .null)])) := .nil
      show S.Drawn s.token.stop _ (recordsOfFields (some "ExportNamedDeclaration")
        (namedFields (("declaration", v) :: [("specifiers", .list []), ("source", .null)])))
      rw [← List.append_nil (spansOf _)]
      exact .field hv.placed hrest
    · dsimp only
      split
      · next clause hclause =>
        have hmem : clause ∈ s.parts := List.mem_of_find?_eq_some hclause
        have hchild := (parts_sublist s).subset hmem
        have hc := child_drawn hs hchild
        have hclauses : clause.kind = "namespace_export" ∨ clause.kind = "export_clause" := by
          simpa using List.find?_some hclause
        have hin := clause_inside hs hchild
        have hord := clause_apart hs hkind hchild hclauses
        split
        · refine (firstWithin_drawn hc).bind fun exported hexported => ?_
          exact nodeOf_drawn hs rfl (by decide) (.field hexported.placed (.last horigin.placed)) hin hord
        · have hspecifiers := partsOf_sublist clause.site "export_specifier"
          have hbelow := children_drawn hc.site hspecifiers.subset
          refine (mapM_drawn S _ fun b hb => specifier_drawn (hbelow.singleton hb) (.inr (of_mem_partsOf hb)) rfl
            (by decide)).bind fun specifiers hvalues => ?_
          have hvalues : S.Drawn s.token.stop (spansOf [clause]) (recordsOfItems specifiers) :=
            Survey.Drawn.within (gathered hc.site hvalues hspecifiers) hc
          exact nodeOf_drawn hs rfl (by decide)
            (.flat (.field hvalues.list (.last horigin.placed))) hin hord
      · split
        · exact node_drawn hs [.field "source"] rfl (by decide) (fun _ => by rw [hkind]; decide)
            (.flat (.field horigin.placed .nil))
        · exact genericOf_drawn hs (.inr hkind)

end

end

end Lowering

end Arbor
