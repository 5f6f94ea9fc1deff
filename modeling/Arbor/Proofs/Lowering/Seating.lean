import Arbor.Proofs.Lowering.Reading

set_option autoImplicit false

/-! # Where fillers read

A filler reads some children of a node (`Filler.reach`). What several fillers read lies inside the node, and in a
tree in order it stands in order if the fillers follow the order of the grammar (`Reach.follow`, `reads_apart`). -/

namespace Arbor.Lowering

/-- Which children of a node are read. -/
inductive Reach where
  /-- None. -/
  | nothing
  /-- The point where the node starts. -/
  | head
  /-- The node itself. -/
  | whole
  /-- The part under a field. -/
  | field (field : String)
  /-- The part under the first of some fields that holds any. -/
  | firstField (fields : List String)
  /-- The part under a field, and its type. -/
  | typed (field : String)
  /-- The parts under a field. -/
  | allUnder (field : String)
  /-- The parts of a kind. -/
  | allOf (kind : String)
  /-- The decorators. -/
  | decorators
  /-- The attributes of a tag. -/
  | attributes
  /-- What a class extends. -/
  | base
  /-- What a class implements. -/
  | implemented
  /-- The first part. -/
  | first
  /-- The last part, if it is not the first. -/
  | lastOfMany
  /-- The part at a position. -/
  | nth (position : Nat)
  /-- All parts. -/
  | parts

/-- Which children a filler reads. -/
def Filler.reach : Filler → Reach
  | identifier => .head
  | jsxSelfOpening => .whole
  | sequence => .whole
  | child field => .field field
  | childIfAny field => .field field
  | allWithin field => .field field
  | clause field => .field field
  | key field => .field field
  | jsxName field => .field field
  | typeWithin field => .field field
  | arguments => .field "arguments"
  | params fields => .firstField fields
  | binding => .typed "name"
  | caught => .typed "parameter"
  | allUnder field => .allUnder field
  | allOf kind => .allOf kind
  | importSpecifiers => .allOf "import_clause"
  | decorators => .decorators
  | jsxAttributes => .attributes
  | superClass => .base
  | implements => .implemented
  | first => .first
  | jsxAttributeName => .first
  | lastOfMany => .lastOfMany
  | typeAt position => .nth position
  | all => .parts
  | elements => .parts
  | members => .parts
  | types => .parts
  | _ => .nothing

namespace Reach

/-- The branches that are read. -/
def picks (s : Site) : Reach → List Branch
  | nothing => []
  | head => []
  | whole => []
  | field f => (s.field? f).toList
  | firstField fields => (fields.findSome? s.field?).toList
  | typed f => (s.field? f).toList ++ (s.field? "type").toList
  | allUnder f => s.fieldAll f
  | allOf kind => s.partsOf kind
  | decorators => decoratorsAt s
  | attributes => attributesAt s
  | base => (heritageAt s).filter fun b => !isImplements b
  | implemented => (heritageAt s).filter isImplements
  | first => s.first?.toList
  | lastOfMany => (s.parts.drop 1).getLast?.toList
  | nth position => s.parts[position]?.toList
  | parts => s.parts

/-- The stretches of the source that are read. -/
def reads (s : Site) : Reach → List Span
  | head => [⟨s.token.start, s.token.start⟩]
  | whole => [s.token.span]
  | r => spansOf (r.picks s)

/-- The seats of what is read, unless anything may be read. -/
def seats : Reach → Option (List Seat)
  | nothing => some []
  | field f => some [.under f]
  | firstField fields => some (fields.map .under)
  | typed f => some [.under f, .under "type"]
  | allUnder f => some [.under f]
  | allOf kind => some [.ofKind kind]
  | decorators => some decoratorSeats
  | attributes => some [.under "attribute", .ofKind "jsx_attribute", .ofKind "jsx_expression"]
  | base => some [.ofKind "class_heritage"]
  | implemented => some [.ofKind "class_heritage"]
  | _ => none

/-- Whether what is read stands in order by itself. -/
def isSteady (order : List (List Seat)) : Reach → Bool
  | typed f => comesBefore (.under f) (.under "type") order
  | _ => true

/-- Whether one takes what comes before what the other takes by position. -/
def splits : Reach → Reach → Bool
  | head, head => true
  | base, implemented => true
  | first, lastOfMany => true
  | first, nth position => 0 < position
  | _, _ => false

/-- Whether what takes some seats comes before what takes others. -/
def allBefore (order : List (List Seat)) : Option (List Seat) → Option (List Seat) → Bool
  | some xs, some ys => xs.all fun x => ys.all fun y => comesBefore x y order
  | _, _ => false

/-- Whether what one reads comes before what the other reads. -/
def precedes (order : List (List Seat)) (r r' : Reach) : Bool :=
  r.splits r' || r.seats == some [] || r'.seats == some [] || allBefore order r.seats r'.seats

/-- Whether several read one after another in the order of a grammar. -/
def follow (order : List (List Seat)) : List Reach → Bool
  | [] => true
  | r :: rest => r.isSteady order && rest.all (r.precedes order) && follow order rest

end Reach

section

variable {S : Survey} {s : Site}

/-! ## Picks -/

theorem of_mem_field? {field : String} {b : Branch} (h : b ∈ (s.field? field).toList) :
    b.token.field? = some field := by
  have hmem := List.mem_of_mem_head? (Option.mem_toList.1 h)
  exact of_decide_eq_true (List.mem_filter.1 hmem).2

theorem of_mem_fieldAll {field : String} {b : Branch} (h : b ∈ s.fieldAll field) :
    b.token.field? = some field := of_decide_eq_true (List.mem_filter.1 h).2

theorem of_mem_partsOf {kind : String} {b : Branch} (h : b ∈ s.partsOf kind) : b.token.kind = kind :=
  of_decide_eq_true (List.mem_filter.1 h).2

theorem seat_of_mem_decoratorsAt {b : Branch} (h : b ∈ decoratorsAt s) : ∃ x ∈ decoratorSeats, x.Holds b.token := by
  unfold decoratorsAt at h
  split at h
  · exact ⟨.ofKind "decorator", by simp [decoratorSeats], of_mem_partsOf h⟩
  · exact ⟨.under "decorator", by simp [decoratorSeats], of_mem_fieldAll h⟩

theorem seat_of_mem_attributesAt {b : Branch} (h : b ∈ attributesAt s) :
    ∃ x ∈ [Seat.under "attribute", .ofKind "jsx_attribute", .ofKind "jsx_expression"], x.Holds b.token := by
  unfold attributesAt at h
  split at h
  · have hkind := (List.mem_filter.1 h).2
    simp only [Bool.or_eq_true, decide_eq_true_eq] at hkind
    rcases hkind with hkind | hkind
    · exact ⟨.ofKind "jsx_attribute", by simp, hkind⟩
    · exact ⟨.ofKind "jsx_expression", by simp, hkind⟩
  · exact ⟨.under "attribute", by simp, of_mem_fieldAll h⟩

theorem firstField_sublist (fields : List String) :
    (fields.findSome? s.field?).toList.Sublist s.children := by
  refine toList_sublist fun b hb => ?_
  obtain ⟨field, -, hfield⟩ := List.exists_of_findSome?_eq_some hb
  exact (field?_sublist s field).subset (Option.mem_toList.2 hfield)

/-- The parts of a node are told from the tokens of its children. -/
theorem parts_tokens (s : Site) :
    (s.children.map Tree.token).filter isPartToken = s.parts.map Tree.token := by
  rw [List.filter_map]
  rfl

/-- Elements that are followed only by elements of their own sort come last. -/
theorem filter_append_filter {α : Type} {p : α → Bool} {l : List α}
    (h : l.Pairwise fun b c => p b = true → p c = true) :
    (l.filter fun a => !p a) ++ l.filter p = l := by
  induction l with
  | nil => rfl
  | cons a rest ih =>
    obtain ⟨hfirst, hrest⟩ := List.pairwise_cons.1 h
    cases hp : p a with
    | false =>
      rw [List.filter_cons_of_pos (by simp [hp]), List.filter_cons_of_neg (by simp [hp]),
        List.cons_append, ih hrest]
    | true =>
      have hall : ∀ b ∈ rest, p b = true := fun b hb => hfirst b hb hp
      rw [List.filter_cons_of_neg (by simp [hp]), List.filter_cons_of_pos hp,
        List.filter_eq_self.2 hall, List.filter_eq_nil_iff.2 fun b hb => by simp [hall b hb],
        List.nil_append]

/-- What is read is a child of the node, or a clause of the heritage of a class. -/
theorem Reach.picks_subset (r : Reach) : r.picks s ⊆ s.children ∨ r.picks s ⊆ heritageAt s := by
  cases r with
  | nothing => exact .inl (List.nil_subset _)
  | head => exact .inl (List.nil_subset _)
  | whole => exact .inl (List.nil_subset _)
  | field f => exact .inl (field?_sublist s f).subset
  | firstField fields => exact .inl (firstField_sublist fields).subset
  | typed f =>
    exact .inl (List.append_subset.2 ⟨(field?_sublist s f).subset, (field?_sublist s _).subset⟩)
  | allUnder f => exact .inl (fieldAll_sublist s f).subset
  | allOf kind => exact .inl (partsOf_sublist s kind).subset
  | decorators => exact .inl (decoratorsAt_sublist s).subset
  | attributes => exact .inl (attributesAt_sublist s).subset
  | base => exact .inr (List.filter_subset_self _)
  | implemented => exact .inr (List.filter_subset_self _)
  | first => exact .inl (first?_sublist s).subset
  | lastOfMany => exact .inl (lastOfMany_sublist s).subset
  | nth position => exact .inl (nth_sublist s position).subset
  | parts => exact .inl (parts_sublist s).subset

/-! ## Ranges that are read -/

section

variable (hs : s.Drawn S)

include hs

/-- A clause of the heritage of a class lies inside the heritage. -/
theorem heritage_inside (hn : S.nests) {b : Branch} (hb : b ∈ heritageAt s) :
    ∃ c ∈ s.partsOf "class_heritage", b.token.span.Inside c.token.span := by
  rcases heritageAt_cases s with heq | ⟨heritage, hmem, heq⟩
  · rw [heq] at hb
    cases hb
  · rw [heq] at hb
    have hheritage := (children_drawn hs (partsOf_sublist s "class_heritage").subset).singleton hmem
    exact ⟨heritage, hmem, child_inside hheritage.site hn ((parts_sublist heritage.site).subset hb)⟩

/-- What is read lies inside the node. -/
theorem picks_inside (hn : S.nests) (r : Reach) :
    ∀ span ∈ spansOf (r.picks s), span.Inside s.token.span := by
  rcases r.picks_subset with hsub | hsub
  · exact spans_inside hs hsub hn
  · intro span hspan
    obtain ⟨b, hb, rfl⟩ := List.mem_map.1 hspan
    obtain ⟨c, hc, hin⟩ := heritage_inside hs hn (hsub hb)
    exact hin.trans (child_inside hs hn ((partsOf_sublist s _).subset hc))

theorem reads_inside (hn : S.nests) (r : Reach) : ∀ span ∈ r.reads s, span.Inside s.token.span := by
  have hwide := site_wide hs hn
  cases r with
  | head =>
    intro span hspan
    rw [List.mem_singleton.1 hspan]
    exact ⟨Int.le_refl _, hwide⟩
  | whole =>
    intro span hspan
    rw [List.mem_singleton.1 hspan]
    exact ⟨Int.le_refl _, Int.le_refl _⟩
  | _ => exact picks_inside hs hn _

/-- What is read from seats lies inside of what takes the seats. -/
theorem reads_seated (hn : S.nests) {r : Reach} {seats : List Seat} (hseats : r.seats = some seats) :
    ∀ span ∈ r.reads s, ∃ x ∈ seats, ∃ c ∈ s.children, x.Holds c.token ∧ span.Inside c.token.span := by
  have seated {branches : List Branch} (hsub : branches ⊆ s.children)
      (hholds : ∀ b ∈ branches, ∃ x ∈ seats, x.Holds b.token) :
      ∀ span ∈ spansOf branches, ∃ x ∈ seats, ∃ c ∈ s.children, x.Holds c.token ∧
        span.Inside c.token.span := by
    intro span hspan
    obtain ⟨b, hb, rfl⟩ := List.mem_map.1 hspan
    obtain ⟨x, hx, hholds⟩ := hholds b hb
    exact ⟨x, hx, b, hsub hb, hholds, Int.le_refl _, Int.le_refl _⟩
  have inherited {branches : List Branch} (hsub : branches ⊆ heritageAt s)
      (hx : Seat.ofKind "class_heritage" ∈ seats) :
      ∀ span ∈ spansOf branches, ∃ x ∈ seats, ∃ c ∈ s.children, x.Holds c.token ∧
        span.Inside c.token.span := by
    intro span hspan
    obtain ⟨b, hb, rfl⟩ := List.mem_map.1 hspan
    obtain ⟨c, hc, hin⟩ := heritage_inside hs hn (hsub hb)
    exact ⟨_, hx, c, (partsOf_sublist s _).subset hc, of_mem_partsOf hc, hin⟩
  cases r with
  | nothing => exact fun span hspan => absurd hspan List.not_mem_nil
  | field f =>
    cases hseats
    exact seated (field?_sublist s f).subset fun b hb => ⟨_, List.mem_singleton_self _, of_mem_field? hb⟩
  | firstField fields =>
    cases hseats
    refine seated (firstField_sublist fields).subset fun b hb => ?_
    obtain ⟨f, hf, hfield⟩ := List.exists_of_findSome?_eq_some (Option.mem_toList.1 hb)
    exact ⟨_, List.mem_map_of_mem hf, of_mem_field? (Option.mem_toList.2 hfield)⟩
  | typed f =>
    cases hseats
    refine seated (List.append_subset.2 ⟨(field?_sublist s f).subset, (field?_sublist s _).subset⟩) ?_
    refine List.forall_mem_append.2 ⟨fun b hb => ⟨.under f, by simp, of_mem_field? hb⟩, fun b hb => ?_⟩
    exact ⟨.under "type", by simp, of_mem_field? hb⟩
  | allUnder f =>
    cases hseats
    exact seated (fieldAll_sublist s f).subset fun b hb => ⟨_, List.mem_singleton_self _, of_mem_fieldAll hb⟩
  | allOf kind =>
    cases hseats
    exact seated (partsOf_sublist s kind).subset fun b hb => ⟨_, List.mem_singleton_self _, of_mem_partsOf hb⟩
  | decorators =>
    cases hseats
    exact seated (decoratorsAt_sublist s).subset fun b hb => seat_of_mem_decoratorsAt hb
  | attributes =>
    cases hseats
    exact seated (attributesAt_sublist s).subset fun b hb => seat_of_mem_attributesAt hb
  | base =>
    cases hseats
    exact inherited (List.filter_subset_self _) (List.mem_singleton_self _)
  | implemented =>
    cases hseats
    exact inherited (List.filter_subset_self _) (List.mem_singleton_self _)
  | _ => cases hseats

/-! ## Order of what is read -/

/-- What takes a seat comes before what takes a later seat. -/
theorem seats_before (ho : S.ordered) {x y : Seat}
    (hxy : comesBefore x y (grammarOrder s.token.kind) = true) {b c : Branch} (hb : b ∈ s.children)
    (hc : c ∈ s.children) (hx : x.Holds b.token) (hy : y.Holds c.token) :
    b.token.span.Before c.token.span :=
  Int.ofNat_le.2 ((hs.lies.inOrder ho).ranked.precede hxy _ (List.mem_map_of_mem hb) _
    (List.mem_map_of_mem hc) hx hy)

/-- The base of a class comes before what the class implements. -/
theorem heritage_apart (ho : S.ordered) :
    (spansOf ((heritageAt s).filter fun b => !isImplements b) ++
      spansOf ((heritageAt s).filter isImplements)).Pairwise Span.Before := by
  rcases heritageAt_cases s with heq | ⟨heritage, hmem, heq⟩
  · rw [heq]
    exact .nil
  · have hheritage :=
      ((children_drawn hs (partsOf_sublist s "class_heritage").subset).singleton hmem).site
    have hlast := (hheritage.lies.inOrder ho).heritage (of_mem_partsOf hmem)
    rw [parts_tokens, List.pairwise_map] at hlast
    rw [heq, ← spansOf_append, filter_append_filter (p := isImplements)]
    · exact spans_apart hheritage (parts_sublist heritage.site) ho
    · exact hlast.imp fun h hb => decide_eq_true (h (of_decide_eq_true hb))

/-- What one filler reads stands in order. -/
theorem reads_steady (ho : S.ordered) {r : Reach} (hr : r.isSteady (grammarOrder s.token.kind) = true) :
    (r.reads s).Pairwise Span.Before := by
  have hheritage := List.pairwise_append.1 (heritage_apart hs ho)
  cases r with
  | nothing => exact .nil
  | head => exact List.pairwise_singleton _ _
  | whole => exact List.pairwise_singleton _ _
  | field f => exact spans_apart hs (field?_sublist s f) ho
  | firstField fields => exact spans_apart hs (firstField_sublist fields) ho
  | typed f =>
    show (spansOf (_ ++ _)).Pairwise Span.Before
    rw [spansOf_append]
    refine List.pairwise_append.2 ⟨spans_apart hs (field?_sublist s f) ho,
      spans_apart hs (field?_sublist s "type") ho, List.forall_mem_map.2 fun b hb => List.forall_mem_map.2 fun c hc => ?_⟩
    exact seats_before hs ho hr ((field?_sublist s f).subset hb) ((field?_sublist s "type").subset hc)
      (of_mem_field? hb) (of_mem_field? hc)
  | allUnder f => exact spans_apart hs (fieldAll_sublist s f) ho
  | allOf kind => exact spans_apart hs (partsOf_sublist s kind) ho
  | decorators => exact spans_apart hs (decoratorsAt_sublist s) ho
  | attributes => exact spans_apart hs (attributesAt_sublist s) ho
  | base => exact hheritage.1
  | implemented => exact hheritage.2.1
  | first => exact spans_apart hs (first?_sublist s) ho
  | lastOfMany => exact spans_apart hs (lastOfMany_sublist s) ho
  | nth position => exact spans_apart hs (nth_sublist s position) ho
  | parts => exact spans_apart hs (parts_sublist s) ho

/-- What comes first by its position comes first in the source. -/
theorem reads_split (ho : S.ordered) {r r' : Reach} (h : r.splits r' = true) :
    ∀ a ∈ r.reads s, ∀ b ∈ r'.reads s, a.Before b := by
  -- the first part is followed by the others
  have later {branches : List Branch} (hsub : branches.Sublist (s.parts.drop 1)) :
      ∀ a ∈ spansOf s.first?.toList, ∀ b ∈ spansOf branches, a.Before b := by
    have hparts := spans_apart hs (parts_sublist s) ho
    cases hcases : s.parts with
    | nil => simp [Site.first?, hcases, spansOf]
    | cons first rest =>
      rw [hcases] at hsub hparts
      intro a ha b hb
      have heq : a = first.token.span := by simpa [Site.first?, hcases, spansOf] using ha
      rw [heq]
      exact List.rel_of_pairwise_cons hparts ((hsub.map _).subset hb)
  cases r with
  | head =>
    cases r' with
    | head =>
      intro a ha b hb
      rw [List.mem_singleton.1 ha, List.mem_singleton.1 hb]
      exact Int.le_refl _
    | _ => cases h
  | base =>
    cases r' with
    | implemented => exact (List.pairwise_append.1 (heritage_apart hs ho)).2.2
    | _ => cases h
  | first =>
    cases r' with
    | lastOfMany => exact later (toList_sublist fun _ => List.mem_of_getLast?)
    | nth position =>
      refine later (toList_sublist fun b hb => ?_)
      have hpos : 0 < position := of_decide_eq_true h
      refine List.mem_of_getElem? (i := position - 1) ?_
      rw [List.getElem?_drop, Nat.add_sub_cancel' hpos]
      exact hb
    | _ => cases h
  | _ => cases h

theorem reads_before (ho : S.ordered) {r r' : Reach}
    (h : r.precedes (grammarOrder s.token.kind) r' = true) :
    ∀ a ∈ r.reads s, ∀ b ∈ r'.reads s, a.Before b := by
  have hn := S.nests_of_ordered ho
  have nothing {r : Reach} (hseats : r.seats = some []) {span : Span} (hspan : span ∈ r.reads s) : False := by
    obtain ⟨x, hx, -⟩ := reads_seated hs hn hseats span hspan
    exact absurd hx List.not_mem_nil
  simp only [Reach.precedes, Bool.or_eq_true, beq_iff_eq] at h
  rcases h with ((h | h) | h) | h
  · exact reads_split hs ho h
  · exact fun a ha => (nothing h ha).elim
  · exact fun a ha b hb => (nothing h hb).elim
  · intro a ha b hb
    unfold Reach.allBefore at h
    split at h
    · next xs ys hxs hys =>
      obtain ⟨x, hx, c, hc, hxc, hac⟩ := reads_seated hs hn hxs a ha
      obtain ⟨y, hy, d, hd, hyd, hbd⟩ := reads_seated hs hn hys b hb
      simp only [List.all_eq_true] at h
      exact Int.le_trans hac.2 (Int.le_trans (seats_before hs ho (h x hx y hy) hc hd hxc hyd) hbd.1)
    · cases h

theorem reads_apart (ho : S.ordered) {rs : List Reach}
    (h : Reach.follow (grammarOrder s.token.kind) rs = true) :
    (rs.flatMap (Reach.reads s)).Pairwise Span.Before := by
  induction rs with
  | nil => exact .nil
  | cons r rest ih =>
    simp only [Reach.follow, Bool.and_eq_true, List.all_eq_true] at h
    obtain ⟨⟨hsteady, hbefore⟩, hrest⟩ := h
    rw [List.flatMap_cons]
    refine List.pairwise_append.2 ⟨reads_steady hs ho hsteady, ih hrest, fun a ha b hb => ?_⟩
    obtain ⟨r', hr', hb⟩ := List.mem_flatMap.1 hb
    exact reads_before hs ho (hbefore r' hr') a ha b hb

end

end

end Arbor.Lowering
