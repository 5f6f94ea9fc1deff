import Arbor.Proofs.Walk.Refinement

set_option autoImplicit false

/-! # Nodes that come back

A node that is taken out on entering may be replaced on leaving. Its replacement then stands where the node
stood if that was in a list, but it goes behind all other fields if that was a field of its own: the field has
been dropped in between, and is new when it is filled again. A `ChildPlace` is a parent with room for one child, and
what a visit of the child leaves of the parent is the place with the outcome of the visit put in
(`Left.put`). -/

namespace Arbor

variable {σ : Type}

/-- Where a child stands in its parent: what stands before it and behind it, in the fields of the parent and, for
    an element, in the list. -/
inductive ChildPlace where
  | field (parent : Ref) (before : List (Key × Layout)) (key : Key) (after : List (Key × Layout))
  | item (parent : Ref) (before : List (Key × Layout)) (key : Key) (list : Ref) (items rest : List Layout)
      (after : List (Key × Layout))

namespace ChildPlace

open Rewriting (kept moved)

/-- The slot of the child. -/
def slot : ChildPlace → Heap.Slot
  | field parent _ key _ => ⟨some parent, key, none⟩
  | item parent _ key _ items _ _ => ⟨some parent, key, some items.length⟩

/-- The parent with a child in the place. -/
def fill (t : Layout) : ChildPlace → Layout
  | field parent before key after => .record parent (before ++ (key, t) :: after)
  | item parent before key list items rest after =>
    .record parent (before ++ (key, .list list (items ++ t :: rest)) :: after)

/-- The parent with a child that has been put into the place when it was empty. -/
def refill (t : Layout) : ChildPlace → Layout
  | field parent before key after => .record parent (before ++ (after ++ [(key, t)]))
  | item parent before key list items rest after =>
    .record parent (before ++ (key, .list list (items ++ t :: rest)) :: after)

/-- The parent with what becomes of the child. -/
def put (o : Outcome) : ChildPlace → Layout
  | field parent before key after =>
    .record parent (before ++ (kept [(key, o)] ++ (after ++ moved [(key, o)])))
  | item parent before key list items rest after =>
    .record parent (before ++ (key, .list list (items ++ (o.layout?.toList ++ rest))) :: after)

@[simp] theorem put_inPlace (t : Layout) (place : ChildPlace) : place.put (.inPlace t) = place.fill t := by
  cases place <;> simp [put, fill, kept, moved, Outcome.layout?]

@[simp] theorem put_putBack (t : Layout) (place : ChildPlace) : place.put (.putBack t) = place.refill t := by
  cases place <;> simp [put, refill, kept, moved, Outcome.layout?]

/-- Nothing that is put back there loses its place: the place is in a list, or it is the last field. -/
def Lasts : ChildPlace → Prop
  | field _ _ _ after => after = []
  | item .. => True

/-- The cell that an edit of the slot changes. -/
def own : ChildPlace → Ref
  | field parent _ _ _ => parent
  | item _ _ _ list _ _ _ => list

/-- What else is in the fields of the parent, and in the list of an element. -/
def siblings : ChildPlace → List Layout
  | field _ before _ after => before.map Prod.snd ++ after.map Prod.snd
  | item _ before _ _ items rest after => before.map Prod.snd ++ (items ++ rest) ++ after.map Prod.snd

/-- The other cells of the parent. -/
def others : ChildPlace → List Ref
  | field parent before key after => Layout.refsOf (siblings (.field parent before key after))
  | item parent before key list items rest after =>
    parent :: Layout.refsOf (siblings (.item parent before key list items rest after))

variable {place : ChildPlace} {c : Layout} {log : List Showing}

theorem area_fill (place : ChildPlace) (c : Layout) (log : List Showing) :
    (area [place.fill c] log).Perm (place.own :: (place.others ++ area [c] log)) := by
  refine List.perm_iff_count.2 fun x => ?_
  cases place <;>
    simp only [fill, own, others, siblings, area, Layout.refsOf, Layout.refs_record, Layout.refs_list, List.map_append,
      List.map_cons, List.flatMap_append, List.flatMap_cons, List.flatMap_nil, List.append_nil, List.cons_append,
      List.count_append, List.count_cons] <;>
    omega

/-- The cells of a parent without sharing lie apart. -/
theorem apart (h : (area [place.fill c] log).Nodup) :
    place.own ∉ place.others ∧ place.own ∉ area [c] log ∧ (area [c] log).Nodup ∧
      ∀ x ∈ place.others, x ∉ area [c] log := by
  obtain ⟨hown, hrest⟩ := List.nodup_cons.1 ((place.area_fill c log).nodup_iff.1 h)
  rw [List.mem_append, not_or] at hown
  obtain ⟨-, hnodup, hdisjoint⟩ := List.nodup_append.1 hrest
  exact ⟨hown.1, hown.2, hnodup, fun x hx hx' => hdisjoint x hx x hx' rfl⟩

/-! ## The child in its place -/

variable {h h' : Heap}

theorem cells_child (place : ChildPlace) (c : Layout) : c.cells.Sublist (place.fill c).cells := by
  cases place with
  | field parent before key after =>
    exact Layout.cells_field (f := (key, c)) (List.mem_append_right _ (List.mem_cons_self ..))
  | item parent before key list items rest after =>
    have hitem : c.cells.Sublist (Layout.list list (items ++ c :: rest)).cells :=
      Layout.cells_item (List.mem_append_right _ (List.mem_cons_self ..))
    exact hitem.trans
      (Layout.cells_field (f := (key, _)) (List.mem_append_right _ (List.mem_cons_self ..)))

theorem holds_child (hs : h.Holds (place.fill c)) : h.Holds c := hs.part (place.cells_child c).subset

theorem unaliased_child (hu : (place.fill c).Unaliased) : c.Unaliased := hu.of_cells (place.cells_child c)

theorem lt_of_mem_others (hs : h.Holds (place.fill c)) {x : Ref} (hx : x ∈ place.others) :
    x < h.cells.size := by
  refine hs.lt ?_
  have hmem : x ∈ area [place.fill c] [] :=
    (place.area_fill c []).mem_iff.2 (List.mem_cons_of_mem _ (List.mem_append_left _ hx))
  simpa [area] using hmem

/-- The key of a place is that of no other field. -/
theorem not_mem_keys {before after : List (Key × Layout)} {key : Key} {t : Layout} {r : Ref}
    (hu : (Layout.record r (before ++ (key, t) :: after)).Unaliased) :
    key ≠ .null ∧ key ∉ Fields.keys before ∧ key ∉ Fields.keys after := by
  obtain ⟨hkeys, hnull⟩ := hu.keys_record
  rw [Fields.keys, List.map_append, List.map_cons] at hkeys hnull
  obtain ⟨-, hafter, hdisjoint⟩ := List.nodup_append.1 hkeys
  refine ⟨?_, ?_, (List.nodup_cons.1 hafter).1⟩
  · rintro rfl
    exact hnull (List.mem_append_right _ (List.mem_cons_self ..))
  · intro hmem
    exact hdisjoint key hmem key (List.mem_cons_self ..) rfl

theorem get?_data {before after : List (Key × Layout)} {key : Key} (hkey : key ∉ Fields.keys before)
    (t : Layout) :
    Fields.get? (Layout.data before ++ Layout.data ((key, t) :: after)) key = some t.datum :=
  Fields.get?_append_cons (by rwa [Layout.keys_data]) _ _

/-- The child hangs in the slot of its place. -/
theorem hangs (hs : h.Holds (place.fill c)) (hu : (place.fill c).Unaliased)
    (hnodup : (area [place.fill c] log).Nodup) :
    h.target? place.slot = some place.own ∧ Hangs h place.slot c (area [c] log) := by
  obtain ⟨-, hown, -, hothers⟩ := apart hnodup
  cases place with
  | field parent before key after =>
    obtain ⟨hcell, -⟩ := (Heap.holds_record_iff _ _ _).1 hs
    obtain ⟨hkey, hbefore, -⟩ := not_mem_keys hu
    rw [Layout.data_append] at hcell
    have htarget := Heap.target?_field hkey hcell
    exact ⟨htarget, .of_target (.field hkey hcell (get?_data hbefore c)) rfl htarget hown hown⟩
  | item parent before key list items rest after =>
    obtain ⟨hcell, hfields⟩ := (Heap.holds_record_iff _ _ _).1 hs
    obtain ⟨hkey, hbefore, -⟩ := not_mem_keys hu
    have hlist := hfields (key, _) (List.mem_append_right _ (List.mem_cons_self ..))
    obtain ⟨hitems, -⟩ := (Heap.holds_list_iff _ _ _).1 hlist
    rw [Layout.data_append] at hcell
    rw [List.map_append, List.map_cons] at hitems
    have hget : Fields.get? (Layout.data before ++ Layout.data ((key, .list list (items ++ c :: rest)) :: after)) key =
        some (.ref list) := get?_data hbefore _
    have htarget := Heap.target?_item items.length hkey hcell hget hitems
    have hleads := Heap.Leads.item hkey hcell hget hitems
    rw [List.length_map] at hleads
    exact ⟨htarget, .of_target hleads rfl htarget (hothers _ (List.mem_cons_self ..)) hown⟩

end ChildPlace

/-! ## What a visit of the child leaves of the parent -/

section

variable {place : ChildPlace} {c : Layout} {log : List Showing} {h h' : Heap} {fate : Fate}

/-- The cells of the parent stay as they are, but for the one that the slot is in. -/
theorem Left.others (hl : Left h place.slot (area [c] log) fate h') (hs : h.Holds (place.fill c))
    (hu : (place.fill c).Unaliased) (hnodup : (area [place.fill c] log).Nodup) {x : Ref} (hx : x ∈ place.others) :
    h'.cell? x = h.cell? x := by
  obtain ⟨hown, -, -, hothers⟩ := ChildPlace.apart hnodup
  obtain ⟨htarget, -⟩ := ChildPlace.hangs hs hu hnodup
  have hne : x ≠ place.own := by
    rintro rfl
    exact hown hx
  rw [hl.frame x (ChildPlace.lt_of_mem_others hs hx) (hothers x hx), Outcome.cell?_edit_of_ne htarget hne]

theorem Left.sibling (hl : Left h place.slot (area [c] log) fate h') (hs : h.Holds (place.fill c))
    (hu : (place.fill c).Unaliased) (hnodup : (area [place.fill c] log).Nodup) {t : Layout} (ht : h.Holds t)
    (hmem : t ∈ place.siblings) : h'.Holds t := by
  refine ht.of_agree fun x hx => hl.others hs hu hnodup ?_
  have hsibling : x ∈ Layout.refsOf place.siblings := Layout.mem_refsOf.2 ⟨t, hmem, hx⟩
  cases place with
  | field parent before key after => exact hsibling
  | item parent before key list items rest after => exact List.mem_cons_of_mem _ hsibling

/-- What has become of the child in a field is there after its visit, and so are the other fields. -/
theorem Left.put_field {parent : Ref} {before after : List (Key × Layout)} {key : Key}
    (hl : Left h (ChildPlace.slot (.field parent before key after)) (area [c] log) fate h')
    (hs : h.Holds (ChildPlace.fill c (.field parent before key after)))
    (hu : (ChildPlace.fill c (.field parent before key after)).Unaliased)
    (hnodup : (area [ChildPlace.fill c (.field parent before key after)] log).Nodup) :
    h'.Holds (ChildPlace.put fate.outcome (.field parent before key after)) := by
  obtain ⟨hcell, hfields⟩ := (Heap.holds_record_iff _ _ _).1 hs
  obtain ⟨hkey, hbefore, hafter⟩ := ChildPlace.not_mem_keys hu
  obtain ⟨-, hown, -, -⟩ := ChildPlace.apart hnodup
  rw [Layout.data_append] at hcell
  refine (Heap.holds_record_iff _ _ _).2 ⟨?_, ?_⟩
  · rw [← Layout.keys_data] at hbefore hafter
    have hedit := Outcome.cell?_edit_field hkey hbefore hafter hcell fate.outcome
    simp only [Layout.data_append]
    exact (hl.frame parent (Heap.cell?_lt hcell) hown).trans hedit
  · have hnew (f : Key × Layout) (hmem : f ∈ Rewriting.kept [(key, fate.outcome)] ++
        Rewriting.moved [(key, fate.outcome)]) : h'.Holds f.2 := by
      obtain ⟨o, ho, hf⟩ := Rewriting.mem_kept_append_moved hmem
      obtain rfl := List.mem_singleton.1 ho
      exact hl.holds _ hf
    intro f hf
    rcases List.mem_append.1 hf with hmem | hf
    · refine hl.sibling hs hu hnodup (hfields f (List.mem_append_left _ hmem)) ?_
      exact List.mem_append_left _ (List.mem_map_of_mem hmem)
    rcases List.mem_append.1 hf with hmem | hf
    · exact hnew f (List.mem_append_left _ hmem)
    rcases List.mem_append.1 hf with hmem | hmem
    · refine hl.sibling hs hu hnodup (hfields f (List.mem_append_right _ (List.mem_cons_of_mem _ hmem))) ?_
      exact List.mem_append_right _ (List.mem_map_of_mem hmem)
    · exact hnew f (List.mem_append_right _ hmem)

/-- What has become of the child in a list is there after its visit, and so are the other elements and the other
    fields. -/
theorem Left.put_item {parent list : Ref} {before after : List (Key × Layout)} {key : Key}
    {items rest : List Layout} (hl : Left h (ChildPlace.slot (.item parent before key list items rest after))
      (area [c] log) fate h')
    (hs : h.Holds (ChildPlace.fill c (.item parent before key list items rest after)))
    (hu : (ChildPlace.fill c (.item parent before key list items rest after)).Unaliased)
    (hnodup : (area [ChildPlace.fill c (.item parent before key list items rest after)] log).Nodup) :
    h'.Holds (ChildPlace.put fate.outcome (.item parent before key list items rest after)) := by
  obtain ⟨hcell, hfields⟩ := (Heap.holds_record_iff _ _ _).1 hs
  obtain ⟨hkey, hbefore, -⟩ := ChildPlace.not_mem_keys hu
  obtain ⟨-, hown, -, -⟩ := ChildPlace.apart hnodup
  have hlist := hfields (key, _) (List.mem_append_right _ (List.mem_cons_self ..))
  obtain ⟨hitems, helements⟩ := (Heap.holds_list_iff _ _ _).1 hlist
  rw [List.map_append, List.map_cons] at hitems
  have hnewlist : h'.Holds (.list list (items ++ (fate.outcome.layout?.toList ++ rest))) := by
    refine (Heap.holds_list_iff _ _ _).2 ⟨?_, ?_⟩
    · rw [Layout.data_append] at hcell
      have hedit := Outcome.cell?_edit_item hkey hcell (ChildPlace.get?_data hbefore _) hitems fate.outcome
      rw [List.length_map] at hedit
      rw [List.map_append, List.map_append]
      exact (hl.frame list (Heap.cell?_lt hitems) hown).trans hedit
    · intro t ht
      rcases List.mem_append.1 ht with hmem | ht
      · refine hl.sibling hs hu hnodup (helements t (List.mem_append_left _ hmem)) ?_
        exact List.mem_append_left _ (List.mem_append_right _ (List.mem_append_left _ hmem))
      rcases List.mem_append.1 ht with hmem | hmem
      · exact hl.holds t (Option.mem_toList.1 hmem)
      · refine hl.sibling hs hu hnodup (helements t (List.mem_append_right _ (List.mem_cons_of_mem _ hmem))) ?_
        exact List.mem_append_left _ (List.mem_append_right _ (List.mem_append_right _ hmem))
  refine (Heap.holds_record_iff _ _ _).2 ⟨?_, ?_⟩
  · rw [hl.others hs hu hnodup (List.mem_cons_self ..), hcell, Layout.data_append, Layout.data_append]
    rfl
  · intro f hf
    rcases List.mem_append.1 hf with hmem | hf
    · refine hl.sibling hs hu hnodup (hfields f (List.mem_append_left _ hmem)) ?_
      exact List.mem_append_left _ (List.mem_append_left _ (List.mem_map_of_mem hmem))
    rcases List.mem_cons.1 hf with rfl | hmem
    · exact hnewlist
    · refine hl.sibling hs hu hnodup (hfields f (List.mem_append_right _ (List.mem_cons_of_mem _ hmem))) ?_
      exact List.mem_append_right _ (List.mem_map_of_mem hmem)

/-- What a visit of the child leaves is the parent with what has become of the child. -/
theorem Left.put (hl : Left h place.slot (area [c] log) fate h') (hs : h.Holds (place.fill c))
    (hu : (place.fill c).Unaliased) (hnodup : (area [place.fill c] log).Nodup) :
    h'.Holds (place.put fate.outcome) := by
  cases place with
  | field parent before key after => exact hl.put_field hs hu hnodup
  | item parent before key list items rest after => exact hl.put_item hs hu hnodup

end

/-! ## What the answers make of the child -/

namespace Answer

/-- Nothing is asked for that changes the place of a node. -/
def Leaves (a : Answer) : Prop := a.removed = false ∧ a.replacement? = none

/-- A node is to be replaced by `u`. -/
def Puts (a : Answer) (u : Layout) : Prop := a.removed = false ∧ a.replacement? = some u

instance (a : Answer) : Decidable a.Leaves :=
  decidable_of_iff (a.removed = false ∧ a.replacement?.isNone = true)
    (and_congr_right fun _ => Option.isNone_iff_eq_none)

end Answer

section

variable {ask : Answers} {steps : Nat} {r : Ref} {fields : List (Key × Layout)} {fate : Fate} {u : Layout}

/-- A node that was taken out on entering comes back by its replacement on leaving. -/
theorem rewrite_putBack (h : rewrite ask steps (.record r fields) = some fate)
    (henter : (ask .enter r).removed = true) (hleave : (ask .leave r).Puts u) : fate.outcome = .putBack u := by
  cases steps with
  | zero => cases h
  | succ steps =>
    have hentered : (ask .enter r).entered (.record r fields) = none := by rw [Answer.entered, if_pos henter]
    rw [rewrite, hentered] at h
    obtain rfl := Option.some.inj h
    simp [Answer.left, hleave.1, hleave.2]

/-- A node that is only replaced on leaving is replaced in its place. -/
theorem rewrite_inPlace (h : rewrite ask steps (.record r fields) = some fate)
    (henter : (ask .enter r).Leaves) (hleave : (ask .leave r).Puts u) : fate.outcome = .inPlace u := by
  cases steps with
  | zero => cases h
  | succ steps =>
    have hentered : (ask .enter r).entered (.record r fields) = some (.record r fields) := by
      simp [Answer.entered, henter.1, henter.2]
    rw [rewrite, hentered] at h
    obtain ⟨current?, hcurrent, h⟩ := Option.bind_eq_some_iff.1 h
    obtain rfl := Option.some.inj h
    obtain ⟨t, rfl⟩ : ∃ t, current? = some t := by
      rw [Rewriting.current] at hcurrent
      split at hcurrent
      · exact ⟨_, (Option.some.inj hcurrent).symm⟩
      · obtain ⟨t, -, ht⟩ := Option.map_eq_some_iff.1 hcurrent
        exact ⟨t, ht.symm⟩
    simp [Answer.left, hleave.1, hleave.2]

end

/-! ## Both ways to replace a child -/

namespace ChildPlace

/-- Filling an empty place gives a parent the fields that it has otherwise, in some order. -/
theorem refill_perm (place : ChildPlace) (u : Layout) : ∃ parent fs fs', place.refill u = .record parent fs ∧
    place.fill u = .record parent fs' ∧ fs.Perm fs' := by
  cases place with
  | field parent before key after =>
    refine ⟨parent, _, _, rfl, rfl, List.Perm.append_left before ?_⟩
    exact List.perm_append_singleton (key, u) after
  | item parent before key list items rest after => exact ⟨parent, _, _, rfl, rfl, .refl _⟩

/-- The order is the same only if nothing loses its place. -/
theorem refill_eq_fill_iff {place : ChildPlace} {c : Layout} (hu : (place.fill c).Unaliased) (u : Layout) :
    place.refill u = place.fill u ↔ place.Lasts := by
  cases place with
  | item parent before key list items rest after => exact iff_of_true rfl trivial
  | field parent before key after =>
    obtain ⟨-, -, hafter⟩ := not_mem_keys hu
    rw [refill, fill, Lasts, Layout.record.injEq, List.append_cancel_left_eq]
    constructor
    · rintro ⟨-, heq⟩
      cases after with
      | nil => rfl
      | cons f after =>
        rw [List.cons_append] at heq
        obtain rfl : f = (key, u) := (List.cons.inj heq).1
        exact absurd (List.mem_cons_self ..) hafter
    · rintro rfl
      exact ⟨rfl, rfl⟩

end ChildPlace

/-- The visit of a child leaves the parent with what the answers make of the child. -/
theorem visit_puts {w : Walker σ} (hw : w.OnlyAsks) {place : ChildPlace} {r : Ref} {fields : List (Key × Layout)}
    (hn : (Layout.record r fields).isNode = true) (hu : (place.fill (.record r fields)).Unaliased)
    {s s' : World σ} (hs : s.heap.Holds (place.fill (.record r fields))) {root d : Datum} {steps : Nat}
    (hrun : w.visit root steps r place.slot s = .ok d s')
    (hfresh : Fresh (place.fill (.record r fields)) (w.visitLog root steps r place.slot s)) :
    ∃ fate, rewrite (Answers.ofLog (w.visitLog root steps r place.slot s)) steps (.record r fields) = some fate ∧
      s'.heap.Holds (place.put fate.outcome) := by
  obtain ⟨-, -, hnodup, -⟩ := ChildPlace.apart hfresh.apart
  obtain ⟨-, hhangs⟩ := ChildPlace.hangs hs hu hfresh.apart
  obtain ⟨fate, hvisits, -, hleft⟩ := visit_sound hw root steps _ _ _ _ _ _ _ (Walker.visit_recorded hrun) rfl hn
    (ChildPlace.unaliased_child hu) (ChildPlace.holds_child hs) hfresh.proper hnodup hhangs
  have honce := visits_once _ _ _ _ _ _ _ _ _ hvisits hnodup
  refine ⟨fate, ?_, hleft.put hs hu hfresh.apart⟩
  exact visits_rewrites _ _ _ _ _ _ _ _ _ _ hvisits (Answers.agree_ofLog honce.nodup)

/-- A child that is taken out on entering and replaced on leaving, and a child that is only replaced on leaving:
    both leave the parent with the same fields, and the replacement where the child was. Their order is the same
    in both cases if the child was in a list, or was the last field of its parent; else the field that was filled
    again has gone behind the others. -/
theorem visit_resurrects {τ : Type} {w : Walker σ} {w' : Walker τ} (hw : w.OnlyAsks) (hw' : w'.OnlyAsks)
    {place : ChildPlace} {r : Ref} {fields : List (Key × Layout)} (hn : (Layout.record r fields).isNode = true)
    (hu : (place.fill (.record r fields)).Unaliased) {s s₁ : World σ} {s' s₂ : World τ}
    (hs : s.heap.Holds (place.fill (.record r fields))) (hs' : s'.heap.Holds (place.fill (.record r fields)))
    {root root' d d' : Datum} {steps steps' : Nat}
    (hrun : w.visit root steps r place.slot s = .ok d s₁)
    (hrun' : w'.visit root' steps' r place.slot s' = .ok d' s₂)
    (hfresh : Fresh (place.fill (.record r fields)) (w.visitLog root steps r place.slot s))
    (hfresh' : Fresh (place.fill (.record r fields)) (w'.visitLog root' steps' r place.slot s'))
    {u : Layout} (henter : (Answers.ofLog (w.visitLog root steps r place.slot s) .enter r).removed = true)
    (hleave : (Answers.ofLog (w.visitLog root steps r place.slot s) .leave r).Puts u)
    (henter' : (Answers.ofLog (w'.visitLog root' steps' r place.slot s') .enter r).Leaves)
    (hleave' : (Answers.ofLog (w'.visitLog root' steps' r place.slot s') .leave r).Puts u) :
    s₁.heap.Holds (place.refill u) ∧ s₂.heap.Holds (place.fill u) ∧
      (∃ parent fs fs', place.refill u = .record parent fs ∧ place.fill u = .record parent fs' ∧ fs.Perm fs') ∧
      (place.refill u = place.fill u ↔ place.Lasts) := by
  obtain ⟨fate, hrewrite, hput⟩ := visit_puts hw hn hu hs hrun hfresh
  obtain ⟨fate', hrewrite', hput'⟩ := visit_puts hw' hn hu hs' hrun' hfresh'
  rw [rewrite_putBack hrewrite henter hleave, ChildPlace.put_putBack] at hput
  rw [rewrite_inPlace hrewrite' henter' hleave', ChildPlace.put_inPlace] at hput'
  exact ⟨hput, hput', place.refill_perm u, ChildPlace.refill_eq_fill_iff hu u⟩

namespace Sample

/-- A node with a node in each of two fields, and a node that is not part of it. -/
def pair (fields : List (Text × Ref)) : World Unit where
  heap := ⟨[.record ((.text "type", .text "Pair") :: fields.map fun f => (.text f.1, .ref f.2)),
    leaf "A", leaf "B", leaf "C"].toArray⟩
  tracker := .fresh false
  warnings := []
  user := ()

/-- The first of the two fields. -/
def first : ChildPlace :=
  .field 0 [(.text "type", .scalar (.text "Pair"))] (.text "left")
    [(.text "right", .record 2 [(.text "type", .scalar (.text "B"))])]

/-- Puts the third node in the place of the first one on leaving, and takes that one out on entering if it is to
    come back. -/
def swapper (comesBack : Bool) : Walker Unit where
  enter? := some fun v => pure (if comesBack && v.node = 1 then Request.empty.remove else .empty)
  leave? := some fun v => pure (if v.node = 1 then Request.empty.replace (.ref 3) else .empty)
  tracked := false

theorem onlyAsks_swapper (comesBack : Bool) : (swapper comesBack).OnlyAsks := by
  rintro (_ | _) c hc <;> cases hc <;> intro v s q s' h <;> cases h <;> exact .refl _

theorem visit_resurrects_pair :
    let left : World Unit := pair [("left", 3), ("right", 2)]
    let right : World Unit := pair [("right", 2), ("left", 3)]
    let third : Layout := .record 3 [(.text "type", .scalar (.text "C"))]
    right.heap.Holds (first.refill third) ∧ left.heap.Holds (first.fill third) ∧
      (∃ parent fs fs', first.refill third = .record parent fs ∧ first.fill third = .record parent fs' ∧
        fs.Perm fs') ∧
      (first.refill third = first.fill third ↔ first.Lasts) :=
  let start : World Unit := pair [("left", 1), ("right", 2)]
  have hs : start.heap.Holds (first.fill (.record 1 [(.text "type", .scalar (.text "A"))])) := by decide
  have hrun : (swapper true).visit (.ref 0) 5 1 first.slot start = .ok (.ref 3) (pair [("right", 2), ("left", 3)]) := rfl
  have hrun' : (swapper false).visit (.ref 0) 5 1 first.slot start = .ok (.ref 3) (pair [("left", 3), ("right", 2)]) :=
    rfl
  visit_resurrects (onlyAsks_swapper true) (onlyAsks_swapper false) (by decide) (by decide) hs hs hrun hrun'
    (by decide) (by decide) rfl ⟨rfl, rfl⟩ (by decide) ⟨rfl, rfl⟩

/-- Asks for nothing. -/
def bystander : Walker Unit := ⟨none, none, false⟩

/-- A node that comes back in the first field is visited after the one in the second field by a later walk, and
    before it if it was only replaced. -/
theorem walk_resurrects_pair :
    let left : World Unit := pair [("left", 3), ("right", 2)]
    let right : World Unit := pair [("right", 2), ("left", 3)]
    (swapper true).walk 9 (.ref 0) (pair [("left", 1), ("right", 2)]) = .ok (.ref 0) right ∧
      (swapper false).walk 9 (.ref 0) (pair [("left", 1), ("right", 2)]) = .ok (.ref 0) left ∧
      right ≠ left ∧
      ((bystander.log 9 (.ref 0) right).filter fun e => e.phase = .enter).map (·.visit.node) = [0, 2, 3] ∧
      ((bystander.log 9 (.ref 0) left).filter fun e => e.phase = .enter).map (·.visit.node) = [0, 3, 2] := by
  refine ⟨rfl, rfl, ?_, rfl, rfl⟩
  intro heq
  have hcell : (pair [("right", 2), ("left", 3)]).heap.cell? 0 = (pair [("left", 3), ("right", 2)]).heap.cell? 0 := by
    rw [heq]
  revert hcell
  decide

end Sample

end Arbor
