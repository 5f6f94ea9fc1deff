import Arbor.Proofs.Lowering.Patterns
import Mathlib.Data.List.Forall2

set_option autoImplicit false

/-! # Elements that are left out

The elements of an array are separated by commas, and an element may be left out, which leaves a hole in its
place. A comma after the last element only ends it. `ArraySyntax` says of the children of a node what stands
between its brackets, slot by slot, and `lower_array` what the slots become: each that counts becomes one
element, a hole if nothing stands in it. -/

namespace Arbor

open Lowering (lower lowered elementsOf nodeOf siteOf valueOf)

/-- What stands in an array before a comma or before the closing bracket: one element or none, among comments and
    whatever else is skipped. -/
structure ArraySlot where
  before : List Cst
  element? : Option Cst
  after : List Cst
  skipped : ∀ c ∈ before ++ after, c.token.isSkipped = true
  part : ∀ e, element? = some e → e.isPart = true ∧ e.kind ≠ ","

theorem ne_comma_of_isSkipped {c : Cst} (h : c.token.isSkipped = true) : c.kind ≠ "," := by
  intro hkind
  have hmem := (Token.isSkipped_iff _).1 h
  rw [Tree.kind] at hkind
  rw [hkind] at hmem
  revert hmem
  decide

namespace ArraySlot

/-- The children of an array that stand in a slot. -/
def children (s : ArraySlot) : List Cst := s.before ++ (s.element?.toList ++ s.after)

/-- No comma stands in a slot. -/
theorem countP_comma (s : ArraySlot) : (s.children.countP fun c => c.kind = ",") = 0 := by
  rw [List.countP_eq_zero]
  intro c hc
  rw [decide_eq_true_eq]
  rcases List.mem_append.1 hc with hc | hc
  · exact ne_comma_of_isSkipped (s.skipped c (List.mem_append_left _ hc))
  rcases List.mem_append.1 hc with hc | hc
  · exact (s.part c (Option.mem_toList.1 hc)).2
  · exact ne_comma_of_isSkipped (s.skipped c (List.mem_append_right _ hc))

end ArraySlot

/-- The syntax of an array, or of a pattern for one: between the brackets stand slots that a comma ends, and then
    one that the closing bracket ends. -/
structure ArraySyntax (t : Cst) where
  opening : Cst
  ended : List (ArraySlot × Cst)
  last : ArraySlot
  closing : Cst
  kind : t.kind = "array" ∨ t.kind = "array_pattern"
  children : t.children = opening :: ended.flatMap (fun e => e.1.children ++ [e.2]) ++ (last.children ++ [closing])
  brackets : (opening.kind = "[" ∧ opening.token.named = false) ∧ closing.kind = "]" ∧ closing.token.named = false
  commas : ∀ e ∈ ended, e.2.kind = ","

namespace ArraySyntax

variable {t : Cst} (a : ArraySyntax t)

/-- All slots, in order. -/
def slots : List ArraySlot := a.ended.map Prod.fst ++ [a.last]

/-- The number of elements that the array has in the language: one for each comma, and one more if something
    follows the last comma. -/
def length : Nat := a.ended.length + if a.last.element?.isSome then 1 else 0

/-- The slots that count as elements. -/
def counted : List ArraySlot :=
  a.ended.map Prod.fst ++ if a.last.element?.isSome then [a.last] else []

theorem length_counted : a.counted.length = a.length := by
  rw [counted, length, List.length_append, List.length_map]
  split <;> rfl

theorem counted_prefix : a.counted <+: a.slots := by
  rw [counted, slots]
  split
  · exact List.prefix_rfl
  · rw [List.append_nil]
    exact List.prefix_append _ _

/-- The commas between the brackets are those that end a slot. -/
theorem countP_comma : (t.children.countP fun c => c.kind = ",") = a.ended.length := by
  have hended : (a.ended.flatMap fun e => e.1.children ++ [e.2]).countP (fun c => c.kind = ",") =
      a.ended.length := by
    have hcommas := a.commas
    generalize a.ended = ended at hcommas ⊢
    induction ended with
    | nil => rfl
    | cons e ended ih =>
      obtain ⟨hcomma, hcommas⟩ := List.forall_mem_cons.1 hcommas
      rw [List.flatMap_cons, List.countP_append, List.countP_append, e.1.countP_comma, ih hcommas,
        List.countP_singleton]
      simp [hcomma, Nat.add_comm]
  obtain ⟨⟨hopening, -⟩, hclosing, -⟩ := a.brackets
  rw [a.children, List.countP_append, List.countP_cons, hended, List.countP_append, a.last.countP_comma,
    List.countP_singleton]
  simp [hopening, hclosing]

end ArraySyntax

namespace Lowering

section

variable {source : Source} {t : Cst}

/-- What the element of a slot becomes; nothing if there is none. -/
def slotValue (source : Source) (t : Cst) (s : ArraySlot) : Except Fault Value :=
  valueOf (s.element?.map (lowered source (some t.kind)))

/-- Comments between elements leave no trace. -/
theorem elementsOf_comments {cs : List Cst} (h : ∀ c ∈ cs, c.token.isSkipped = true) (pending : Bool)
    (rest : List Branch) :
    elementsOf pending (cs.map (lowered source (some t.kind)) ++ rest) = elementsOf pending rest := by
  induction cs with
  | nil => rfl
  | cons c cs ih =>
    obtain ⟨hc, hcs⟩ := List.forall_mem_cons.1 h
    have hcomma : (lowered source (some t.kind) c).kind ≠ "," := by
      rw [kind_lowered]
      exact ne_comma_of_isSkipped hc
    have hpart : ¬ (lowered source (some t.kind) c).isPart = true := by
      simp [Tree.isPart, hc]
    rw [List.map_cons, List.cons_append, elementsOf, if_neg hcomma, if_neg hpart]
    exact ih hcs

/-- A bracket is neither an element nor a comma. -/
theorem elementsOf_bracket {c : Cst} (hcomma : c.kind ≠ ",") (hnamed : c.token.named = false) (pending : Bool)
    (rest : List Branch) :
    elementsOf pending (lowered source (some t.kind) c :: rest) = elementsOf pending rest := by
  have hkind : (lowered source (some t.kind) c).kind ≠ "," := by
    rw [kind_lowered]
    exact hcomma
  rw [elementsOf, if_neg hkind, if_neg (by simp [Tree.isPart, hnamed])]

/-- The children that stand in a slot are its element, if there is one. -/
theorem elementsOf_slot (s : ArraySlot) (rest : List Branch) :
    elementsOf false (s.children.map (lowered source (some t.kind)) ++ rest) =
      match s.element? with
      | some _ => do pure ((← slotValue source t s) :: (← elementsOf true rest))
      | none => elementsOf false rest := by
  have hbefore : ∀ c ∈ s.before, c.token.isSkipped = true := fun c hc =>
    s.skipped c (List.mem_append_left _ hc)
  have hafter : ∀ c ∈ s.after, c.token.isSkipped = true := fun c hc =>
    s.skipped c (List.mem_append_right _ hc)
  rw [ArraySlot.children, List.map_append, List.append_assoc, elementsOf_comments hbefore, slotValue]
  cases he : s.element? with
  | none => exact elementsOf_comments hafter false rest
  | some e =>
    obtain ⟨hpart, hcomma⟩ := s.part e he
    have hkind : (lowered source (some t.kind) e).kind ≠ "," := by
      rw [kind_lowered]
      exact hcomma
    have hpart : (lowered source (some t.kind) e).isPart = true := by
      rwa [Tree.isPart, token_lowered]
    rw [Option.toList_some, List.singleton_append, List.map_cons, List.cons_append, elementsOf, if_neg hkind,
      if_pos hpart, elementsOf_comments hafter]
    rfl

/-- The comma after a slot ends its element, and stands for a hole if it has none. -/
theorem elementsOf_ended {s : ArraySlot} {comma : Cst} (hcomma : comma.kind = ",") (rest : List Branch) :
    elementsOf false ((s.children ++ [comma]).map (lowered source (some t.kind)) ++ rest) = (do
      pure ((← slotValue source t s) :: (← elementsOf false rest))) := by
  have hkind : (lowered source (some t.kind) comma).kind = "," := by
    rw [kind_lowered]
    exact hcomma
  have hend (pending : Bool) : elementsOf pending (lowered source (some t.kind) comma :: rest) = (do
      let after ← elementsOf false rest
      pure (if pending then after else .null :: after)) := by
    rw [elementsOf, if_pos hkind]
  rw [List.map_append, List.append_assoc, elementsOf_slot, List.map_singleton, List.singleton_append, hend, hend]
  cases he : s.element? with
  | none =>
    rw [slotValue, he]
    rfl
  | some e => simp

/-- An array has one element for each slot that counts. -/
theorem elementsOf_array (a : ArraySyntax t) :
    elementsOf false (siteOf source t).children = a.counted.mapM (slotValue source t) := by
  obtain ⟨⟨hopening, hnamed⟩, hclosing, hnamed'⟩ := a.brackets
  have hlast : elementsOf false ((a.last.children ++ [a.closing]).map (lowered source (some t.kind))) =
      (if a.last.element?.isSome then [a.last] else []).mapM (slotValue source t) := by
    have hnone (pending : Bool) :
        elementsOf pending ([a.closing].map (lowered source (some t.kind))) = .ok [] :=
      elementsOf_bracket (by simp [hclosing]) hnamed' pending []
    rw [List.map_append, elementsOf_slot, hnone, hnone]
    cases a.last.element? with
    | none => rfl
    | some e =>
      rw [Option.isSome_some, if_pos rfl, List.mapM_cons, List.mapM_nil]
      rfl
  rw [siteOf, a.children, List.cons_append, List.map_cons, elementsOf_bracket (by simp [hopening]) hnamed,
    ArraySyntax.counted]
  have hcommas := a.commas
  generalize a.ended = ended at hcommas ⊢
  induction ended with
  | nil => exact hlast
  | cons e ended ih =>
    obtain ⟨hcomma, hcommas⟩ := List.forall_mem_cons.1 hcommas
    rw [List.flatMap_cons, List.append_assoc, List.map_append, elementsOf_ended hcomma, ih hcommas, List.map_cons,
      List.cons_append, List.mapM_cons]

/-! ## The array -/

/-- An array becomes a node that holds its elements. -/
theorem lower_elements (a : ArraySyntax t) (parent? : Option String) :
    lower source parent? t = (do
      let elements ← elementsOf false (siteOf source t).children
      pure (nodeOf (if t.kind = "array" then "ArrayExpression" else "ArrayPattern") t.token
        [("elements", .list elements)])) := by
  have hrule : ruleOf t.kind =
      .node (if t.kind = "array" then "ArrayExpression" else "ArrayPattern") [("elements", .elements)] := by
    rcases a.kind with kind | kind <;> rw [kind] <;> rfl
  rw [lower_eq hrule (by simp), Rule.lower, fillAll, fillAll, Filler.fill]
  cases elementsOf false (siteOf source t).children with
  | error f => rfl
  | ok elements => split <;> rfl

/-- An element that keeps a slot from having a value is one that cannot be lowered. -/
theorem exists_of_slotValue_error {s : ArraySlot} {f : Fault} (h : slotValue source t s = .error f) :
    ∃ e, s.element? = some e ∧ lower source (some t.kind) e = .error f := by
  rw [slotValue] at h
  cases he : s.element? with
  | none =>
    rw [he] at h
    cases h
  | some e =>
    rw [he] at h
    exact ⟨e, rfl, h⟩

/-- The value of a slot is that of its element; it is null for a hole. -/
theorem slotValue_ok {s : ArraySlot} {w : Value} (h : slotValue source t s = .ok w) :
    (∀ e, s.element? = some e → lower source (some t.kind) e = .ok w) ∧
      (w = .null ↔ s.element? = none ∨ ∃ e, s.element? = some e ∧ lower source (some t.kind) e = .ok .null) := by
  rw [slotValue] at h
  cases he : s.element? with
  | none =>
    rw [he] at h
    obtain rfl : .null = w := Except.ok.inj h
    simp
  | some e =>
    rw [he] at h
    have hw : lower source (some t.kind) e = .ok w := h
    simp [hw]

end

end Lowering

/-- An array, or a pattern for one, becomes a node with as many elements as the array has in the language. The
    element of each slot stands in the place of the slot, and null in the place of a hole. Only an element that
    cannot be lowered keeps the array from being lowered. -/
theorem lower_array {t : Cst} (a : ArraySyntax t) (source : Source) (parent? : Option String) :
    Yields (fun f => ∃ s ∈ a.slots, ∃ e, s.element? = some e ∧ lower source (some t.kind) e = .error f)
      (fun v => ∃ elements : List Value,
        v = nodeOf (if t.kind = "array" then "ArrayExpression" else "ArrayPattern") t.token
          [("elements", .list elements)] ∧
        elements.length =
          (t.children.countP fun c => c.kind = ",") + (if a.last.element?.isSome then 1 else 0) ∧
        ∀ (i : Nat) w, elements[i]? = some w → ∃ s, a.slots[i]? = some s ∧
          (∀ e, s.element? = some e → lower source (some t.kind) e = .ok w) ∧
          (w = .null ↔ s.element? = none ∨ ∃ e, s.element? = some e ∧ lower source (some t.kind) e = .ok .null))
      (lower source parent? t) := by
  have hslots : a.counted ⊆ a.slots := a.counted_prefix.subset
  rw [Lowering.lower_elements a, Lowering.elementsOf_array]
  refine Yields.bind (P := List.Forall₂ (fun s v => Lowering.slotValue source t s = .ok v) a.counted) ?_ ?_
  · refine Yields.mapM_forall₂ fun s hs => ?_
    cases h : Lowering.slotValue source t s with
    | ok v => exact rfl
    | error f => exact ⟨s, hslots hs, Lowering.exists_of_slotValue_error h⟩
  · intro elements h
    refine ⟨elements, rfl, ?_, ?_⟩
    · rw [← h.length_eq, a.length_counted, a.countP_comma, ArraySyntax.length]
    · intro i w hw
      obtain ⟨hi, rfl⟩ := List.getElem?_eq_some_iff.1 hw
      have hi' : i < a.counted.length := h.length_eq ▸ hi
      have hslot := List.prefix_iff_getElem?.1 a.counted_prefix i hi'
      exact ⟨a.counted[i], hslot, Lowering.slotValue_ok (h.get hi' hi)⟩

namespace Sample

/-- The source `[a,,/*,*/b,]`. -/
def gappedSource : Source := .ofText "[a,,/*,*/b,]"

/-- The syntax of an array with a hole, a comment that holds a comma, and a comma after the last element. -/
def gapped : Cst :=
  .branch "array" 0 12 none [
    .leaf "[" false 0 1 none,
    .leaf "identifier" true 1 2 none,
    .leaf "," false 2 3 none,
    .leaf "," false 3 4 none,
    .leaf "comment" true 4 9 none,
    .leaf "identifier" true 9 10 none,
    .leaf "," false 10 11 none,
    .leaf "]" false 11 12 none]

def gappedSyntax : ArraySyntax gapped where
  opening := .leaf "[" false 0 1 none
  ended := [
    (⟨[], some (.leaf "identifier" true 1 2 none), [], by simp, by simp; decide⟩, .leaf "," false 2 3 none),
    (⟨[], none, [], by simp, by simp⟩, .leaf "," false 3 4 none),
    (⟨[.leaf "comment" true 4 9 none], some (.leaf "identifier" true 9 10 none), [], by simp; decide,
      by simp; decide⟩, .leaf "," false 10 11 none)]
  last := ⟨[], none, [], by simp, by simp⟩
  closing := .leaf "]" false 11 12 none
  kind := .inl rfl
  children := rfl
  brackets := ⟨⟨rfl, rfl⟩, rfl, rfl⟩
  commas := by decide

/-- The array has three elements, of which the second is a hole. -/
theorem lower_array_gapped :
    ∃ elements, lower gappedSource none gapped =
        .ok (nodeOf "ArrayExpression" gapped.token [("elements", .list elements)]) ∧
      elements.length = 3 ∧ elements[1]? = some .null := by
  obtain ⟨v, hv⟩ : ∃ v, lower gappedSource none gapped = .ok v := ⟨_, rfl⟩
  obtain ⟨elements, rfl, hlength, hslots⟩ := (lower_array gappedSyntax gappedSource none).of_eq_ok hv
  have hlength : elements.length = 3 := hlength
  refine ⟨elements, hv, hlength, ?_⟩
  have hget := List.getElem?_eq_getElem (show 1 < elements.length by omega)
  obtain ⟨s, hs, -, hnull⟩ := hslots 1 _ hget
  obtain rfl : _ = s := Option.some.inj hs
  rw [hget, hnull.2 (.inl rfl)]

end Sample

end Arbor
