import Arbor.Proofs.Walk.Notices
import Arbor.Proofs.Walk.Refinement

set_option autoImplicit false

/-! # Nesting

What is told in the course of a walk is properly nested (`walk_nested`). This holds of every walk that
comes to an end, whatever the callbacks do on the way: they may rewrite the very lists and records
through which the walk goes, so that it is not determined before which nodes are visited. -/

namespace Arbor

variable {σ : Type}

/-- What is told of the visits `vs`, one after the other, of a walk that started from `root`. The nodes
    hang in `parent`, in the slots that the visits name, or are roots. At each node it is told that it
    is reached, then whatever is told of the nodes below, and at last that it is left. The nodes below
    hang in what stands in the place of the node after entering. There are none if the enter callback
    asked to skip or to remove the node. -/
inductive Nested (root : Datum) : Option Datum → List Visit → List (Notice σ) → Prop
  | nil {parent : Option Datum} : Nested root parent [] []
  | node {parent : Option Datum} {v : Visit} {cs vs : List Visit} {q q' : Request}
      {s₀ s₁ s₂ s₃ s₄ s₅ : World σ} {below rest : List (Notice σ)} (hroot : v.root = root)
      (hparent : v.slot.parent?.map .ref = parent)
      (hcut : q.skipped = true ∨ q.removed = true → cs = [])
      (hbelow : Nested root (some (q.effective?.getD (.ref v.node))) cs below)
      (hrest : Nested root parent vs rest) :
      Nested root parent (v :: vs)
        (.followed .enter v.node s₀ :: .shown ⟨.enter, v, s₁, .ok q s₂⟩ :: below ++
          .followed .leave v.node s₃ :: .shown ⟨.leave, v, s₄, .ok q' s₅⟩ :: rest)

theorem Nested.append {root : Datum} {parent : Option Datum} {vs vs' : List Visit}
    {notes notes' : List (Notice σ)} (h : Nested root parent vs notes)
    (h' : Nested root parent vs' notes') : Nested root parent (vs ++ vs') (notes ++ notes') := by
  induction h with
  | nil => exact h'
  | node hroot hparent hcut hbelow _ _ ih =>
    have hrest := ih h'
    simp only [List.cons_append, List.append_assoc]
    exact .node hroot hparent hcut hbelow hrest

namespace Walker

open Actions WalkM

/-- Nodes that hang in `i.2` are visited one after the other, and what was told of them, after the notes
    `i.1`, is nested. -/
def nestingPace (root : Datum) :
    Pace (σ × List (Notice σ)) (σ × List (Notice σ)) (List (Notice σ) × Option Datum) where
  Rel i s t := s = t ∧ ∃ vs notes, s.user.2 = i.1 ++ notes ∧ Nested root i.2 vs notes
  Stopped _ _ := True
  Opens i p? := p?.map .ref = i.2
  Known _ _ := True
  Good _ := True
  stopped _ := trivial
  cell h _ := by rw [h.1]
  links _ _ _ := trivial

/-- Visits of single nodes tell what is nested. -/
def VisitNests (root : Datum) (f : Ref → Heap.Slot → WalkM (σ × List (Notice σ)) Datum) : Prop :=
  ∀ r slot s d s', f r slot s = .ok d s' → ∃ notes, s'.user.2 = s.user.2 ++ notes ∧
    Nested root (slot.parent?.map .ref) [⟨r, slot, root⟩] notes

theorem VisitNests.abreast {root : Datum}
    {f : Ref → Heap.Slot → WalkM (σ × List (Notice σ)) Datum} (hf : VisitNests root f)
    (i : List (Notice σ) × Option Datum) (r : Ref) (slot : Heap.Slot) :
    (nestingPace root).Abreast i i ((nestingPace root).Hung i r slot) (f r slot) (f r slot) := by
  refine ⟨fun _ _ => trivial, ?_⟩
  rintro s _ hhung ⟨rfl, vs, notes, hnotes, hnested⟩ -
  rcases hrun : f r slot s with ⟨d, s'⟩ | ⟨e, s'⟩
  · obtain ⟨notes', hnotes', hnested'⟩ := hf r slot s d s' hrun
    have hopens : slot.parent?.map .ref = i.2 := hhung.opens
    refine .ok ⟨rfl, vs ++ [⟨r, slot, root⟩], notes ++ notes', ?_, ?_⟩ (.refl s)
    · rw [hnotes', hnotes, List.append_assoc]
    · exact hnested.append (hopens ▸ hnested')
  · exact .error trivial

/-- What is told of the visits below a node is nested. -/
theorem visitBelow_nested {root : Datum} {f : Ref → Heap.Slot → WalkM (σ × List (Notice σ)) Datum}
    (hf : VisitNests root f) {steps : Nat} {entered : Entered} {s s' : World (σ × List (Notice σ))}
    {u : Unit} (hrun : visitBelow f steps entered s = .ok u s') :
    ∃ cs notes, s'.user.2 = s.user.2 ++ notes ∧ Nested root (some entered.current) cs notes ∧
      (entered.skipped = true ∨ entered.current.isNull = true → cs = []) := by
  by_cases hcut : entered.skipped = true ∨ entered.current.isNull = true
  · have hnone : visitBelow f steps entered = pure () := by
      rcases hcut with h | h <;> simp [visitBelow, h]
    rw [hnone] at hrun
    obtain ⟨-, rfl⟩ := pure_eq_ok.1 hrun
    exact ⟨[], [], (List.append_nil _).symm, .nil, fun _ => rfl⟩
  · have hends := (Pace.visitBelow_abreast (hf.abreast (s.user.2, some entered.current)) steps
      (fun _ p hp => congrArg some hp.symm)).ends s s (fun _ _ => trivial)
      ⟨rfl, [], [], (List.append_nil _).symm, .nil⟩ trivial
    rw [hrun] at hends
    cases hends with
    | ok h _ =>
      obtain ⟨-, cs, notes, hnotes, hnested⟩ := h
      exact ⟨cs, notes, hnotes, hnested, fun h => absurd h hcut⟩

/-- What is told of the visit of a node is nested. -/
theorem visit_nested (w : Walker σ) (root : Datum) (steps : Nat) :
    VisitNests root (visitBy (w.arriveNoting root) (w.departNoting root) steps) := by
  induction steps with
  | zero => exact fun _ _ _ _ _ h => absurd h throw_eq_ok
  | succ steps ih =>
    intro r slot s d s' hrun
    obtain ⟨entered, s₃, harrive, hrun⟩ := bind_eq_ok.1 hrun
    obtain ⟨_, s₄, hbelow, hdepart⟩ := bind_eq_ok.1 hrun
    obtain ⟨cs, notes, hnotes, hnested, hcut⟩ := visitBelow_nested ih hbelow
    obtain ⟨s₁, q, s₂, t₃, -, -, hmake, rfl⟩ := passNoting_eq_ok harrive
    obtain ⟨s₅, q', s₆, t', -, -, -, rfl⟩ := passNoting_eq_ok hdepart
    obtain ⟨-, rfl⟩ := makeEnter_leaves hmake
    have hcurrent : Nested root (some (q.effective?.getD (.ref r))) cs notes := by
      cases hr : q.removed with
      | true =>
        rw [hcut (.inr (by simp [hr, Datum.isNull, Datum.null]))] at hnested ⊢
        cases hnested
        exact .nil
      | false => simpa [hr] using hnested
    have hall : s₄.user.2 ++ [.followed .leave r s₄.plain,
          .shown ⟨.leave, ⟨r, slot, root⟩, s₅, .ok q' s₆⟩] =
        s.user.2 ++ (.followed .enter r s.plain :: .shown ⟨.enter, ⟨r, slot, root⟩, s₁, .ok q s₂⟩ ::
          notes ++ [.followed .leave r s₄.plain, .shown ⟨.leave, ⟨r, slot, root⟩, s₅, .ok q' s₆⟩]) := by
      rw [hnotes]
      simp [World.noting, World.withUser]
    refine ⟨_, hall, .node (v := ⟨r, slot, root⟩) rfl rfl ?_ hcurrent .nil⟩
    rintro (hs | hr)
    · exact hcut (.inl hs)
    · exact hcut (.inr (by simp [hr, Datum.isNull, Datum.null]))

end Walker

/-- The visits at the top of a walk: that of the root if the root is a node, and none otherwise. -/
def Visit.top (h : Heap) : Datum → List Visit
  | .ref r => if h.isNode (.ref r) then [⟨r, .root, .ref r⟩] else []
  | .scalar _ => []

/-- What is told in the course of a walk that comes to an end is nested, and all of it is told of the
    visit of the root. -/
theorem walk_nested {w : Walker σ} {steps : Nat} {root d : Datum} {s s' : World σ}
    (hrun : w.walk steps root s = .ok d s') :
    Nested root none (Visit.top s.heap root) (w.notices steps root s) := by
  have hnoting := Walker.walkNoting_eq_ok hrun
  cases hn : s.heap.isNode root with
  | false =>
    rw [Walker.walkNoting_data (s := s.noting []) hn, EStateM.Result.ok.injEq] at hnoting
    have hall : w.notices steps root s = [] := (congrArg (·.user.2) hnoting.2).symm
    have htop : Visit.top s.heap root = [] := by
      cases root <;> simp [Visit.top, hn]
    rw [hall, htop]
    exact .nil
  | true =>
    cases root with
    | scalar _ => cases hn
    | ref r =>
      rw [Walker.walkNoting_node (s := s.noting []) hn] at hnoting
      obtain ⟨notes, hnotes, hnested⟩ := w.visit_nested _ _ _ _ _ _ _ hnoting
      have hall : w.notices steps (.ref r) s = notes := hnotes
      rw [Visit.top, if_pos hn, hall]
      exact hnested

namespace Sample

/-- Rewrites the list through which the walk goes, while its first node is shown. -/
def rearranger : Walker Unit where
  enter? := some fun v s => .ok .empty <|
    if v.node = 2 then { s with heap := s.heap.put 1 (.list [.ref 2, .ref 4]) } else s
  leave? := none
  tracked := true

theorem walk_nested_rearranged :
    Nested (.ref 0) none [⟨0, .root, .ref 0⟩] (rearranger.notices 9 (.ref 0) (program 2 3 [])) :=
  walk_nested (rfl : rearranger.walk 9 (.ref 0) (program 2 3 []) = .ok _ _)

end Sample

end Arbor
