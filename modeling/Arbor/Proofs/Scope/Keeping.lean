import Arbor.Proofs.Scope.Environments

set_option autoImplicit false

/-! # Trackers that preserve

A tracker that preserves the scopes that have been left forgets nothing: every name that is declared in
a scope stays declared there (`Tracker.Keeps`). Once it is frozen, what it has stored does not change at
all. Whether a name is visible depends on what is stored for the current scope and those around it
(`Tracker.isDeclared_iff`). -/

namespace Arbor.Scope

open Actions

namespace Tracker

variable {T T₁ T₂ T' : Tracker}

/-! ## What is visible -/

/-- Whether a name is declared directly in a scope. -/
def Has (T : Tracker) (path : ScopePath) (name : Text) : Prop :=
  (Fields.get? (T.bindings path) name).isSome = true

theorem mem_enclosing {p q : ScopePath} : q ∈ enclosing p ↔ q <+: p := by
  simp only [enclosing, List.mem_map, List.mem_reverse, List.mem_range]
  constructor
  · rintro ⟨n, -, rfl⟩
    exact p.take_prefix n
  · intro h
    exact ⟨q.length, Nat.lt_succ_of_le h.length_le, (List.prefix_iff_eq_take.1 h).symm⟩

theorem lookupIn_isSome {name : Text} {paths : List ScopePath} :
    (T.lookupIn name paths).isSome = true ↔ ∃ q ∈ paths, T.Has q name := by
  induction paths with
  | nil => simp [lookupIn]
  | cons q rest ih =>
    simp only [List.mem_cons, exists_eq_or_imp]
    rw [lookupIn, ← ih, Has]
    cases Fields.get? (T.bindings q) name <;> simp

/-- A name is visible if it is declared in the current scope or in one around it. -/
theorem isDeclared_iff {name : Text} :
    T.isDeclared name = true ↔ ∃ q, q <+: T.path ∧ T.Has q name := by
  rw [isDeclared, lookup, lookupIn_isSome]
  simp only [mem_enclosing]

/-! ## What is kept -/

/-- From one tracker to another no name is lost, and if nothing is recorded nothing has changed. -/
structure Keeps (T T' : Tracker) : Prop where
  preserves : T'.preserves = T.preserves
  frozen : T'.frozen = T.frozen
  names : ∀ path name, T.Has path name → T'.Has path name
  scopes : T.frozen = true → T'.scopes = T.scopes

theorem Keeps.refl (T : Tracker) : T.Keeps T := ⟨rfl, rfl, fun _ _ h => h, fun _ => rfl⟩

theorem Keeps.trans (h : T.Keeps T₁) (h' : T₁.Keeps T₂) : T.Keeps T₂ where
  preserves := h'.preserves.trans h.preserves
  frozen := h'.frozen.trans h.frozen
  names := fun path name hn => h'.names path name (h.names path name hn)
  scopes := fun hf => (h'.scopes (h.frozen.trans hf)).trans (h.scopes hf)

theorem bindings_congr (h : T.scopes = T'.scopes) (path : ScopePath) :
    T.bindings path = T'.bindings path := by
  rw [bindings, bindings, h]

/-- Where scopes are opened and closed nothing is stored. -/
theorem Keeps.of_scopes (hp : T'.preserves = T.preserves) (hf : T'.frozen = T.frozen)
    (hs : T'.scopes = T.scopes) : T.Keeps T' where
  preserves := hp
  frozen := hf
  names := fun path name h => by
    rw [Has] at h ⊢
    rwa [bindings_congr hs]
  scopes := fun _ => hs

theorem declare_has {path : ScopePath} {name other : Text} {d : Declaration} (h : T.Has path name) :
    (T.declare other d).Has path name := by
  rw [Has] at h ⊢
  rw [bindings_declare]
  split
  · rw [Fields.get?_set]
    split
    · rfl
    · exact h
  · exact h

theorem keeps_declareAll (hf : T.frozen = false) (entries : List Entry) :
    T.Keeps (T.declareAll entries) := by
  unfold declareAll
  induction entries generalizing T with
  | nil => exact .refl T
  | cons e entries ih =>
    have hone : T.Keeps (T.declare e.name ⟨e.kind, e.node, T.key, e.owner?⟩) :=
      ⟨rfl, rfl, fun _ _ => declare_has, fun h => by rw [hf] at h; cases h⟩
    exact hone.trans (ih hf)

theorem keeps_apply {e : Effect} {u : Unit} (hrun : apply e T = .ok u T') : T.Keeps T' := by
  cases e with
  | push =>
    obtain rfl := modify_eq_ok.1 hrun
    exact .of_scopes rfl rfl rfl
  | fail f => exact absurd hrun throw_eq_ok
  | declare entries? =>
    have hdeclare := apply_declare_eq_ok.1 hrun
    split at hdeclare
    · rw [← hdeclare]
      exact .refl T
    · next hf =>
      obtain ⟨entries, -, rfl⟩ := hdeclare
      exact keeps_declareAll (Bool.eq_false_iff.2 hf) entries

theorem keeps_applyAll {effects : List Effect} {u : Unit} (hrun : applyAll effects T = .ok u T') :
    T.Keeps T' := by
  induction effects generalizing T with
  | nil =>
    obtain ⟨-, rfl⟩ := pure_eq_ok.1 hrun
    exact .refl T
  | cons e effects ih =>
    obtain ⟨_, T₁, happly, hrun⟩ := bind_eq_ok.1 hrun
    exact (keeps_apply happly).trans (ih hrun)

theorem preserves_pop (T : Tracker) : T.pop.preserves = T.preserves := by
  unfold pop
  split <;> rfl

theorem scopes_pop (hp : T.preserves = true) : T.pop.scopes = T.scopes := by
  unfold pop
  split
  · rfl
  · exact if_pos hp

/-- Where scopes are left nothing of what is stored changes. -/
theorem scopes_popMany (n : Nat) (hp : T.preserves = true) : (T.popMany n).scopes = T.scopes := by
  induction n generalizing T with
  | zero => rfl
  | succ n ih => rw [popMany, ih (T.preserves_pop.trans hp), scopes_pop hp]

theorem keeps_popMany (n : Nat) (hp : T.preserves = true) : T.Keeps (T.popMany n) := by
  refine .of_scopes ?_ ?_ (scopes_popMany n hp)
  · clear hp
    induction n generalizing T with
    | zero => rfl
    | succ n ih => rw [popMany, ih, preserves_pop]
  · clear hp
    induction n generalizing T with
    | zero => rfl
    | succ n ih => rw [popMany, ih, frozen_pop]

end Tracker

/-- A tracker that preserves keeps what it has in every call. -/
theorem Call.keeps {c : Call} {T T' : Tracker} {u : Unit} (hp : T.preserves = true)
    (hrun : c.run T = .ok u T') : T.Keeps T' := by
  obtain ⟨_ | _, h, r⟩ := c
  · exact Tracker.keeps_applyAll (Tracker.enter_eq_ok hrun)
  · rw [← Tracker.leave_eq_ok hrun]
    exact Tracker.keeps_popMany _ hp

end Arbor.Scope
