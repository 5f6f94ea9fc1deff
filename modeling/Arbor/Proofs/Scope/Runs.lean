import Arbor.Proofs.Scope.Filing

set_option autoImplicit false

/-! # Runs of a tracker

A tracker may be told of nodes in any order: it need not leave the nodes that it enters, nor have entered
those that it leaves, and a call may fail when a part of it has been done. What is kept by the few steps that
a tracker ever takes holds after every run (`Steady.told`). -/

namespace Arbor.Scope

/-! ## What a tracker is told -/

/-- What a tracker is told: a node that is entered or left, or to record no more. -/
inductive Message where
  | call (c : Call)
  | freeze

/-- The tracker that an action leaves, whether it comes to an end or fails on the way. -/
def Tracker.left (x : EStateM Fault Tracker Unit) (t : Tracker) : Tracker :=
  match x t with
  | .ok _ t' => t'
  | .error _ t' => t'

/-- A tracker after a call. -/
def Call.after (c : Call) (t : Tracker) : Tracker := Tracker.left c.run t

/-- The declarations that a call makes if nothing keeps the tracker from it. -/
def Call.entries (c : Call) : List Entry :=
  match c.phase with
  | .enter => entriesOf (Effect.ofNode c.heap c.node)
  | .leave => []

def Message.after : Message → Tracker → Tracker
  | call c, t => c.after t
  | freeze, t => t.freeze

/-- A tracker after all that it has been told. -/
def Tracker.told (t : Tracker) (messages : List Message) : Tracker :=
  messages.foldl (fun t m => m.after t) t

/-! ## What every step keeps -/

/-- A property of trackers that is kept where scopes are opened and closed, and where some of the given
    declarations are made. -/
structure Steady (entries : List Entry) (P : Tracker → Prop) : Prop where
  push : ∀ t, P t → P t.push
  pop : ∀ t, P t → P t.pop
  declare : ∀ t, P t → t.frozen = false → ∀ e ∈ entries, P (t.declare e.name (e.declaration t.path))

namespace Steady

variable {entries : List Entry} {P : Tracker → Prop} {t : Tracker}

theorem mono {entries' : List Entry} (hP : Steady entries P) (h : entries' ⊆ entries) :
    Steady entries' P :=
  ⟨hP.push, hP.pop, fun t ht hf e he => hP.declare t ht hf e (h he)⟩

theorem declareAll (hP : Steady entries P) (ht : P t) (hf : t.frozen = false) : P (t.declareAll entries) := by
  unfold Tracker.declareAll
  induction entries generalizing t with
  | nil => exact ht
  | cons e entries ih =>
    have hrest : Steady entries P := hP.mono fun _ he => List.mem_cons_of_mem _ he
    exact ih hrest (hP.declare t ht hf e List.mem_cons_self) hf

theorem apply {e : Effect} (hP : Steady e.entries P) (ht : P t) : P (Tracker.left (Tracker.apply e) t) := by
  cases e with
  | push => exact hP.push t ht
  | fail f => exact ht
  | declare entries? =>
    by_cases hf : t.frozen = true
    · have hrun : Tracker.apply (.declare entries?) t = .ok () t := by
        rw [Tracker.apply_declare_eq_ok, if_pos hf]
      rw [Tracker.left, hrun]
      exact ht
    · cases entries? with
      | ok entries =>
        have hrun : Tracker.apply (.declare (.ok entries)) t = .ok () (t.declareAll entries) := by
          rw [Tracker.apply_declare_eq_ok, if_neg hf]
          exact ⟨entries, rfl, rfl⟩
        rw [Tracker.left, hrun]
        exact hP.declareAll ht (Bool.eq_false_iff.2 hf)
      | error f =>
        have hrun : Tracker.apply (.declare (.error f)) t = .error f t := by
          show (if !t.frozen then throw f else pure () : EStateM Fault Tracker Unit) t = _
          rw [Bool.eq_false_iff.2 hf]
          rfl
        rw [Tracker.left, hrun]
        exact ht

theorem applyAll {effects : List Effect} (hP : Steady (entriesOf effects) P) (ht : P t) :
    P (Tracker.left (Tracker.applyAll effects) t) := by
  induction effects generalizing t with
  | nil => exact ht
  | cons e effects ih =>
    rw [entriesOf_cons] at hP
    have hone := (hP.mono (List.subset_append_left _ _)).apply ht
    have hrest := hP.mono (List.subset_append_right _ _)
    -- what has been done stays done when a later step fails
    cases happly : Tracker.apply e t with
    | ok u t₁ =>
      rw [Tracker.left, happly] at hone
      have hrun : Tracker.applyAll (e :: effects) t = Tracker.applyAll effects t₁ :=
        Actions.bind_of_eq_ok happly
      rw [Tracker.left, hrun]
      exact ih hrest hone
    | error f t₁ =>
      rw [Tracker.left, happly] at hone
      have hrun : Tracker.applyAll (e :: effects) t = .error f t₁ := Actions.bind_of_eq_error happly
      rw [Tracker.left, hrun]
      exact hone

theorem popMany (hP : Steady entries P) (n : Nat) (ht : P t) : P (t.popMany n) := by
  induction n generalizing t with
  | zero => exact ht
  | succ n ih => exact ih (hP.pop t ht)

theorem call {c : Call} (hP : Steady c.entries P) (ht : P t) : P (c.after t) := by
  obtain ⟨_ | _, h, r⟩ := c
  · show P (Tracker.left (Tracker.enter h (.ref r)) t)
    unfold Tracker.enter
    rw [Heap.asRecord_ref]
    by_cases hf : (h.fields? r).isSome = true
    · rw [if_pos hf]
      exact hP.applyAll ht
    · rw [if_neg hf]
      exact ht
  · show P (Tracker.left (Tracker.leave h (.ref r)) t)
    unfold Tracker.leave
    cases Tracker.scopesOf h (.ref r) with
    | ok n => exact hP.popMany n ht
    | error f => exact ht

/-- What every step keeps holds after all that a tracker is told. -/
theorem told {messages : List Message} (hcall : ∀ c, .call c ∈ messages → Steady c.entries P)
    (hfreeze : .freeze ∈ messages → ∀ t, P t → P t.freeze) (ht : P t) : P (t.told messages) := by
  unfold Tracker.told
  induction messages generalizing t with
  | nil => exact ht
  | cons m messages ih =>
    refine ih (fun c hc => hcall c (List.mem_cons_of_mem _ hc))
      (fun hmem => hfreeze (List.mem_cons_of_mem _ hmem)) ?_
    cases m with
    | call c => exact (hcall c List.mem_cons_self).call ht
    | freeze => exact hfreeze List.mem_cons_self t ht

end Steady

end Arbor.Scope
