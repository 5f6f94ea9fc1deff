import Arbor.Proofs.Actions
import Arbor.Scope.Tracker
import Arbor.Walk.Request

set_option autoImplicit false

/-! # The counters of a tracker

Where a tracker is depends on its counters alone, and these on how many scopes the nodes open that
are entered and left: what is declared, and whether anything is, does not matter
(`Tracker.enter_counters`, `Tracker.leave_counters`). -/

namespace Arbor

/-- How many scopes a node opens. -/
def Heap.opens (h : Heap) (r : Ref) : Nat :=
  match h.field r "type" with
  | .scalar (.text type) => (Scope.Role.ofType type).opens
  | _ => 0

theorem Heap.opens_eq (h : Heap) (r : Ref) :
    h.opens r = match h.nodeType? (.ref r) with
      | some type => (Scope.Role.ofType type).opens
      | none => 0 := by
  simp only [opens, nodeType?]
  generalize h.field r "type" = d
  rcases d with (_ | _ | _ | _ | _) | _ <;> rfl

theorem Heap.asRecord_ref (h : Heap) (r : Ref) :
    h.asRecord (.ref r) = if (h.fields? r).isSome then .ok r else .error .notARecord := rfl

namespace Scope

open Actions

/-- The counters after some scopes have been opened. -/
def opened (n : Nat) (counters : List Nat) : List Nat := List.replicate n 0 ++ counters

/-- The counters after the innermost scope has been closed. -/
def closedOne : List Nat → List Nat
  | _ :: n :: outer => (n + 1) :: outer
  | _ => []

/-- The counters after some scopes have been closed. -/
def closed : Nat → List Nat → List Nat
  | 0, counters => counters
  | n + 1, counters => closed n (closedOne counters)

/-! ## What a node does -/

def Effect.isPush : Effect → Bool
  | .push => true
  | _ => false

/-- How many scopes several steps open. -/
def pushes (effects : List Effect) : Nat := effects.countP Effect.isPush

theorem pushes_eq_zero {effects : List Effect} :
    pushes effects = 0 ↔ ∀ e ∈ effects, e.isPush = false := by
  simp [pushes, List.countP_eq_zero]

@[simp] theorem pushes_append (effects effects' : List Effect) :
    pushes (effects ++ effects') = pushes effects + pushes effects' := List.countP_append

@[simp] theorem pushes_nil : pushes [] = 0 := rfl

@[simp] theorem pushes_cons_push (effects : List Effect) :
    pushes (.push :: effects) = pushes effects + 1 := List.countP_cons_of_pos rfl

@[simp] theorem pushes_cons_declare (entries : Except Fault (List Entry)) (effects : List Effect) :
    pushes (.declare entries :: effects) = pushes effects :=
  List.countP_cons_of_neg Bool.false_ne_true

section

variable (h : Heap) (r : Ref)

@[simp] theorem pushes_named (kind : BindingKind) (holder : Datum) :
    pushes (Effect.named h kind holder r) = 0 := by
  unfold Effect.named
  split <;> rfl

theorem pushes_forNodes (field : Text) {effects : Ref → List Effect}
    (he : ∀ child, pushes (effects child) = 0) : pushes (Effect.forNodes h r field effects) = 0 := by
  unfold Effect.forNodes
  split
  · rfl
  · refine pushes_eq_zero.2 fun e hmem => ?_
    obtain ⟨d, -, hd⟩ := List.mem_flatMap.1 hmem
    cases d with
    | scalar s => cases hd
    | ref child =>
      simp only at hd
      split at hd
      · exact pushes_eq_zero.1 (he child) e hd
      · cases hd

@[simp] theorem pushes_params : pushes (Effect.params h r) = 0 :=
  pushes_forNodes h r _ fun _ => rfl

@[simp] theorem pushes_declarators : pushes (Effect.declarators h r) = 0 :=
  pushes_forNodes h r _ fun _ => rfl

@[simp] theorem pushes_className : pushes (Effect.className h r) = 0 := by
  unfold Effect.className
  split
  · exact pushes_named ..
  · rfl

@[simp] theorem pushes_loopHead (field : Text) : pushes (Effect.loopHead h r field) = 0 := by
  unfold Effect.loopHead
  repeat' split
  · exact pushes_declarators ..
  · rfl
  · rfl

/-- A node opens as many scopes as its role tells. -/
theorem pushes_ofRole (role : Role) : pushes (Effect.ofRole h r role) = role.opens := by
  cases role with
  | importDeclaration =>
    refine pushes_forNodes h r _ fun specifier => ?_
    split <;> rfl
  | catchClause =>
    rw [Effect.ofRole, pushes_append]
    split <;> rfl
  | _ => simp [Effect.ofRole, Role.opens]

/-- A node opens as many scopes as its type tells. -/
theorem pushes_ofNode : pushes (Effect.ofNode h r) = h.opens r := by
  unfold Effect.ofNode Heap.opens
  rcases h.field r "type" with (_ | _ | _ | _ | type) | x
  all_goals first | rfl | exact pushes_ofRole h r _

end

/-! ## Steps of a tracker -/

namespace Tracker

variable {t t' : Tracker}

@[simp] theorem counters_push (t : Tracker) : t.push.counters = 0 :: t.counters := rfl

theorem counters_pop (t : Tracker) : t.pop.counters = closedOne t.counters := by
  rcases h : t.counters with _ | ⟨n, _ | ⟨m, outer⟩⟩ <;> simp [pop, h, closedOne]

theorem counters_popMany (n : Nat) (t : Tracker) :
    (t.popMany n).counters = closed n t.counters := by
  induction n generalizing t with
  | zero => rfl
  | succ n ih => rw [popMany, ih, counters_pop, closed]

theorem counters_declareAll (t : Tracker) (entries : List Entry) :
    (t.declareAll entries).counters = t.counters := by
  unfold declareAll
  induction entries generalizing t with
  | nil => rfl
  | cons e entries ih => rw [List.foldl_cons, ih]; rfl

theorem apply_declare_eq_ok {entries? : Except Fault (List Entry)} {u : Unit} :
    apply (.declare entries?) t = .ok u t' ↔
      if t.frozen then t = t' else ∃ entries, entries? = .ok entries ∧ t.declareAll entries = t' := by
  cases entries? with
  | ok entries =>
    show (if !t.frozen then modify fun t => t.declareAll entries else pure () :
      EStateM Fault Tracker Unit) t = _ ↔ _
    cases t.frozen <;> simp
  | error f =>
    show (if !t.frozen then throw f else pure () : EStateM Fault Tracker Unit) t = _ ↔ _
    cases t.frozen <;> simp

theorem applyAll_counters {effects : List Effect} {u : Unit}
    (hrun : applyAll effects t = .ok u t') :
    t'.counters = opened (pushes effects) t.counters := by
  induction effects generalizing t with
  | nil =>
    obtain ⟨-, rfl⟩ := pure_eq_ok.1 hrun
    rfl
  | cons e effects ih =>
    obtain ⟨_, t₁, happly, hrun⟩ := bind_eq_ok.1 hrun
    rw [ih hrun]
    cases e with
    | push =>
      obtain rfl := modify_eq_ok.1 happly
      rw [counters_push, pushes_cons_push, opened, opened, List.replicate_succ', List.append_assoc]
      rfl
    | fail f => exact absurd happly throw_eq_ok
    | declare entries? =>
      rw [pushes_cons_declare]
      have hdeclare := apply_declare_eq_ok.1 happly
      split at hdeclare
      · rw [hdeclare]
      · obtain ⟨entries, -, rfl⟩ := hdeclare
        rw [counters_declareAll]

theorem enter_eq_ok {h : Heap} {r : Ref} {u : Unit} (hrun : enter h (.ref r) t = .ok u t') :
    applyAll (Effect.ofNode h r) t = .ok u t' := by
  rw [enter, Heap.asRecord_ref] at hrun
  by_cases hf : (h.fields? r).isSome = true
  · rwa [if_pos hf] at hrun
  · rw [if_neg hf] at hrun
    exact absurd hrun throw_eq_ok

/-- Entering a node opens its scopes, whatever it declares. -/
theorem enter_counters {h : Heap} {r : Ref} {u : Unit} (hrun : enter h (.ref r) t = .ok u t') :
    t'.counters = opened (h.opens r) t.counters := by
  rw [applyAll_counters (enter_eq_ok hrun), pushes_ofNode]

theorem scopesOf_eq_ok {h : Heap} {r : Ref} {n : Nat} (hn : scopesOf h (.ref r) = .ok n) :
    n = h.opens r := by
  unfold Heap.opens
  rw [scopesOf, Heap.asRecord_ref] at hn
  by_cases hf : (h.fields? r).isSome = true
  · rw [if_pos hf] at hn
    simp only [bind, Except.bind] at hn
    generalize h.field r "type" = d at hn ⊢
    rcases d with (_ | _ | _ | _ | type) | x <;> cases hn <;> rfl
  · rw [if_neg hf] at hn
    cases hn

/-- Leaving a node closes its scopes, and does nothing else. -/
theorem leave_eq_ok {h : Heap} {r : Ref} {u : Unit} (hrun : leave h (.ref r) t = .ok u t') :
    t.popMany (h.opens r) = t' := by
  rcases hn : scopesOf h (.ref r) with f | n
  · rw [leave, hn] at hrun
    exact absurd hrun throw_eq_ok
  · rw [leave, hn] at hrun
    rw [← modify_eq_ok.1 hrun, scopesOf_eq_ok hn]

theorem leave_counters {h : Heap} {r : Ref} {u : Unit} (hrun : leave h (.ref r) t = .ok u t') :
    t'.counters = closed (h.opens r) t.counters := by
  rw [← leave_eq_ok hrun, counters_popMany]

end Tracker

/-! ## Scopes that are closed again -/

/-- The same scopes are open, but in the innermost one more scopes may have been closed. -/
inductive Further : List Nat → List Nat → Prop
  | none : Further [] []
  | inside {n m : Nat} {outer : List Nat} (h : n ≤ m) : Further (n :: outer) (m :: outer)

namespace Further

theorem refl (counters : List Nat) : Further counters counters := by
  cases counters with
  | nil => exact .none
  | cons n outer => exact .inside (Nat.le_refl n)

theorem trans {c₁ c₂ c₃ : List Nat} (h : Further c₁ c₂) (h' : Further c₂ c₃) : Further c₁ c₃ := by
  cases h with
  | none => exact h'
  | inside h =>
    cases h' with
    | inside h' => exact .inside (Nat.le_trans h h')

/-- When scopes are closed that were opened, one is where one was before. -/
theorem closed {n : Nat} {counters counters' : List Nat}
    (h : Further (opened n counters) counters') : Further counters (Scope.closed n counters') := by
  induction n generalizing counters' with
  | zero => exact h
  | succ n ih =>
    refine ih ?_
    -- the innermost scope is closed, and counted in the one around it
    rw [show opened (n + 1) counters = 0 :: opened n counters from rfl] at h
    cases h with
    | inside _ =>
      cases opened n counters with
      | nil => exact .none
      | cons m outer => exact .inside (Nat.le_succ m)

/-- One is in the same scope. -/
theorem key {t t' : Tracker} (h : Further t.counters t'.counters) : t'.key = t.key := by
  have htail : t'.counters.tail = t.counters.tail := by
    generalize t.counters = c at h
    generalize t'.counters = c' at h
    cases h <;> rfl
  rw [Tracker.key, Tracker.key, Tracker.path, Tracker.path, htail]

end Further

/-! ## Calls -/

/-- A call by which a tracker follows a walk into a node or out of it, with the heap as it is then. -/
structure Call where
  phase : Phase
  heap : Heap
  node : Ref

/-- What a call does to a tracker. -/
def Call.run (c : Call) : EStateM Fault Tracker Unit :=
  match c.phase with
  | .enter => Tracker.enter c.heap (.ref c.node)
  | .leave => Tracker.leave c.heap (.ref c.node)

/-- The counters after a call to a node that opens `n` scopes. -/
def advanced (phase : Phase) (n : Nat) (counters : List Nat) : List Nat :=
  match phase with
  | .enter => opened n counters
  | .leave => closed n counters

theorem Call.run_counters {c : Call} {t t' : Tracker} {u : Unit} (hrun : c.run t = .ok u t') :
    t'.counters = advanced c.phase (c.heap.opens c.node) t.counters := by
  obtain ⟨_ | _, h, r⟩ := c
  · exact Tracker.enter_counters hrun
  · exact Tracker.leave_counters hrun

end Scope

end Arbor
