import Arbor.Proofs.Walk.Rewriting
import Arbor.Proofs.Walk.Simulation

set_option autoImplicit false

/-! # The log of a walk

A walk is recorded by callbacks that act as those of the walk and note down besides how they are
called and what they answer (`Walker.recorded`). The recorded walk ends as the walk does
(`walk_recorded`), and its log tells what has happened on the way (`Walker.log`). -/

namespace Arbor

open Scope (Tracker)

variable {σ : Type}

/-- A call of a callback: what it was shown, the tracker at that moment, what it asked for, and the
    heap that it left. -/
structure Showing where
  phase : Phase
  visit : Visit
  tracker : Tracker
  request : Request
  heap : Heap

namespace Showing

def event (e : Showing) : Event := ⟨e.phase, e.visit⟩

def answer (e : Showing) : Answer := e.request.answer e.heap

/-- The cells of the replacement that was asked for. -/
def made (e : Showing) : List Ref := Layout.refsOf e.answer.replacement?.toList

/-- The replacement that was asked for, if any, is a node without sharing. -/
def Proper (e : Showing) : Prop :=
  ∀ u, e.answer.replacement? = some u → u.isNode = true ∧ u.Unaliased ∧ e.heap.Holds u

instance (e : Showing) : Decidable e.Proper :=
  match h : e.answer.replacement? with
  | none => isTrue fun u hu => by rw [h] at hu; cases hu
  | some u =>
    decidable_of_iff (u.isNode = true ∧ u.Unaliased ∧ e.heap.Holds u)
      ⟨fun hu v hv => by rw [h] at hv; cases hv; exact hu, fun hp => hp u h⟩

end Showing

/-- The cells of the replacements that were asked for. -/
def allMade (log : List Showing) : List Ref := log.flatMap Showing.made

@[simp] theorem allMade_nil : allMade [] = [] := rfl

@[simp] theorem allMade_cons (e : Showing) (log : List Showing) :
    allMade (e :: log) = e.made ++ allMade log := rfl

@[simp] theorem allMade_append (log log' : List Showing) :
    allMade (log ++ log') = allMade log ++ allMade log' := List.flatMap_append

/-- The cells that visits may change: those of the parts that are visited, and those of the
    replacements that are asked for on the way. -/
def area (ts : List Layout) (log : List Showing) : List Ref := Layout.refsOf ts ++ allMade log

theorem mem_area {x : Ref} {ts : List Layout} {log : List Showing} :
    x ∈ area ts log ↔ x ∈ Layout.refsOf ts ∨ x ∈ allMade log := List.mem_append

theorem area_cons_append (t : Layout) (ts : List Layout) (log log' : List Showing) :
    (area (t :: ts) (log ++ log')).Perm (area [t] log ++ area ts log') := by
  refine List.perm_iff_count.2 fun x => ?_
  simp only [area, Layout.refsOf_cons, Layout.refsOf_nil, List.append_nil, allMade_append,
    List.count_append]
  omega

/-- In an area without sharing the parts of the area lie apart. -/
theorem area_apart {t : Layout} {ts : List Layout} {log log' : List Showing}
    (h : (area (t :: ts) (log ++ log')).Nodup) :
    (area [t] log).Nodup ∧ (area ts log').Nodup ∧ ∀ x ∈ area [t] log, x ∉ area ts log' := by
  obtain ⟨h₁, h₂, hdisjoint⟩ :=
    List.nodup_append.1 ((area_cons_append t ts log log').nodup_iff.1 h)
  exact ⟨h₁, h₂, fun x hx hx' => hdisjoint x hx x hx' rfl⟩

theorem mem_area_cons_append {x : Ref} {t : Layout} {ts : List Layout} {log log' : List Showing} :
    x ∈ area (t :: ts) (log ++ log') ↔ x ∈ area [t] log ∨ x ∈ area ts log' := by
  rw [(area_cons_append t ts log log').mem_iff, List.mem_append]

theorem area_list (r : Ref) (items : List Layout) (log : List Showing) :
    area [.list r items] log = r :: area items log := by
  simp [area]

theorem area_record (r : Ref) (fields : List (Key × Layout)) (log : List Showing) :
    area [.record r fields] log = r :: area (fields.map Prod.snd) log := by
  simp [area]

/-- The replacements that are asked for in a walk of the tree `t` are fresh: nodes without sharing,
    which lie apart from `t` and from each other. -/
structure Fresh (t : Layout) (log : List Showing) : Prop where
  proper : ∀ e ∈ log, e.Proper
  apart : (area [t] log).Nodup

instance (t : Layout) (log : List Showing) : Decidable (Fresh t log) :=
  decidable_of_iff ((∀ e ∈ log, e.Proper) ∧ (area [t] log).Nodup)
    ⟨fun h => ⟨h.1, h.2⟩, fun h => ⟨h.proper, h.apart⟩⟩

/-! ## Recording -/

/-- The same state, with something else kept for the callbacks. -/
def World.withUser {τ : Type} (s : World σ) (u : τ) : World τ :=
  ⟨s.heap, s.tracker, s.warnings, u⟩

/-- A callback that also notes down how it is called and what it answers. -/
def Callback.recorded (c : Callback σ) (phase : Phase) : Callback (σ × List Showing) := fun v s =>
  match c v (s.withUser s.user.1) with
  | .ok q s' => .ok q (s'.withUser (s'.user, s.user.2 ++ [⟨phase, v, s.tracker, q, s'.heap⟩]))
  | .error e s' => .error e (s'.withUser (s'.user, s.user.2))

namespace Walker

/-- The walk with all its calls noted down, those of absent callbacks too. -/
def recorded (w : Walker σ) : Walker (σ × List Showing) :=
  ⟨some ((w.call .enter).recorded .enter), some ((w.call .leave).recorded .leave), w.tracked⟩

/-- The calls that are made in a walk, in their order. -/
def log (w : Walker σ) (steps : Nat) (root : Datum) (s : World σ) : List Showing :=
  match w.recorded.walk steps root (s.withUser (s.user, [])) with
  | .ok _ s' => s'.user.2
  | .error _ s' => s'.user.2

theorem recorded_call (w : Walker σ) (phase : Phase) :
    w.recorded.call phase = (w.call phase).recorded phase := by
  cases phase <;> rfl

theorem recorded_call_eq_ok {w : Walker σ} {phase : Phase} {v : Visit}
    {s s' : World (σ × List Showing)} {q : Request} (h : w.recorded.call phase v s = .ok q s') :
    w.call phase v (s.withUser s.user.1) = .ok q (s'.withUser s'.user.1) ∧
      s'.user.2 = s.user.2 ++ [⟨phase, v, s.tracker, q, s'.heap⟩] := by
  rw [recorded_call, Callback.recorded] at h
  split at h
  · next hc =>
    cases h
    exact ⟨hc, rfl⟩
  · cases h

/-- A recorded call differs from the call only in the log that it keeps beside what the callback keeps. -/
theorem recorded_call_related (w : Walker σ) (phase : Phase) (v : Visit) :
    WalkM.Related (fun u (u' : σ × List Showing) => u = u'.1) (w.call phase v)
      (w.recorded.call phase v) := by
  rintro ⟨heap, tracker, warnings, u⟩ ⟨_, _, _, u', log⟩ ⟨rfl, rfl, rfl, rfl⟩
  rw [recorded_call, Callback.recorded]
  simp only [World.withUser]
  cases w.call phase v ⟨heap, tracker, warnings, u⟩ with
  | ok q s' => exact .ok ⟨rfl, rfl, rfl, rfl⟩
  | error e s' => exact .error ⟨rfl, rfl, rfl, rfl⟩

theorem exists_log_of_related {α : Type} {x : WalkM σ α} {y : WalkM (σ × List Showing) α}
    (hxy : WalkM.Related (fun u (u' : σ × List Showing) => u = u'.1) x y) {s s' : World σ} {a : α}
    (h : x s = .ok a s') :
    ∃ log, y (s.withUser (s.user, [])) = .ok a (s'.withUser (s'.user, log)) := by
  have hends := hxy s (s.withUser (s.user, [])) ⟨rfl, rfl, rfl, rfl⟩
  rw [h] at hends
  generalize y (s.withUser (s.user, [])) = result at hends ⊢
  cases hends with
  | @ok _ _ t ht =>
    obtain ⟨_, _, _, _, log⟩ := t
    obtain ⟨rfl, rfl, rfl, rfl⟩ := ht
    exact ⟨log, rfl⟩

/-- Recording a walk does not change it. -/
theorem walk_recorded {w : Walker σ} {steps : Nat} {root d : Datum} {s s' : World σ}
    (h : w.walk steps root s = .ok d s') :
    w.recorded.walk steps root (s.withUser (s.user, [])) =
      .ok d (s'.withUser (s'.user, w.log steps root s)) := by
  have htracked : w.tracked = w.recorded.tracked := rfl
  obtain ⟨log, hlog⟩ := exists_log_of_related (walk_related htracked w.recorded_call_related steps root) h
  rw [Walker.log, hlog]
  rfl

/-- The calls that are made in the visit of a node, in their order. -/
def visitLog (w : Walker σ) (root : Datum) (steps : Nat) (r : Ref) (slot : Heap.Slot) (s : World σ) :
    List Showing :=
  match w.recorded.visit root steps r slot (s.withUser (s.user, [])) with
  | .ok _ s' => s'.user.2
  | .error _ s' => s'.user.2

/-- Recording a visit does not change it. -/
theorem visit_recorded {w : Walker σ} {root : Datum} {steps : Nat} {r : Ref} {slot : Heap.Slot} {d : Datum}
    {s s' : World σ} (h : w.visit root steps r slot s = .ok d s') :
    w.recorded.visit root steps r slot (s.withUser (s.user, [])) =
      .ok d (s'.withUser (s'.user, w.visitLog root steps r slot s)) := by
  have htracked : w.tracked = w.recorded.tracked := rfl
  obtain ⟨log, hlog⟩ :=
    exists_log_of_related (visit_related htracked w.recorded_call_related root steps r slot) h
  rw [visitLog, hlog]
  rfl

end Walker

/-! ## Logs only get longer -/

/-- The same is kept on both sides, and its log goes on from `log`. -/
def GoesOn (log : List Showing) (u u' : σ × List Showing) : Prop := u = u' ∧ log <+: u.2

/-- An action that takes the log further, wherever it has come to. -/
def WalkM.Extends {α : Type} (x : WalkM (σ × List Showing) α) : Prop :=
  ∀ log, Related (GoesOn log) x x

theorem WalkM.Extends.exists_log {α : Type} {x : WalkM (σ × List Showing) α}
    {s s' : World (σ × List Showing)} {a : α} (hx : x.Extends) (h : x s = .ok a s') :
    ∃ log, s'.user.2 = s.user.2 ++ log := by
  have hends := hx s.user.2 s s ⟨rfl, rfl, rfl, rfl, List.prefix_rfl⟩
  rw [h] at hends
  cases hends with
  | ok hr =>
    obtain ⟨log, hlog⟩ := hr.user.2
    exact ⟨log, hlog.symm⟩

namespace Walker

section

variable {f : Ref → Heap.Slot → WalkM (σ × List Showing) Datum}
  (hext : ∀ r slot, (f r slot).Extends)

include hext

theorem visitItems_extends (parent : Ref) (key : Key) (list : Ref) (steps i : Nat) :
    (visitItems f parent key list steps i).Extends := fun log =>
  visitItems_related (fun r slot => hext r slot log) _ _ _ _ _

theorem forPresent_extends (parent : Ref) (steps : Nat) (keys : List Key) :
    WalkM.Extends
      (Fields.forPresent (fun key => WalkM.look fun h => (h.fields? parent).bind (Fields.get? · key))
        (visitField f parent steps) keys) := fun log =>
  forPresent_related (fun r slot => hext r slot log) _ _ _

theorem visitField_extends (parent : Ref) (steps : Nat) (key : Key) (d : Datum) :
    (visitField f parent steps key d).Extends := fun log =>
  visitField_related (fun r slot => hext r slot log) _ _ _ _

theorem visitBelow_extends (steps : Nat) (entered : Entered) :
    (visitBelow f steps entered).Extends := fun log =>
  visitBelow_related (fun r slot => hext r slot log) _ _

end

/-- Whatever else a walk does, its log only gets longer. -/
theorem visit_recorded_extends (w : Walker σ) (root : Datum) (steps : Nat) (r : Ref)
    (slot : Heap.Slot) : (w.recorded.visit root steps r slot).Extends := by
  intro log
  refine visit_related rfl (fun phase v => ?_) root steps r slot
  intro s t hst
  obtain ⟨heap, tracker, warnings, u, log'⟩ := s
  obtain ⟨_, _, _, _⟩ := t
  obtain ⟨rfl, rfl, rfl, rfl, hlog⟩ := hst
  rw [recorded_call, Callback.recorded]
  split
  · exact .ok ⟨rfl, rfl, rfl, rfl, hlog.trans (List.prefix_append _ _)⟩
  · exact .error ⟨rfl, rfl, rfl, rfl, hlog⟩

end Walker

end Arbor
