import Arbor.Proofs.Walk.Steps

set_option autoImplicit false

/-! # Walks whose callbacks act alike

What callbacks keep for themselves means nothing to a walk. Two walks whose callbacks act alike, in
states that differ only in what is kept, go on alike to the end (`walk_related`), whatever the
relation `Q` between what the ones and the others keep, as long as the callbacks keep to it. With
two copies of one walk this shows that all that the walk itself does leaves the kept state alone. -/

namespace Arbor

open Scope (Tracker)

variable {σ τ α β : Type} (Q : σ → τ → Prop)

/-- States that differ at most in what the callbacks keep, which is related by `Q`. -/
structure World.Related (s : World σ) (t : World τ) : Prop where
  heap : s.heap = t.heap
  tracker : s.tracker = t.tracker
  warnings : s.warnings = t.warnings
  user : Q s.user t.user

/-- Two actions end alike, in states that are related. -/
inductive WalkM.Ends :
    EStateM.Result Stop (World σ) α → EStateM.Result Stop (World τ) α → Prop
  | ok {a : α} {s : World σ} {t : World τ} (h : s.Related Q t) : Ends (.ok a s) (.ok a t)
  | error {e : Stop} {s : World σ} {t : World τ} (h : s.Related Q t) :
      Ends (.error e s) (.error e t)

/-- From states that are related two actions end alike. -/
def WalkM.Related (x : WalkM σ α) (y : WalkM τ α) : Prop :=
  ∀ s t, World.Related Q s t → Ends Q (x s) (y t)

namespace WalkM

variable {Q}

/-! ## Actions -/

theorem Related.pure (a : α) : Related Q (pure a) (pure a) := fun _ _ h => .ok h

theorem Related.throw (e : Stop) : Related Q (α := α) (throw e) (throw e) := fun _ _ h => .error h

theorem Related.bind {x : WalkM σ α} {y : WalkM τ α} {f : α → WalkM σ β} {g : α → WalkM τ β}
    (hxy : Related Q x y) (hfg : ∀ a, Related Q (f a) (g a)) : Related Q (x >>= f) (y >>= g) := by
  intro s t h
  have hr := hxy s t h
  simp only [Bind.bind, EStateM.bind]
  cases hx : x s <;> cases hy : y t <;> rw [hx, hy] at hr <;> cases hr
  · next h => exact hfg _ _ _ h
  · next h => exact .error h

theorem Related.get_bind {f : World σ → WalkM σ β} {g : World τ → WalkM τ β}
    (hfg : ∀ s t, World.Related Q s t → Related Q (f s) (g t)) :
    Related Q (get >>= f) (get >>= g) := fun s t h => hfg s t h s t h

theorem Related.look (f : Heap → α) : Related Q (WalkM.look f) (WalkM.look f) := by
  intro s t h
  show Ends Q (.ok (f s.heap) s) (.ok (f t.heap) t)
  rw [h.heap]
  exact .ok h

theorem Related.ofExcept (r : Except Fault α) :
    Related Q (WalkM.ofExcept r) (WalkM.ofExcept r) := by
  cases r with
  | ok a => exact .pure a
  | error f => exact .throw _

theorem Related.track (f : Heap → EStateM Fault Tracker α) :
    Related Q (WalkM.track f) (WalkM.track f) := by
  intro s t h
  unfold WalkM.track
  rw [h.heap, h.tracker]
  split
  · exact .ok ⟨rfl, rfl, h.warnings, h.user⟩
  · exact .error ⟨rfl, rfl, h.warnings, h.user⟩

end WalkM

/-! ## Walks -/

namespace Walker

open WalkM

variable {Q} {w : Walker σ} {w' : Walker τ} (htracked : w.tracked = w'.tracked)
  (hcall : ∀ phase v, Related Q (w.call phase v) (w'.call phase v))

section

include htracked

theorem follow_related (phase : Phase) (r : Ref) :
    Related Q (w.follow phase r) (w'.follow phase r) := by
  unfold follow
  rw [htracked]
  split
  · cases phase <;> exact .track _
  · exact .pure ()

theorem dueOf_congr (v : Visit) (q : Request) (gone : Bool) (h : Heap) :
    w.dueOf v q gone h = w'.dueOf v q gone h := by
  rw [dueOf, dueOf, htracked]

theorem makeChange_related (v : Visit) (q : Request) (gone : Bool) :
    Related Q (w.makeChange v q gone) (w'.makeChange v q gone) := by
  intro s t h
  rw [makeChange_run, makeChange_run, h.heap, dueOf_congr htracked]
  split
  · exact .ok ⟨rfl, h.tracker, by rw [h.warnings], h.user⟩
  · exact .error ⟨rfl, h.tracker, h.warnings, h.user⟩

theorem makeEnter_related (v : Visit) (q : Request) :
    Related Q (w.makeEnter v q) (w'.makeEnter v q) := by
  rw [makeEnter_eq, makeEnter_eq]
  exact .bind (makeChange_related htracked v q _) fun _ => .pure _

theorem makeLeave_related (v : Visit) (entered : Entered) (q : Request) :
    Related Q (w.makeLeave v entered q) (w'.makeLeave v entered q) := by
  rw [makeLeave_eq, makeLeave_eq]
  exact .bind (makeChange_related htracked v q _) fun _ => .pure _

end

section

variable {f : Ref → Heap.Slot → WalkM σ Datum} {g : Ref → Heap.Slot → WalkM τ Datum}
  (hfg : ∀ r slot, Related Q (f r slot) (g r slot))

include hfg

theorem visitItems_related (parent : Ref) (key : Key) (list : Ref) (steps i : Nat) :
    Related Q (visitItems f parent key list steps i) (visitItems g parent key list steps i) := by
  induction steps generalizing i with
  | zero => exact .throw _
  | succ steps ih =>
    refine .bind (.look _) fun item => ?_
    split
    · exact .pure ()
    · exact .bind (hfg _ _) fun _ => ih _
    · exact ih _

theorem visitField_related (parent : Ref) (steps : Nat) (key : Key) (d : Datum) :
    Related Q (visitField f parent steps key d) (visitField g parent steps key d) := by
  cases d with
  | scalar s => exact .pure ()
  | ref r =>
    refine .bind (.look _) fun item => ?_
    split
    · exact visitItems_related hfg _ _ _ _ _
    · exact .bind (hfg _ _) fun _ => .pure ()
    · exact .pure ()

theorem forPresent_related (parent : Ref) (steps : Nat) (keys : List Key) :
    Related Q
      (Fields.forPresent (fun key => look fun h => (h.fields? parent).bind (Fields.get? · key))
        (visitField f parent steps) keys)
      (Fields.forPresent (fun key => look fun h => (h.fields? parent).bind (Fields.get? · key))
        (visitField g parent steps) keys) := by
  induction keys with
  | nil => exact .pure ()
  | cons key rest ih =>
    refine .bind (.look _) fun d? => ?_
    split
    · exact .bind (visitField_related hfg _ _ _ _) fun _ => ih
    · exact ih

theorem visitFields_related (steps : Nat) (d : Datum) :
    Related Q (visitFields f steps d) (visitFields g steps d) := by
  refine .get_bind fun s t h => ?_
  rw [h.heap]
  exact .bind (.ofExcept _) fun parent => .bind (.look _) fun keys =>
    forPresent_related hfg _ _ _

theorem visitBelow_related (steps : Nat) (entered : Entered) :
    Related Q (visitBelow f steps entered) (visitBelow g steps entered) := by
  unfold visitBelow
  split
  · exact visitFields_related hfg _ _
  · exact .pure ()

end

/-- Visits that come to nodes alike and go away from them alike end alike. -/
theorem visitBy_related {A : Ref → Heap.Slot → WalkM σ Entered}
    {A' : Ref → Heap.Slot → WalkM τ Entered} {D : Ref → Heap.Slot → Entered → WalkM σ Datum}
    {D' : Ref → Heap.Slot → Entered → WalkM τ Datum}
    (hA : ∀ r slot, Related Q (A r slot) (A' r slot))
    (hD : ∀ r slot entered, Related Q (D r slot entered) (D' r slot entered)) (steps : Nat) (r : Ref)
    (slot : Heap.Slot) : Related Q (visitBy A D steps r slot) (visitBy A' D' steps r slot) := by
  induction steps generalizing r slot with
  | zero => exact .throw _
  | succ steps ih =>
    exact .bind (hA _ _) fun entered => .bind (visitBelow_related ih _ _) fun _ => hD _ _ _

include htracked hcall

theorem visit_related (root : Datum) (steps : Nat) (r : Ref) (slot : Heap.Slot) :
    Related Q (w.visit root steps r slot) (w'.visit root steps r slot) := by
  rw [visit_eq_visitBy, visit_eq_visitBy]
  refine visitBy_related (fun r slot => ?_) (fun r slot entered => ?_) steps r slot
  · exact .bind (follow_related htracked _ _) fun _ => .bind (hcall _ _) fun q =>
      makeEnter_related htracked _ _
  · exact .bind (follow_related htracked _ _) fun _ => .bind (hcall _ _) fun q =>
      makeLeave_related htracked _ _ _

/-- Walks whose callbacks act alike end alike. -/
theorem walk_related (steps : Nat) (root : Datum) :
    Related Q (w.walk steps root) (w'.walk steps root) := by
  refine .bind (.look _) fun isNode => ?_
  split
  · exact visit_related htracked hcall _ _ _ _
  · exact .pure _

end Walker

end Arbor
