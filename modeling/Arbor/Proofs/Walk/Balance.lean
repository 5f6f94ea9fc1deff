import Arbor.Proofs.Walk.Changes
import Arbor.Proofs.Walk.Notices
import Arbor.Proofs.Walk.Observing
import Arbor.Proofs.Walk.Refinement

set_option autoImplicit false

/-! # Balance

A tracker opens scopes when a node is reached and closes them when it is left, and at both moments it
only looks at the node itself, while what is visited in between may be the children of a replacement or
nothing at all. Still it closes what it has opened, for the type of a node never changes. So a walk comes
back to the scope in which it started, and every node is left in the scope in which it was reached
(`walk_balanced`). This holds on any heap, however it is shared, and for every walk, also if it stops on
the way. -/

namespace Arbor

open Scope (Further Tracker opened closed)

variable {σ : Type}

/-! ## Callbacks -/

/-- A callback that leaves the tracker as it is. -/
def Callback.KeepsTracker (c : Callback σ) : Prop :=
  ∀ v s q s', c v s = .ok q s' → s'.tracker = s.tracker

/-- A walk whose callbacks leave the tracker as it is. -/
def Walker.KeepsTracker (w : Walker σ) : Prop :=
  ∀ phase c, w.callback? phase = some c → c.KeepsTracker

theorem Walker.KeepsTracker.call {w : Walker σ} (hw : w.KeepsTracker) (phase : Phase) :
    (w.call phase).KeepsTracker := by
  refine Walker.call_of ?_ (hw phase)
  intro v s q s' h
  obtain ⟨_, rfl⟩ := Actions.pure_eq_ok.1 h
  rfl

/-! ## Balanced notes -/

/-- What is told in the course of a walk from the tracker `start` on, with the tracker as it is told each
    time, is balanced. `stack` are the nodes that have been reached and not left, the innermost first,
    each with the tracker with which it was reached; the last tracker is the one by now. When a node is
    shown on leaving, the same scopes are open as when it was reached, but for those that may have been
    closed in the innermost one, and one is in the same scope. -/
inductive Balanced (start : Tracker) : List (Ref × Tracker) → Tracker → List (Notice σ) → Prop
  | start : Balanced start [] start []
  | reach {stack : List (Ref × Tracker)} {s : World σ} {notes : List (Notice σ)} {t : Tracker}
      {r : Ref} (h : Balanced start stack s.tracker notes) :
      Balanced start ((r, s.tracker) :: stack) t (notes ++ [.followed .enter r s])
  | enter {stack : List (Ref × Tracker)} {t : Tracker} {e : Turn σ} {notes : List (Notice σ)}
      (hphase : e.phase = .enter)
      (h : Balanced start ((e.visit.node, t) :: stack) e.before.tracker notes) :
      Balanced start ((e.visit.node, t) :: stack) e.before.tracker (notes ++ [.shown e])
  | depart {stack : List (Ref × Tracker)} {s : World σ} {notes : List (Notice σ)} {t t' : Tracker}
      {r : Ref} (h : Balanced start ((r, t) :: stack) s.tracker notes) :
      Balanced start ((r, t) :: stack) t' (notes ++ [.followed .leave r s])
  | leave {stack : List (Ref × Tracker)} {t : Tracker} {e : Turn σ} {notes : List (Notice σ)}
      (hphase : e.phase = .leave) (hcounters : Further t.counters e.before.tracker.counters)
      (hkey : e.before.tracker.key = t.key)
      (h : Balanced start ((e.visit.node, t) :: stack) e.before.tracker notes) :
      Balanced start stack e.before.tracker (notes ++ [.shown e])

/-- A tracker that has followed a walk into a node and follows it out again has closed what it opened,
    if the node opens as many scopes as before. -/
theorem Walker.follow_further {w : Walker σ} {r : Ref} {s s₁ s₂ s₃ : World σ} {u u' : Unit}
    (henter : w.follow .enter r s = .ok u s₁) (hleave : w.follow .leave r s₂ = .ok u' s₃)
    (h : Further s₁.tracker.counters s₂.tracker.counters)
    (hopens : s₂.heap.opens r = s.heap.opens r) :
    Further s.tracker.counters s₃.tracker.counters := by
  cases ht : w.tracked with
  | false =>
    simp only [follow, ht] at henter hleave
    obtain ⟨-, rfl⟩ := Actions.pure_eq_ok.1 henter
    obtain ⟨-, rfl⟩ := Actions.pure_eq_ok.1 hleave
    exact h
  | true =>
    rw [follow_tracked ht] at henter hleave
    obtain ⟨t₁, hrun₁, rfl⟩ := WalkM.track_eq_ok.1 henter
    obtain ⟨t₃, hrun₃, rfl⟩ := WalkM.track_eq_ok.1 hleave
    have hopened : t₁.counters = opened (s.heap.opens r) s.tracker.counters :=
      Scope.Call.run_counters hrun₁
    have hclosed : t₃.counters = closed (s₂.heap.opens r) s₂.tracker.counters :=
      Scope.Call.run_counters hrun₃
    rw [hopened] at h
    rw [hclosed, hopens]
    exact h.closed

/-- Where a walk is: the nodes that have been reached and not left, the tracker with which the visits of
    the nodes here have begun, and the heap at that time. -/
structure Station where
  stack : List (Ref × Tracker)
  tracker : Tracker
  heap : Heap

/-- What has been told so far is balanced, and the types of nodes have been kept. -/
def balancePace (start : Tracker) :
    Pace (σ × List (Notice σ)) (σ × List (Notice σ)) Station where
  Rel i s t := s = t ∧ Balanced start i.stack s.tracker s.user.2 ∧
    Further i.tracker.counters s.tracker.counters ∧ i.heap.KeepsTypes s.heap
  Stopped s _ := ∃ stack t, Balanced start stack t s.user.2
  Opens _ _ := True
  Known _ _ := True
  Good _ := True
  stopped h := ⟨_, _, h.2.1⟩
  cell h _ := by rw [h.1]
  links _ _ _ := trivial

namespace Walker

variable {w : Walker σ} (hw : w.OnlyAsks) (hk : w.KeepsTracker)

include hw hk

/-- A call and the changes that it asks for keep the types of nodes, and the tracker. -/
theorem change_keeps {phase : Phase} {v : Visit} {q : Request} {gone : Bool} {h : Heap}
    {s₁ s₂ s₃ : World σ} (hkeeps : h.KeepsTypes s₁.heap) (hslot : v.slot.SparesTypes h)
    (hcall : w.call phase v s₁ = .ok q s₂) (hleaves : Leaves s₂ s₃ (q.edit v.slot gone s₂.heap)) :
    h.KeepsTypes s₃.heap ∧ s₃.tracker = s₁.tracker := by
  constructor
  · have hgrows : s₁.heap.Grows s₂.heap := hw.call phase _ _ _ _ hcall
    rw [hleaves.heap]
    exact (hkeeps.trans hgrows.keepsTypes).edit hslot q gone
  · rw [hleaves.tracker]
    exact hk.call phase _ _ _ _ hcall

/-- A node is left in the scope in which it was reached. -/
theorem departs_balanced {start : Tracker} {i : Station} {root : Datum} {r : Ref} {slot : Heap.Slot}
    {entered : Entered} {s s₁ s₃ : World σ} {s₄ : World (σ × List (Notice σ))} {u : Unit}
    (hslot : slot.SparesTypes i.heap) (hr : s.heap.isNode (.ref r) = true)
    (hfollow : w.follow .enter r s = .ok u s₁) (hi : Further i.tracker.counters s.tracker.counters)
    (hkeeps : i.heap.KeepsTypes s.heap) (htypes : s.heap.KeepsTypes s₃.heap)
    (htracker : s₃.tracker = s₁.tracker)
    (hrel : (balancePace start).Rel ⟨(r, s.tracker) :: i.stack, s₃.tracker, s₃.heap⟩ s₄ s₄) :
    (balancePace start).Ends i s₄ (w.departNoting root r slot entered s₄)
      (w.departNoting root r slot entered s₄) := by
  obtain ⟨-, hbal, hfurther, hsince⟩ := hrel
  have hdepart {t : Tracker} : Balanced start ((r, s.tracker) :: i.stack) t
      (s₄.user.2 ++ [.followed .leave r s₄.plain]) := .depart hbal
  have hends := w.passNoting_ends .leave ⟨r, slot, root⟩ (w.makeLeave ⟨r, slot, root⟩ entered) s₄
  rw [show w.passNoting .leave ⟨r, slot, root⟩ (w.makeLeave ⟨r, slot, root⟩ entered) s₄ =
    w.departNoting root r slot entered s₄ from rfl] at hends
  generalize w.departNoting root r slot entered s₄ = result at hends ⊢
  have hopens : s₄.heap.opens r = s.heap.opens r := (htypes.trans hsince).opens hr
  have hleft {s₅ : World σ} (h : w.follow .leave r s₄.plain = .ok () s₅) :
      Further s.tracker.counters s₅.tracker.counters :=
    follow_further hfollow h (htracker ▸ hfurther) hopens
  have hleave {s₅ : World σ} {result : EStateM.Result Stop (World σ) Request}
      (h : w.follow .leave r s₄.plain = .ok () s₅) :
      Balanced start i.stack s₅.tracker (s₄.user.2 ++
        [.followed .leave r s₄.plain, .shown ⟨.leave, ⟨r, slot, root⟩, s₅, result⟩]) := by
    have hshown := Balanced.leave (e := ⟨.leave, ⟨r, slot, root⟩, s₅, result⟩) rfl (hleft h)
      (hleft h).key hdepart
    rwa [List.append_assoc] at hshown
  cases hends with
  | lost _ => exact .error ⟨_, default, hdepart⟩
  | stopped hfollow' _ => exact .error ⟨_, _, hleave hfollow'⟩
  | failed hfollow' _ _ => exact .error ⟨_, _, hleave hfollow'⟩
  | @passed s₅ _ s₇ _ _ hfollow' hcall hmake =>
    have hkeeps' : i.heap.KeepsTypes s₅.heap := by
      rw [(follow_eq_ok hfollow').1]
      exact (hkeeps.trans htypes).trans hsince
    obtain ⟨htypes', htracker'⟩ := change_keeps hw hk hkeeps' hslot hcall (makeLeave_leaves hmake).1
    refine .ok ⟨rfl, ?_, ?_, htypes'⟩ fun _ _ => trivial
    · show Balanced start i.stack s₇.tracker _
      rw [htracker']
      exact hleave hfollow'
    · show Further _ s₇.tracker.counters
      rw [htracker']
      exact hi.trans (hleft hfollow')

/-- At a node the notes stay balanced. -/
theorem balance_atNodes (start : Tracker) (root : Datum) :
    (balancePace start).AtNodes (w.arriveNoting root) (w.arriveNoting root)
      (w.departNoting root) (w.departNoting root) where
  minds_arrive _ _ := fun _ _ => trivial
  minds_depart _ _ _ := fun _ _ => trivial
  arrives := by
    rintro i r slot s _ hhung ⟨rfl, hbal, hfurther, hkeeps⟩ -
    have hreach {t : Tracker} := Balanced.reach (t := t) (r := r) (s := s.plain) hbal
    have hends := w.passNoting_ends .enter ⟨r, slot, root⟩ (w.makeEnter ⟨r, slot, root⟩) s
    rw [show w.passNoting .enter ⟨r, slot, root⟩ (w.makeEnter ⟨r, slot, root⟩) s =
      w.arriveNoting root r slot s from rfl] at hends
    generalize w.arriveNoting root r slot s = result at hends ⊢
    have henter {s₁ : World σ} {result : EStateM.Result Stop (World σ) Request} :
        Balanced start ((r, s.tracker) :: i.stack) s₁.tracker (s.user.2 ++
          [.followed .enter r s.plain, .shown ⟨.enter, ⟨r, slot, root⟩, s₁, result⟩]) := by
      have hshown := Balanced.enter (e := ⟨.enter, ⟨r, slot, root⟩, s₁, result⟩) rfl hreach
      rwa [List.append_assoc] at hshown
    cases hends with
    | lost _ => exact .inr ⟨_, _, _, rfl, rfl, _, default, hreach⟩
    | stopped _ _ => exact .inr ⟨_, _, _, rfl, rfl, _, _, henter⟩
    | failed _ _ _ => exact .inr ⟨_, _, _, rfl, rfl, _, _, henter⟩
    | @passed s₁ s₂ s₃ q entered hfollow hcall hmake =>
      have hheap : s.heap.KeepsTypes s₁.heap := by
        rw [(follow_eq_ok hfollow).1]
        exact .refl _
      obtain ⟨htypes, htracker⟩ := change_keeps hw hk hheap ((Heap.KeepsTypes.refl _).sparesTypes
        hhung.held) hcall (makeEnter_leaves hmake).1
      refine .inl ⟨⟨(r, s.tracker) :: i.stack, s₃.tracker, s₃.heap⟩, entered, _, _, rfl, rfl, ?_⟩
      refine ⟨⟨rfl, ?_, .refl _, .refl _⟩, fun _ _ => trivial,
        fun _ _ _ => trivial, fun _ _ => trivial, ?_⟩
      · show Balanced start _ s₃.tracker _
        rw [htracker]
        exact henter
      · rintro s₄ _ hrel - -
        obtain rfl := hrel.1
        exact departs_balanced hw hk (hkeeps.sparesTypes hhung.held) hhung.node hfollow hfurther hkeeps htypes htracker hrel

end Walker

/-- What is told in the course of a walk is balanced: every node is left in the scope in which it was
    reached. A walk that comes to an end has left all nodes, and the same scopes are open as before, but
    for those that may have been closed in the innermost one; one is in the same scope. -/
theorem walk_balanced {w : Walker σ} (hw : w.OnlyAsks) (hk : w.KeepsTracker) {steps : Nat}
    {root : Datum} {s : World σ} :
    ∃ stack t, Balanced s.tracker stack t (w.notices steps root s) ∧
      ∀ d s', w.walk steps root s = .ok d s' → stack = [] ∧ s'.tracker = t ∧
        Further s.tracker.counters s'.tracker.counters ∧ s'.tracker.key = s.tracker.key := by
  let i : Station := ⟨[], s.tracker, s.heap⟩
  have hstart : (balancePace s.tracker).Rel i (s.noting []) (s.noting []) :=
    ⟨rfl, .start, .refl _, .refl _⟩
  have hends : (balancePace s.tracker).Ends i (s.noting []) (w.walkNoting steps root (s.noting []))
      (w.walkNoting steps root (s.noting [])) :=
    Pace.walkNoting_ends (Walker.balance_atNodes hw hk s.tracker) hstart (fun _ _ => trivial)
      trivial trivial
  cases hrun : w.walk steps root s with
  | ok d s' =>
    rw [Walker.walkNoting_eq_ok hrun] at hends
    cases hends with
    | ok h _ =>
      obtain ⟨-, hbal, hfurther, -⟩ := h
      refine ⟨[], s'.tracker, hbal, ?_⟩
      rintro _ _ ⟨⟩
      exact ⟨rfl, rfl, hfurther, hfurther.key⟩
  | error e s' =>
    unfold Walker.notices
    generalize w.walkNoting steps root (s.noting []) = result at hends ⊢
    cases hends with
    | ok h _ =>
      refine ⟨_, _, h.2.1, ?_⟩
      rintro _ _ ⟨⟩
    | error h =>
      obtain ⟨stack, t, h⟩ := h
      refine ⟨stack, t, h, ?_⟩
      rintro _ _ ⟨⟩

namespace Sample

/-- A program with a block and a function in it, and nodes that are not part of it. -/
def changing (t : Tracker) : World Unit where
  heap := ⟨#[.record [(.text "type", .text "Program"), (.text "body", .ref 1)],
    .list [.ref 2, .ref 3], leaf "BlockStatement", leaf "FunctionExpression", leaf "A",
    leaf "BlockStatement"]⟩
  tracker := t
  warnings := []
  user := ()

/-- Removes the block on entering and puts another one in its place on leaving; replaces the function
    by a node that opens no scope. -/
def opener : Walker Unit where
  enter? := some fun v => pure <|
    if v.node = 2 then Request.empty.remove
    else if v.node = 3 then Request.empty.replace (.ref 4)
    else .empty
  leave? := some fun v => pure <|
    if v.node = 2 then Request.empty.replace (.ref 5) else .empty
  tracked := true

theorem opener_keeps {phase : Phase} {c : Callback Unit} (hc : opener.callback? phase = some c)
    {v : Visit} {s s' : World Unit} {q : Request} (h : c v s = .ok q s') : s = s' := by
  cases phase <;> cases hc <;> exact (Actions.pure_eq_ok.1 h).2

theorem opener_onlyAsks : opener.OnlyAsks := by
  intro phase c hc v s q s' h
  rw [← opener_keeps hc h]
  exact .refl _

theorem opener_keepsTracker : opener.KeepsTracker := by
  intro phase c hc v s q s' h
  rw [← opener_keeps hc h]

theorem walk_balanced_scopes :
    ∃ stack t, Balanced (.fresh false) stack t (opener.notices 9 (.ref 0) (changing (.fresh false))) ∧
      ∀ d s', opener.walk 9 (.ref 0) (changing (.fresh false)) = .ok d s' →
        stack = [] ∧ s'.tracker = t ∧ Further [] s'.tracker.counters ∧
          s'.tracker.key = (Tracker.fresh false).key :=
  walk_balanced opener_onlyAsks opener_keepsTracker (s := changing (.fresh false))

end Sample

end Arbor
