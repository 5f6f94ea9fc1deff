import Arbor.Proofs.Scope.Environments
import Arbor.Proofs.Scope.Names
import Arbor.Proofs.Walk.Route

set_option autoImplicit false

/-! # Along a route

What a walk does along its route: if its callbacks answer, it comes to an end
(`walk_returns`); the nodes are shown as the route tells, and the tracker makes the tour that belongs to
it (`walk_log`). Which nodes are skipped is up to the callbacks. -/

namespace Arbor

open Actions

open Scope (Call Tracker)

variable {σ : Type}

/-! ## Routes through a tree -/

namespace Route

/-- All nodes of a route lie in the tree `t`, and hang where the route has them: the first ones below
    `parent?`, the others below the node they are reached from. -/
def Within (t : Layout) (parent? : Option Ref) : Route → Prop
  | nil => True
  | node r fields slot below rest =>
    (Layout.record r fields ∈ t.parts ∧ (Layout.record r fields).isNode = true ∧
      slot.parent? = parent?) ∧ below.Within t (some r) ∧ rest.Within t parent?

theorem Within.append {t : Layout} {parent? : Option Ref} {f g : Route} (hf : f.Within t parent?)
    (hg : g.Within t parent?) : (f ++ g).Within t parent? := by
  induction f with
  | nil => exact hg
  | node r fields slot below rest _ ih => exact ⟨hf.1, hf.2.1, ih hf.2.2⟩

end Route

/-- The route that a tree tells lies in it. -/
theorem Layout.route_within (t : Layout) (slot : Heap.Slot) :
    (t.route slot).Within t slot.parent? := by
  refine (routes_of_parts (t := t) (P := fun p? f => f.Within t p?) (fun _ => trivial)
    (fun _ _ _ hf hg => hf.append hg) (fun r fields slot hpart hn hbelow => ?_) (mem_parts_self t)).1 slot
  exact ⟨⟨hpart, hn, rfl⟩, hbelow, trivial⟩

/-! ## Walks that come to an end -/

/-- A callback that answers whenever the heap holds the tree `t`. -/
def Callback.Answers (c : Callback σ) (t : Layout) : Prop :=
  ∀ v s, s.heap.Holds t → ∃ q s', c v s = .ok q s'

/-- A walk whose callbacks answer whenever the heap holds the tree `t`. -/
def Walker.Answers (w : Walker σ) (t : Layout) : Prop :=
  ∀ phase c, w.callback? phase = some c → c.Answers t

theorem Walker.Answers.call {w : Walker σ} {t : Layout} (ha : w.Answers t) (phase : Phase) :
    (w.call phase).Answers t :=
  Walker.call_of (fun _ s _ => ⟨_, s, rfl⟩) (ha phase)

/-- A tracker follows a walk past every node of a tree that the heap holds, unless a list in the tree cannot
    be gone through. -/
theorem Heap.Holds.call_run_or {h : Heap} {t : Layout} (ht : h.Holds t) {r : Ref}
    {fields : List (Key × Layout)} (hpart : Layout.record r fields ∈ t.parts)
    (hn : (Layout.record r fields).isNode = true) (phase : Phase) (T : Tracker) :
    (∃ T', Call.run ⟨phase, h, r⟩ T = .ok () T') ∨
      (phase = .enter ∧ ∃ T', Call.run ⟨phase, h, r⟩ T = .error .notIterable T') ∧ ¬ t.Iterable := by
  obtain ⟨type, htype⟩ := Option.isSome_iff_exists.1 hn
  have hnode : h.nodeType? (.ref r) = some type := (ht.of_part hpart).nodeType?.trans htype
  cases phase with
  | enter =>
    have henter : Call.run ⟨.enter, h, r⟩ T = Tracker.applyAll (Scope.Effect.ofNode h r) T :=
      congrFun (Scope.enter_of_type hnode) T
    rw [henter]
    rcases (Scope.ofNode_failsBy (ht.failsBy hpart rfl)).applyAll T with hrun | ⟨f, T', hrun, rfl, hiter⟩
    · exact .inl hrun
    · exact .inr ⟨⟨rfl, T', hrun⟩, hiter⟩
  | leave => exact .inl ⟨_, Scope.leave_of_type hnode T⟩

theorem Heap.Holds.call_run {h : Heap} {t : Layout} (hiter : t.Iterable) (ht : h.Holds t) {r : Ref}
    {fields : List (Key × Layout)} (hpart : Layout.record r fields ∈ t.parts)
    (hn : (Layout.record r fields).isNode = true) (phase : Phase) (T : Tracker) :
    ∃ T', Call.run ⟨phase, h, r⟩ T = .ok () T' :=
  (ht.call_run_or hpart hn phase T).resolve_right fun hstop => hstop.2 hiter

/-- An action comes to an end and leaves the tree `t` as it is, or a tracker stops it since a list in the
    tree cannot be gone through. -/
def WalkM.Concludes {α : Type} (t : Layout) (x : WalkM σ α) (s : World σ) : Prop :=
  (∃ a s', x s = .ok a s' ∧ s'.heap.Holds t) ∨
    (∃ s', x s = .error (.fault .notIterable) s') ∧ ¬ t.Iterable

theorem WalkM.Concludes.pure {α : Type} {t : Layout} {s : World σ} (a : α) (hs : s.heap.Holds t) :
    Concludes t (Pure.pure a) s := .inl ⟨a, s, rfl, hs⟩

theorem WalkM.Concludes.bind {α β : Type} {t : Layout} {s : World σ} {x : WalkM σ α} {f : α → WalkM σ β}
    (hx : Concludes t x s) (hf : ∀ a s', s'.heap.Holds t → Concludes t (f a) s') :
    Concludes t (x >>= f) s := by
  rcases hx with ⟨a, s₁, hrun, hs₁⟩ | ⟨⟨s₁, hrun⟩, hiter⟩
  · unfold Concludes
    rw [bind_of_eq_ok hrun]
    exact hf a s₁ hs₁
  · refine .inr ⟨⟨s₁, ?_⟩, hiter⟩
    simp only [Bind.bind, EStateM.bind, hrun]

section

open WalkM

variable {t : Layout}

theorem Walker.follow_concludes (w : Walker σ) {s : World σ} (hs : s.heap.Holds t) {r : Ref}
    {fields : List (Key × Layout)} (hpart : Layout.record r fields ∈ t.parts)
    (hn : (Layout.record r fields).isNode = true) (phase : Phase) : Concludes t (w.follow phase r) s := by
  by_cases htracked : w.tracked = true
  · rw [Walker.follow_tracked htracked]
    rcases hs.call_run_or hpart hn phase s.tracker with ⟨T', hrun⟩ | ⟨⟨-, T', hrun⟩, hiter⟩
    · exact .inl ⟨(), _, WalkM.track_eq_ok.2 ⟨T', hrun, rfl⟩, hs⟩
    · refine .inr ⟨⟨{ s with tracker := T' }, ?_⟩, hiter⟩
      simp only [WalkM.track, EStateM.run]
      rw [show Call.run ⟨phase, s.heap, r⟩ s.tracker = _ from hrun]
  · have hfollow : w.follow phase r = pure () := by simp [Walker.follow, htracked]
    rw [hfollow]
    exact .pure () hs

variable {w : Walker σ} (hw : w.Observes t) (ha : w.Answers t)

include hw ha

theorem Walker.call_concludes {s : World σ} (hs : s.heap.Holds t) (phase : Phase) (v : Visit) :
    Concludes t (w.call phase v) s := by
  obtain ⟨q, s', hcall⟩ := ha.call phase v s hs
  exact .inl ⟨q, s', hcall, (hw.call phase _ _ _ _ hcall hs).2.1⟩

/-- If the callbacks answer, a route is gone along to its end, unless a tracker stops. -/
theorem Route.run_concludes (root : Datum) {f : Route} {parent? : Option Ref} (hf : f.Within t parent?)
    {s : World σ} (hs : s.heap.Holds t) : Concludes t (f.run w root) s := by
  induction f generalizing parent? s with
  | nil => exact .pure () hs
  | node r fields slot below rest ihBelow ihRest =>
    obtain ⟨⟨hpart, hn, -⟩, hbelow, hrest⟩ := hf
    rw [Route.run]
    refine (w.follow_concludes hs hpart hn .enter).bind fun _ s₁ hs₁ => ?_
    refine (Walker.call_concludes hw ha hs₁ .enter _).bind fun q s₂ hs₂ => ?_
    have hinner : Concludes t (q.unlessSkipped (below.run w root)) s₂ := by
      unfold Request.unlessSkipped
      split
      · exact .pure () hs₂
      · exact ihBelow hbelow hs₂
    refine hinner.bind fun _ s₃ hs₃ => ?_
    refine (w.follow_concludes hs₃ hpart hn .leave).bind fun _ s₄ hs₄ => ?_
    refine (Walker.call_concludes hw ha hs₄ .leave _).bind fun _ s₅ hs₅ => ?_
    exact ihRest hrest hs₅

/-- A walk comes to an end if its callbacks answer, and leaves the tree as it is, unless a tracker stops it
    since a list in the tree cannot be gone through. -/
theorem walk_concludes (hkeys : ∀ e ∈ t.cells, e.2.KeysOnce) (hn : t.isNode = true) {s : World σ}
    (hs : s.heap.Holds t) {steps : Nat} (hsteps : t.steps ≤ steps) :
    (∃ s', w.walk steps t.datum s = .ok t.datum s' ∧ s'.heap.Holds t) ∨
      (∃ s', w.walk steps t.datum s = .error (.fault .notIterable) s') ∧ ¬ t.Iterable := by
  rw [(walk_along_route hw hkeys hn hs hsteps).1]
  rcases Route.run_concludes hw ha t.datum (t.route_within .root) hs with
    ⟨_, s', hrun, hs'⟩ | ⟨⟨s', hrun⟩, hiter⟩
  · exact .inl ⟨s', bind_eq_ok.2 ⟨(), s', hrun, rfl⟩, hs'⟩
  · refine .inr ⟨⟨s', ?_⟩, hiter⟩
    simp only [Bind.bind, EStateM.bind, hrun]

/-- A walk of a tree whose lists can be gone through comes to an end if its callbacks answer, and leaves the
    tree as it is. -/
theorem walk_returns (hiter : t.Iterable) (hkeys : ∀ e ∈ t.cells, e.2.KeysOnce) (hn : t.isNode = true)
    {s : World σ} (hs : s.heap.Holds t) {steps : Nat} (hsteps : t.steps ≤ steps) :
    ∃ s', w.walk steps t.datum s = .ok t.datum s' ∧ s'.heap.Holds t :=
  (walk_concludes hw ha hkeys hn hs hsteps).resolve_right fun hstop => hstop.2 hiter

end

/-! ## What is noted down along a route -/

/-- In all calls on entering that a log holds the children were skipped as `skips` tells. -/
def SkipsAs (skips : Visit → Bool) (log : List Showing) : Prop :=
  ∀ e ∈ log, e.phase = .enter → e.request.skipped = skips e.visit

theorem skipsAs_append {skips : Visit → Bool} {log log' : List Showing} :
    SkipsAs skips (log ++ log') ↔ SkipsAs skips log ∧ SkipsAs skips log' := List.forall_mem_append

/-- A callback of a walk has answered as a call tells, where the heap held the tree `t`. -/
def Walker.Gives (w : Walker σ) (t : Layout) (e : Showing) : Prop :=
  ∃ s s', s.heap.Holds t ∧ w.call e.phase e.visit s = .ok e.request s'

/-- Without a callback on entering nothing is skipped. -/
theorem skipsAs_of_gives {w : Walker σ} {t : Layout} {log : List Showing} (hw : w.enter? = none)
    (h : ∀ e ∈ log, w.Gives t e) : SkipsAs (fun _ => false) log := by
  intro e he hphase
  obtain ⟨s, s', -, hcall⟩ := h e he
  rw [hphase, Walker.call, Walker.callback?, hw] at hcall
  obtain ⟨hempty, -⟩ := pure_eq_ok.1 hcall
  rw [← hempty]
  rfl

namespace Route

/-- The calls on a route, if the nodes are skipped as `skips` tells. -/
def events (skips : Visit → Bool) (root : Datum) : Route → List Event
  | nil => []
  | node r _ slot below rest =>
    ⟨.enter, ⟨r, slot, root⟩⟩ ::
      ((if skips ⟨r, slot, root⟩ then [] else below.events skips root) ++
        ⟨.leave, ⟨r, slot, root⟩⟩ :: rest.events skips root)

/-- The nodes that are visited on a route, if they are skipped as `skips` tells. -/
def forest (skips : Visit → Bool) (root : Datum) : Route → Forest
  | nil => .nil
  | node r fields slot below rest =>
    .node r fields (skips ⟨r, slot, root⟩)
      (if skips ⟨r, slot, root⟩ then .nil else below.forest skips root) (rest.forest skips root)

theorem forest_append (skips : Visit → Bool) (root : Datum) (f g : Route) :
    (f ++ g).forest skips root = f.forest skips root ++ g.forest skips root := by
  induction f with
  | nil => rfl
  | node r fields slot below rest _ ih =>
    rw [node_append, forest, ih, forest, Forest.node_append]

/-- All that is passed on a route lies in the tree that the route lies in. -/
theorem Within.passages {t : Layout} {parent? : Option Ref} {f : Route} (hf : f.Within t parent?)
    (skips : Visit → Bool) (root : Datum) :
    ∀ p ∈ (f.forest skips root).passages, p.layout ∈ t.parts ∧ p.layout.isNode = true := by
  induction f generalizing parent? with
  | nil => exact fun _ hp => absurd hp List.not_mem_nil
  | node r fields slot below rest ihBelow ihRest =>
    obtain ⟨⟨hpart, hn, -⟩, hbelow, hrest⟩ := hf
    intro p hp
    rw [forest, Forest.passages_node] at hp
    simp only [List.mem_cons, List.mem_append] at hp
    rcases hp with rfl | hp | rfl | hp
    · exact ⟨hpart, hn⟩
    · split at hp
      · cases hp
      · exact ihBelow hbelow p hp
    · exact ⟨hpart, hn⟩
    · exact ihRest hrest p hp

end Route

/-- From one state to another a walk has passed a node, and the call `e` has been noted down. -/
structure Passed (w : Walker σ) (t : Layout) (phase : Phase) (v : Visit)
    (s s' : World (σ × List Showing)) (e : Showing) : Prop where
  event : e.event = ⟨phase, v⟩
  gives : w.Gives t e
  noted : s'.user.2 = s.user.2 ++ [e]
  run : Call.run ⟨phase, s.heap, v.node⟩ s.tracker = .ok () e.tracker
  tracker : s'.tracker = e.tracker
  heap : e.heap.Holds t
  holds : s'.heap.Holds t

/-- From one state to another the calls of a log have been noted down. If the nodes are skipped as `skips`
    tells, they are the calls `events skips`, and the tracker makes the tour of `forest skips`. -/
structure Recorded (w : Walker σ) (t : Layout) (s s' : World (σ × List Showing))
    (events : (Visit → Bool) → List Event) (forest : (Visit → Bool) → Forest) (log : List Showing) :
    Prop where
  noted : s'.user.2 = s.user.2 ++ log
  holds : s'.heap.Holds t
  gives : ∀ e ∈ log, w.Gives t e
  shown : ∀ skips, SkipsAs skips log →
    log.map Showing.event = events skips ∧ Follows s.tracker (forest skips).passages log s'.tracker

section

variable {w : Walker σ} {t : Layout} {s s₁ s₂ s₃ s' : World (σ × List Showing)}
  {events events' : (Visit → Bool) → List Event} {forest forest' : (Visit → Bool) → Forest}

theorem Recorded.nil (hs : s.heap.Holds t) : Recorded w t s s (fun _ => []) (fun _ => .nil) [] :=
  ⟨(List.append_nil _).symm, hs, by simp, fun _ _ => ⟨rfl, .nil⟩⟩

/-- Where the children are skipped nothing is noted down for them. -/
theorem Recorded.unlessSkipped {q : Request} {x : WalkM (σ × List Showing) Unit} (hs : s.heap.Holds t)
    (hx : x s = .ok () s' → ∃ log, Recorded w t s s' events forest log)
    (hrun : q.unlessSkipped x s = .ok () s') :
    ∃ log, Recorded w t s s' (fun skips => if q.skipped then [] else events skips)
      (fun skips => if q.skipped then .nil else forest skips) log := by
  unfold Request.unlessSkipped at hrun
  cases hq : q.skipped with
  | true =>
    rw [hq] at hrun
    obtain ⟨-, rfl⟩ := pure_eq_ok.1 hrun
    exact ⟨[], .nil hs⟩
  | false =>
    rw [hq] at hrun
    exact hx hrun

/-- What is noted down for a node, for what is below it and for what comes after it. -/
theorem Recorded.node {v : Visit} {fields : List (Key × Layout)}
    (hpart : Layout.record v.node fields ∈ t.parts) {e e' : Showing} {log log' : List Showing}
    (hs : s.heap.Holds t) (he : Passed w t .enter v s s₁ e)
    (hbelow : Recorded w t s₁ s₂ (fun skips => if e.request.skipped then [] else events skips)
      (fun skips => if e.request.skipped then .nil else forest skips) log)
    (he' : Passed w t .leave v s₂ s₃ e') (hrest : Recorded w t s₃ s' events' forest' log') :
    Recorded w t s s'
      (fun skips => ⟨.enter, v⟩ :: ((if skips v then [] else events skips) ++
        ⟨.leave, v⟩ :: events' skips))
      (fun skips => .node v.node fields (skips v) (if skips v then .nil else forest skips)
        (forest' skips))
      (e :: (log ++ e' :: log')) := by
  refine ⟨?_, hrest.holds, ?_, fun skips hskips => ?_⟩
  · rw [hrest.noted, he'.noted, hbelow.noted, he.noted]
    simp
  · rw [List.forall_mem_cons, List.forall_mem_append, List.forall_mem_cons]
    exact ⟨he.gives, hbelow.gives, he'.gives, hrest.gives⟩
  · obtain ⟨hskip, hskips⟩ := List.forall_mem_cons.1 hskips
    obtain ⟨hskips, hskips'⟩ := skipsAs_append.1 hskips
    have hvisit : e.visit = v := congrArg Event.visit he.event
    have hv : skips v = e.request.skipped := by
      rw [hskip (congrArg Event.phase he.event), hvisit]
    obtain ⟨hevents, hfollows⟩ := hbelow.shown skips hskips
    obtain ⟨hevents', hfollows'⟩ := hrest.shown skips (List.forall_mem_cons.1 hskips').2
    rw [← hv] at hevents hfollows
    rw [he.tracker] at hfollows
    rw [he'.tracker] at hfollows'
    constructor
    · rw [List.map_cons, List.map_append, List.map_cons, hevents, hevents', he.event, he'.event]
    · have held {h : Heap} (hs : h.Holds t) : h.Holds (.record v.node fields) := hs.of_part hpart
      refine .cons (held hs) he.run (congrArg Event.phase he.event) (congrArg Visit.node hvisit)
        (held he.heap) (fun _ => hv.symm) (hfollows.append ?_)
      exact .cons (held hbelow.holds) he'.run (congrArg Event.phase he'.event)
        (congrArg (fun a => a.visit.node) he'.event) (held he'.heap) (fun h => by cases h) hfollows'

end

section

variable {w : Walker σ} {t : Layout} (hw : w.Observes t)

include hw

theorem Walker.Observes.recorded : w.recorded.Observes t := by
  intro phase c hc v s q s' h hs
  have hcall : w.recorded.call phase v s = .ok q s' := by
    rw [Walker.call, hc]
    exact h
  exact hw.call phase v _ q _ (Walker.recorded_call_eq_ok hcall).1 hs

variable (htracked : w.tracked = true)

include htracked

theorem Walker.passed {s s₁ s' : World (σ × List Showing)} (hs : s.heap.Holds t) {phase : Phase}
    {v : Visit} {q : Request} (hfollow : w.recorded.follow phase v.node s = .ok () s₁)
    (hcall : w.recorded.call phase v s₁ = .ok q s') :
    ∃ e, Passed w t phase v s s' e ∧ e.request = q := by
  rw [Walker.follow_tracked (w := w.recorded) htracked, WalkM.track_eq_ok] at hfollow
  obtain ⟨T, hrun, rfl⟩ := hfollow
  obtain ⟨hanswer, hlog⟩ := Walker.recorded_call_eq_ok hcall
  obtain ⟨hq, hs', htracker⟩ := hw.call phase _ _ _ _ hanswer hs
  exact ⟨_, ⟨rfl, ⟨_, _, hs, hanswer⟩, hlog, hrun, htracker, hs', hs'⟩, rfl⟩

/-- The nodes of a route are shown in its order, and the tracker makes the tour of those that are
    visited. -/
theorem Route.run_recorded (root : Datum) {f : Route} {parent? : Option Ref}
    (hf : f.Within t parent?) {s s' : World (σ × List Showing)} (hs : s.heap.Holds t)
    (hrun : f.run w.recorded root s = .ok () s') :
    ∃ log, Recorded w t s s' (f.events · root) (f.forest · root) log := by
  induction f generalizing parent? s s' with
  | nil =>
    obtain ⟨-, rfl⟩ := pure_eq_ok.1 hrun
    exact ⟨[], .nil hs⟩
  | node r fields slot below rest ihBelow ihRest =>
    obtain ⟨⟨hpart, hn, -⟩, hbelow, hrest⟩ := hf
    obtain ⟨s₁, q, s₂, s₃, s₄, q', s₅, ⟨henter, hcall⟩, hinner, ⟨hleave, hcall'⟩, hend⟩ :=
      Route.run_node_eq_ok hrun
    obtain ⟨e, he, rfl⟩ := Walker.passed hw htracked hs (v := ⟨r, slot, root⟩) henter hcall
    obtain ⟨log, hlog⟩ := Recorded.unlessSkipped he.holds (ihBelow hbelow he.holds) hinner
    obtain ⟨e', he', -⟩ := Walker.passed hw htracked hlog.holds (v := ⟨r, slot, root⟩) hleave hcall'
    obtain ⟨log', hlog'⟩ := ihRest hrest he'.holds hend
    exact ⟨_, .node hpart hs he hlog he' hlog'⟩

end

/-- A walk that observes a tree and comes to its end returns the tree. With what is noted down it has gone along
    the route of the tree. -/
theorem walk_recorded_route {w : Walker σ} {t : Layout} (hw : w.Observes t) (hkeys : ∀ e ∈ t.cells, e.2.KeysOnce)
    (hn : t.isNode = true) {s s' : World σ} {d : Datum} (hs : s.heap.Holds t) {steps : Nat}
    (hsteps : t.steps ≤ steps) (hrun : w.walk steps t.datum s = .ok d s') :
    d = t.datum ∧ (t.route .root).run w.recorded t.datum (s.withUser (s.user, [])) =
      .ok () (s'.withUser (s'.user, w.log steps t.datum s)) := by
  have hrecorded := Walker.walk_recorded hrun
  have hs₀ : (s.withUser (s.user, ([] : List Showing))).heap.Holds t := hs
  rw [(walk_along_route hw.recorded hkeys hn hs₀ hsteps).1] at hrecorded
  obtain ⟨_, s₁, hroute, hend⟩ := bind_eq_ok.1 hrecorded
  obtain ⟨rfl, rfl⟩ := pure_eq_ok.1 hend
  exact ⟨rfl, hroute⟩

/-- What is noted down in a walk that observes a tree and comes to its end: all calls were answered, and
    if the nodes are skipped as `skips` tells, they are shown in the order of the route, and the tracker
    makes the tour of those that are visited. -/
theorem walk_log {w : Walker σ} {t : Layout} (hw : w.Observes t) (htracked : w.tracked = true)
    (hkeys : ∀ e ∈ t.cells, e.2.KeysOnce) (hn : t.isNode = true) {s s' : World σ} {d : Datum}
    (hs : s.heap.Holds t) {steps : Nat} (hsteps : t.steps ≤ steps)
    (hrun : w.walk steps t.datum s = .ok d s') :
    d = t.datum ∧ s'.heap.Holds t ∧ (∀ e ∈ w.log steps t.datum s, w.Gives t e) ∧
      ∀ skips, SkipsAs skips (w.log steps t.datum s) →
        (w.log steps t.datum s).map Showing.event = (t.route .root).events skips t.datum ∧
          Follows s.tracker ((t.route .root).forest skips t.datum).passages
            (w.log steps t.datum s) s'.tracker := by
  obtain ⟨rfl, hroute⟩ := walk_recorded_route hw hkeys hn hs hsteps hrun
  generalize w.log steps t.datum s = log at hroute ⊢
  have hs₀ : (s.withUser (s.user, ([] : List Showing))).heap.Holds t := hs
  obtain ⟨log', hlog'⟩ := Route.run_recorded hw htracked t.datum (t.route_within .root) hs₀ hroute
  obtain rfl : log = log' := by simpa [World.withUser] using hlog'.noted
  exact ⟨rfl, hlog'.holds, hlog'.gives, hlog'.shown⟩

end Arbor
