import Arbor.Proofs.Scope.Counters
import Arbor.Proofs.Walk.Recording
import Arbor.Proofs.Walk.Tour

set_option autoImplicit false

/-! # Walks that only observe

Callbacks that change neither the tree nor the tracker leave a walk to make a tour of the tree
(`walk_tours`). This holds for every walk, also if it stops on the way: then it has come as far as some
passage of a tour. -/

namespace Arbor

open Scope (Call Tracker)

variable {σ : Type}

/-! ## Callbacks -/

/-- Nothing is asked for but that children may be skipped. -/
structure Request.Idle (q : Request) : Prop where
  removed : q.removed = false
  replacement : q.replacement = .null

theorem Request.Idle.effective? {q : Request} (hq : q.Idle) : q.effective? = none := by
  simp [Request.effective?, hq.removed, hq.replacement, Datum.isNull]

/-- A callback that changes nothing of the tree `t` and of the tracker, and asks for no change. It may
    skip children, change whatever else is on the heap and keep what it likes. -/
def Callback.Observes (c : Callback σ) (t : Layout) : Prop :=
  ∀ v s q s', c v s = .ok q s' → s.heap.Holds t →
    q.Idle ∧ s'.heap.Holds t ∧ s'.tracker = s.tracker

/-- A walk whose callbacks only observe the tree `t`. -/
def Walker.Observes (w : Walker σ) (t : Layout) : Prop :=
  ∀ phase c, w.callback? phase = some c → c.Observes t

theorem Walker.Observes.call {w : Walker σ} {t : Layout} (hw : w.Observes t) (phase : Phase) :
    (w.call phase).Observes t := by
  refine Walker.call_of ?_ (hw phase)
  intro v s q s' h hs
  obtain ⟨rfl, rfl⟩ := Actions.pure_eq_ok.1 h
  exact ⟨⟨rfl, rfl⟩, hs, rfl⟩

/-! ## Passages -/

/-- A tracker has followed a walk through passages, one call after another, and the callbacks were
    called at each of them. -/
inductive Follows : Tracker → List Passage → List Showing → Tracker → Prop
  | nil {T : Tracker} : Follows T [] [] T
  | cons {T T' : Tracker} {p : Passage} {ps : List Passage} {e : Showing} {log : List Showing}
      {h : Heap} (hh : h.Holds p.layout) (hrun : Call.run ⟨p.phase, h, p.node⟩ T = .ok () e.tracker)
      (hphase : e.phase = p.phase) (hnode : e.visit.node = p.node) (hheap : e.heap.Holds p.layout)
      (hskipped : p.phase = .enter → e.request.skipped = p.skipped)
      (hrest : Follows e.tracker ps log T') : Follows T (p :: ps) (e :: log) T'

theorem Follows.append {T T₁ T₂ : Tracker} {ps ps' : List Passage} {log log' : List Showing}
    (h : Follows T ps log T₁) (h' : Follows T₁ ps' log' T₂) :
    Follows T (ps ++ ps') (log ++ log') T₂ := by
  induction h with
  | nil => exact h'
  | cons hh hrun hphase hnode hheap hskipped _ ih =>
    exact .cons hh hrun hphase hnode hheap hskipped (ih h')

/-- From a state that holds `t` an action follows passages that, with what it returns, fit the relation
    `S`, and leaves `t` as it is. If it stops it has followed the first of such passages. -/
def WalkM.Tours {α : Type} (t : Layout) (S : α → List Passage → Prop)
    (x : WalkM (σ × List Showing) α) (s : World (σ × List Showing)) : Prop :=
  match x s with
  | .ok a s' => ∃ ps log, S a ps ∧ s'.user.2 = s.user.2 ++ log ∧
      Follows s.tracker ps log s'.tracker ∧ s'.heap.Holds t
  | .error _ s' => ∃ a ps rest log T, S a (ps ++ rest) ∧ s'.user.2 = s.user.2 ++ log ∧
      Follows s.tracker ps log T

namespace WalkM.Tours

variable {α β : Type} {t : Layout} {s : World (σ × List Showing)}

theorem pure {S : α → List Passage → Prop} {a : α} (hs : s.heap.Holds t) (h : S a []) :
    Tours t S (pure a) s :=
  ⟨[], [], h, (List.append_nil _).symm, .nil, hs⟩

theorem throw {S : α → List Passage → Prop} {a : α} {ps : List Passage} (e : Stop) (h : S a ps) :
    Tours t S (throw e) s :=
  ⟨a, [], ps, [], s.tracker, h, (List.append_nil _).symm, .nil⟩

theorem congr {S : α → List Passage → Prop} {x y : WalkM (σ × List Showing) α} (hxy : x s = y s)
    (hy : Tours t S y s) : Tours t S x s := by
  unfold Tours at hy ⊢
  rwa [hxy]

theorem mono {S S' : α → List Passage → Prop} {x : WalkM (σ × List Showing) α}
    (hx : Tours t S x s) (hS : ∀ a ps, S a ps → S' a ps) : Tours t S' x s := by
  unfold Tours at hx ⊢
  split at hx
  · obtain ⟨ps, log, hp, h⟩ := hx
    exact ⟨ps, log, hS _ _ hp, h⟩
  · obtain ⟨a, ps, rest, log, T, hp, h⟩ := hx
    exact ⟨a, ps, rest, log, T, hS _ _ hp, h⟩

theorem bind {S : α → List Passage → Prop} {R : α → β → List Passage → Prop}
    {S' : β → List Passage → Prop} {x : WalkM (σ × List Showing) α}
    {f : α → WalkM (σ × List Showing) β} (hx : Tours t S x s)
    (hf : ∀ a s' ps, S a ps → s'.heap.Holds t → Tours t (R a) (f a) s')
    (htotal : ∀ a ps, S a ps → ∃ b ps', R a b ps')
    (hS : ∀ a b ps ps', S a ps → R a b ps' → S' b (ps ++ ps')) :
    Tours t S' (x >>= f) s := by
  unfold Tours at hx ⊢
  simp only [Bind.bind, EStateM.bind]
  cases hrun : x s with
  | error e s₁ =>
    -- the first action stops: some way for the second one to go on completes the tour
    rw [hrun] at hx
    obtain ⟨a, ps, rest, log, T, hp, hlog, hfollows⟩ := hx
    obtain ⟨b, ps', hp'⟩ := htotal a _ hp
    refine ⟨b, ps, rest ++ ps', log, T, ?_, hlog, hfollows⟩
    rw [← List.append_assoc]
    exact hS a b _ _ hp hp'
  | ok a s₁ =>
    rw [hrun] at hx
    obtain ⟨ps, log, hp, hlog, hfollows, hs₁⟩ := hx
    have hfa := hf a s₁ ps hp hs₁
    unfold Tours at hfa
    dsimp only
    cases hrun' : f a s₁ with
    | error e s₂ =>
      rw [hrun'] at hfa
      obtain ⟨b, ps', rest, log', T, hp', hlog', hfollows'⟩ := hfa
      refine ⟨b, ps ++ ps', rest, log ++ log', T, ?_, ?_, hfollows.append hfollows'⟩
      · rw [List.append_assoc]
        exact hS a b _ _ hp hp'
      · rw [hlog', hlog, List.append_assoc]
    | ok b s₂ =>
      rw [hrun'] at hfa
      obtain ⟨ps', log', hp', hlog', hfollows', hs₂⟩ := hfa
      refine ⟨ps ++ ps', log ++ log', hS a b _ _ hp hp', ?_, hfollows.append hfollows', hs₂⟩
      rw [hlog', hlog, List.append_assoc]

end WalkM.Tours

/-! ## The parts of a walk -/

namespace Walker

open WalkM

theorem follow_tracked {w : Walker σ} (htracked : w.tracked = true) (phase : Phase) (r : Ref) :
    w.follow phase r = WalkM.track fun h => Call.run ⟨phase, h, r⟩ := by
  cases phase <;> simp [follow, htracked] <;> rfl

/-- If nothing is asked for, nothing is done. -/
theorem makeEnter_idle {w : Walker σ} {v : Visit} {q : Request} (hq : q.Idle) :
    w.makeEnter v q = pure ⟨.ref v.node, q.skipped⟩ := by
  simp [makeEnter, makeReplacement, makeRemoval, hq.effective?, hq.removed]

theorem makeLeave_idle {w : Walker σ} {v : Visit} {entered : Entered} {q : Request} (hq : q.Idle) :
    w.makeLeave v entered q = pure entered.current := by
  simp [makeLeave, makeReplacement, makeRemoval, hq.effective?, hq.removed]

section

variable {w : Walker σ} {t : Layout} (hw : w.Observes t) (htracked : w.tracked = true)
  {s : World (σ × List Showing)} (hs : s.heap.Holds t)

include hw htracked hs

/-- The tracker follows the walk past a node, and the node is shown. -/
theorem pass_tours (phase : Phase) (v : Visit) {fields : List (Key × Layout)}
    (hsub : (Layout.record v.node fields).cells ⊆ t.cells) (skipped : Request → Bool)
    (hskipped : phase = .enter → ∀ q, q.skipped = skipped q) :
    Tours t (fun q ps => q.Idle ∧ ps = [⟨phase, v.node, fields, skipped q⟩])
      (w.recorded.follow phase v.node >>= fun _ => w.recorded.call phase v) s := by
  rw [follow_tracked (w := w.recorded) htracked]
  unfold Tours
  simp only [Bind.bind, EStateM.bind, WalkM.track]
  cases hrun : (Call.run ⟨phase, s.heap, v.node⟩).run s.tracker with
  | error e T =>
    -- the walk stops before the node has been passed, as it does if the callback stops
    exact ⟨.empty, [], _, [], s.tracker, ⟨⟨rfl, rfl⟩, rfl⟩, (List.append_nil _).symm, .nil⟩
  | ok u T =>
    dsimp only
    rw [recorded_call, Callback.recorded]
    cases hcall : w.call phase v (World.withUser { s with tracker := T } s.user.1) with
    | error e s' =>
      exact ⟨.empty, [], _, [], s.tracker, ⟨⟨rfl, rfl⟩, rfl⟩, (List.append_nil _).symm, .nil⟩
    | ok q s' =>
      obtain ⟨hq, hs', ht⟩ := hw.call phase _ _ _ _ hcall hs
      refine ⟨[⟨phase, v.node, fields, skipped q⟩], _, ⟨hq, rfl⟩, rfl, ?_, hs'⟩
      have hT : s'.tracker = T := ht
      show Follows s.tracker _ _ s'.tracker
      rw [hT]
      exact .cons (hs.part hsub) hrun rfl rfl (hs'.part hsub) (fun hp => hskipped hp q) .nil

end

/-- Visits by `f` of nodes of the tree `t` are tours of them, and nothing takes their places. -/
def VisitTours (t : Layout) (f : Ref → Heap.Slot → WalkM (σ × List Showing) Datum) : Prop :=
  ∀ r fields slot s, (Layout.record r fields).isNode = true →
    (Layout.record r fields).cells ⊆ t.cells → s.heap.Holds t →
    Tours t (fun d ps => d = .ref r ∧ Passes (Seen (.record r fields)) ps) (f r slot) s

section

variable {t : Layout} {f : Ref → Heap.Slot → WalkM (σ × List Showing) Datum} (hf : VisitTours t f)
  {s : World (σ × List Showing)} (hs : s.heap.Holds t)

include hf hs

theorem visitItems_tours (pre : List Layout) {parent list : Ref} {key : Key} {rest : List Layout}
    (hsub : (Layout.list list (pre ++ rest)).cells ⊆ t.cells) (steps : Nat) :
    Tours t (fun _ => Passes (SeenInItems rest)) (visitItems f parent key list steps pre.length) s := by
  induction rest generalizing pre steps s with
  | nil =>
    cases steps with
    | zero => exact .throw (a := ()) _ ⟨_, .nil, rfl⟩
    | succ steps =>
      have hlist := ((Heap.holds_list_iff _ _ _).1 (hs.part hsub)).1
      refine .congr (visitItems_end ((Heap.items?_eq_some _).2 hlist) (by simp)) ?_
      exact .pure hs ⟨_, .nil, rfl⟩
  | cons u rest ih =>
    cases steps with
    | zero => exact .throw (a := ()) _ (passes_seenInItems _).choose_spec
    | succ steps =>
      obtain ⟨hlist, hitems⟩ := (Heap.holds_list_iff _ _ _).1 (hs.part hsub)
      have hi := (Heap.items?_eq_some _).2 hlist
      have hat : ((pre ++ u :: rest).map Layout.datum)[pre.length]? = some u.datum := by simp
      have hmem : u ∈ pre ++ u :: rest := by simp
      have hu := hitems u hmem
      have hrest {s : World (σ × List Showing)} (hs : s.heap.Holds t) :
          Tours t (fun _ => Passes (SeenInItems rest))
            (visitItems f parent key list steps (pre.length + 1)) s := by
        have hlength : (pre ++ [u]).length = pre.length + 1 := by simp
        rw [← hlength]
        exact ih hs _ (by rwa [List.append_assoc]) steps
      by_cases hn : u.isNode = true
      · cases u with
        | record r fields =>
          have hvisit := hf r fields ⟨some parent, key, some pre.length⟩ s hn
            (List.Subset.trans (Layout.cells_item hmem).subset hsub) hs
          refine .congr (visitItems_node hi hat (hu.isNode.trans hn)) ?_
          refine hvisit.bind (R := fun _ _ => Passes (SeenInItems rest)) ?_ ?_ ?_
          · -- the node still stands in its place, so the position goes on by one
            rintro _ s' ps ⟨rfl, -⟩ hs'
            exact hrest hs'
          · intro _ _ _
            exact ⟨(), passes_seenInItems rest⟩
          · intro _ _ ps ps' h h'
            exact h.2.append h' fun _ _ => .cons
        | scalar _ => cases hn
        | list _ _ => cases hn
      · rw [Bool.not_eq_true] at hn
        refine .congr (visitItems_data hi hat (hu.isNode.trans hn)) ?_
        refine (hrest hs).mono ?_
        intro _ ps h
        have hdata : Passes (Seen u) [] := ⟨_, .data hn, rfl⟩
        exact hdata.append h fun _ _ => .cons

theorem visitField_tours (parent : Ref) (key : Key) {u : Layout} (hsub : u.cells ⊆ t.cells)
    (steps : Nat) :
    Tours t (fun _ => Passes (SeenInField u)) (visitField f parent steps key u.datum) s := by
  have hu := hs.part hsub
  cases u with
  | scalar c => exact .pure hs ⟨_, .other (by simp) (.data rfl), rfl⟩
  | list r items =>
    refine .congr (visitField_list ((Heap.holds_list_iff _ _ _).1 hu).1) ?_
    refine (visitItems_tours hf hs [] hsub steps).mono ?_
    rintro _ _ ⟨g, hg, rfl⟩
    exact ⟨g, .list hg, rfl⟩
  | record r fields =>
    have hc := ((Heap.holds_record_iff _ _ _).1 hu).1
    rcases hn : (Layout.record r fields).isNode with _ | _
    · refine .congr (visitField_data hc (hu.isNode.trans hn)) ?_
      exact .pure hs ⟨_, .other (by simp) (.data hn), rfl⟩
    · have hvisit := hf r fields ⟨some parent, key, none⟩ s hn hsub hs
      refine .congr (visitField_node hc (hu.isNode.trans hn)) ?_
      refine hvisit.bind (R := fun _ _ ps => ps = []) ?_ ?_ ?_
      · intro _ s' _ _ hs'
        exact .pure hs' rfl
      · intro _ _ _
        exact ⟨(), [], rfl⟩
      · rintro _ _ ps _ ⟨-, g, hg, rfl⟩ rfl
        exact ⟨g, .other (by simp) hg, (List.append_nil _).symm⟩

/-- The fields are visited in turn, each with what it has held from the start. -/
theorem forPresent_tours (pre : List (Key × Layout)) {parent : Ref} {rest : List (Key × Layout)}
    (hsub : (Layout.record parent (pre ++ rest)).cells ⊆ t.cells)
    (hkeys : (Fields.keys (pre ++ rest)).Nodup) (steps : Nat) :
    Tours t (fun _ => Passes (SeenInFields rest))
      (Fields.forPresent (fun key => look fun h => (h.fields? parent).bind (Fields.get? · key))
        (visitField f parent steps) (Fields.keys rest)) s := by
  induction rest generalizing pre s with
  | nil => exact .pure hs ⟨_, .nil, rfl⟩
  | cons field rest ih =>
    obtain ⟨key, u⟩ := field
    have hfields := (hs.part hsub).fields?
    have hmem : (key, u) ∈ pre ++ (key, u) :: rest := by simp
    have hg : (s.heap.fields? parent).bind (Fields.get? · key) = some u.datum := by
      rw [hfields, Option.bind_some, Layout.get?_data, Fields.get?_of_mem hkeys hmem, Option.map_some]
    refine .congr (forPresent_cons hg) ?_
    have hfield := visitField_tours hf hs parent key
      (List.Subset.trans (Layout.cells_field hmem).subset hsub) steps
    refine hfield.bind (R := fun _ _ => Passes (SeenInFields rest)) ?_ ?_ ?_
    · intro _ s' _ _ hs'
      refine ih hs' (pre ++ [(key, u)]) ?_ ?_
      · rwa [List.append_assoc]
      · rwa [List.append_assoc]
    · intro _ _ _
      exact ⟨(), passes_seenInFields rest⟩
    · intro _ _ ps ps' h h'
      exact h.append h' fun _ _ => .cons

/-- Below a node nothing is visited if it is skipped, and what is in its fields if it is not. -/
theorem visitBelow_tours {r : Ref} {fields : List (Key × Layout)} {skipped : Bool}
    (hsub : (Layout.record r fields).cells ⊆ t.cells) (hkeys : (Fields.keys fields).Nodup)
    (steps : Nat) :
    Tours t (fun _ => Passes (SeenBelow skipped fields)) (visitBelow f steps ⟨.ref r, skipped⟩) s := by
  cases skipped with
  | true =>
    rw [visitBelow_skipped]
    exact .pure hs ⟨_, rfl, rfl⟩
  | false =>
    rw [visitBelow_ref]
    have hfields := (hs.part hsub).fields?
    refine .congr (visitFields_eq hfields) ?_
    rw [Layout.keys_data]
    exact forPresent_tours hf hs [] hsub hkeys steps

end

/-- What a walk still has to pass when it has entered a node, and what it returns. -/
def Remaining (r : Ref) (fields : List (Key × Layout)) (skipped : Bool) (d : Datum)
    (ps : List Passage) : Prop :=
  d = .ref r ∧ ∃ below, SeenBelow skipped fields below ∧
    below.passages ++ [⟨.leave, r, fields, skipped⟩] = ps

section

variable {w : Walker σ} {t : Layout} (hw : w.Observes t) (htracked : w.tracked = true)
  (hkeys : ∀ e ∈ t.cells, e.2.KeysOnce)

include hw htracked hkeys

theorem remaining_tours {f : Ref → Heap.Slot → WalkM (σ × List Showing) Datum} (hf : VisitTours t f)
    {v : Visit} {fields : List (Key × Layout)} {skipped : Bool} {s : World (σ × List Showing)}
    (hsub : (Layout.record v.node fields).cells ⊆ t.cells) (hs : s.heap.Holds t) (steps : Nat) :
    Tours t (Remaining v.node fields skipped)
      (visitBelow f steps ⟨.ref v.node, skipped⟩ >>= fun _ =>
        (w.recorded.follow .leave v.node >>= fun _ => w.recorded.call .leave v) >>=
          w.recorded.makeLeave v ⟨.ref v.node, skipped⟩) s := by
  have hnodup : (Fields.keys fields).Nodup := by
    have hcell := hkeys (v.node, .record (Layout.data fields)) (hsub (by simp [Layout.cells]))
    rwa [Cell.KeysOnce, Layout.keys_data] at hcell
  refine (visitBelow_tours hf hs hsub hnodup steps).bind
    (R := fun _ d ps => d = .ref v.node ∧ ps = [⟨.leave, v.node, fields, skipped⟩]) ?_
    (fun _ _ _ => ⟨_, _, rfl, rfl⟩) ?_
  · intro _ s' _ _ hs'
    have hleave := pass_tours hw htracked hs' .leave v hsub (fun _ => skipped) (by simp)
    refine hleave.bind (R := fun _ d ps => d = .ref v.node ∧ ps = []) ?_
      (fun _ _ _ => ⟨_, _, rfl, rfl⟩) ?_
    · rintro q s' _ ⟨hq, -⟩ hs'
      rw [makeLeave_idle hq]
      exact .pure hs' ⟨rfl, rfl⟩
    · rintro q d _ _ ⟨-, rfl⟩ ⟨rfl, rfl⟩
      exact ⟨rfl, rfl⟩
  · rintro _ d _ _ ⟨below, hbelow, rfl⟩ ⟨rfl, rfl⟩
    exact ⟨rfl, below, hbelow, rfl⟩

/-- The visit of a node is a tour of it: past the node, below it unless it is skipped, and past it
    again. -/
theorem visit_tours (root : Datum) (steps : Nat) : VisitTours t (w.recorded.visit root steps) := by
  induction steps with
  | zero =>
    intro r fields slot s _ _ _
    obtain ⟨ps, hps⟩ := passes_seen (.record r fields)
    exact .throw _ ⟨rfl, hps⟩
  | succ steps ih =>
    intro r fields slot s hn hsub hs
    let v : Visit := ⟨r, slot, root⟩
    have hgroup : w.recorded.visit root (steps + 1) r slot =
        (w.recorded.follow .enter v.node >>= fun _ => w.recorded.call .enter v) >>= fun q =>
          w.recorded.makeEnter v q >>= fun entered =>
          visitBelow (w.recorded.visit root steps) steps entered >>= fun _ =>
          (w.recorded.follow .leave v.node >>= fun _ => w.recorded.call .leave v) >>=
          w.recorded.makeLeave v entered := by
      simp only [visit_eq, bind_assoc, v]
    have henter := pass_tours hw htracked hs .enter v hsub Request.skipped fun _ _ => rfl
    rw [hgroup]
    -- the request made on entering tells whether anything is visited below the node
    refine henter.bind (R := fun q => Remaining r fields q.skipped) ?_ ?_ ?_
    · rintro q s' _ ⟨hq, -⟩ hs'
      rw [makeEnter_idle hq, pure_bind]
      exact remaining_tours hw htracked hkeys ih (v := v) hsub hs' steps
    · intro q _ _
      obtain ⟨_, below, hbelow, rfl⟩ := passes_seenBelow q.skipped fields
      exact ⟨_, _, rfl, below, hbelow, rfl⟩
    · rintro q d _ _ ⟨-, rfl⟩ ⟨rfl, below, hbelow, rfl⟩
      exact ⟨rfl, .node r fields q.skipped below .nil, hbelow.seen hn, rfl⟩

end

end Walker

/-! ## Whole walks -/

/-- A walk that observes a tree follows a tour of it, until it stops or to the end. -/
theorem walk_tours {w : Walker σ} {t : Layout} (hw : w.Observes t) (htracked : w.tracked = true)
    (hkeys : ∀ e ∈ t.cells, e.2.KeysOnce) (hn : t.isNode = true) {s : World σ} (hs : s.heap.Holds t)
    (steps : Nat) :
    ∃ f ps rest T, Seen t f ∧ f.passages = ps ++ rest ∧
      Follows s.tracker ps (w.log steps t.datum s) T ∧
      ∀ d s', w.walk steps t.datum s = .ok d s' →
        rest = [] ∧ d = t.datum ∧ s'.tracker = T ∧ s'.heap.Holds t := by
  cases t with
  | scalar _ => cases hn
  | list _ _ => cases hn
  | record r fields =>
    have hs₀ : (s.withUser (s.user, ([] : List Showing))).heap.Holds (.record r fields) := hs
    have htours := Walker.visit_tours hw htracked hkeys (.ref r) steps r fields .root _ hn
      (List.Subset.refl _) hs₀
    rw [WalkM.Tours, ← Walker.walk_node (hs₀.isNode.trans hn)] at htours
    have hok {d : Datum} {s' : World σ} (h : w.walk steps (.ref r) s = .ok d s') :=
      Walker.walk_recorded h
    rw [Layout.datum_record]
    generalize hlog : w.log steps (.ref r) s = log at hok ⊢
    unfold Walker.log at hlog
    generalize w.recorded.walk steps (.ref r) (s.withUser (s.user, [])) = result
      at htours hok hlog
    cases result with
    | error e s' =>
      obtain ⟨_, ps, rest, log', T, ⟨-, f, hf, hps⟩, hlog', hfollows⟩ := htours
      cases hlog.symm.trans hlog'
      refine ⟨f, ps, rest, T, hf, hps, hfollows, fun d s' h => ?_⟩
      cases hok h
    | ok d s' =>
      obtain ⟨ps, log', ⟨rfl, f, hf, hps⟩, hlog', hfollows, hholds⟩ := htours
      cases hlog.symm.trans hlog'
      refine ⟨f, ps, [], s'.tracker, hf, by rw [hps, List.append_nil], hfollows, fun d s' h => ?_⟩
      cases hok h
      exact ⟨rfl, rfl, rfl, hholds⟩

end Arbor
