import Arbor.Proofs.Walk.Balance
import Mathlib.Algebra.Group.Int.Defs

set_option autoImplicit false

/-! # Walks with a tracker and without one

A walk does the same whether a tracker follows it or not, but for warnings (`walk_attached`). A warning
is due whenever a node that opens a scope is replaced or removed (`tellings`). It shows the positions of
the node, and this is the one thing that can stop a walk with a tracker: an integer of too many digits
has no text. -/

namespace Arbor

open Scope (Tracker)

variable {σ α : Type}

/-! ## What a callback does not look at -/

/-- The same state with another tracker and other warnings. -/
def World.tracking (s : World σ) (t : Tracker) (warnings : List Warning) : World σ :=
  { s with tracker := t, warnings := warnings }

/-- The same end with another tracker and other warnings. -/
def WalkM.tracking (t : Tracker) (warnings : List Warning) :
    EStateM.Result Stop (World σ) α → EStateM.Result Stop (World σ) α
  | .ok a s => .ok a (s.tracking t warnings)
  | .error e s => .error e (s.tracking t warnings)

/-- A callback that neither looks at the tracker and the warnings nor changes them. -/
def Callback.Blind (c : Callback σ) : Prop :=
  ∀ v s t warnings, c v (s.tracking t warnings) = WalkM.tracking t warnings (c v s)

/-- A walk whose callbacks neither look at the tracker and the warnings nor change them. -/
def Walker.Blind (w : Walker σ) : Prop := ∀ phase c, w.callback? phase = some c → c.Blind

theorem Walker.Blind.call {w : Walker σ} (hw : w.Blind) (phase : Phase) : (w.call phase).Blind :=
  Walker.call_of (fun _ _ _ _ => rfl) (hw phase)

theorem Callback.Blind.leaves {c : Callback σ} (hc : c.Blind) {v : Visit} {s s' : World σ}
    {q : Request} (h : c v s = .ok q s') : s'.tracker = s.tracker ∧ s'.warnings = s.warnings := by
  have hsame : c v s = WalkM.tracking s.tracker s.warnings (c v s) := hc v s s.tracker s.warnings
  rw [h] at hsame
  obtain ⟨-, hs⟩ := EStateM.Result.ok.inj hsame
  rw [hs]
  exact ⟨rfl, rfl⟩

/-- A call as far as a callback that does not look at the tracker is concerned. -/
def Turn.bare (e : Turn σ) : Turn σ :=
  ⟨e.phase, e.visit, e.before.tracking default [], WalkM.tracking default [] e.result⟩

/-- What a request asks to put in the place of a node is a record or list that a tracker can go
    through. -/
def Request.PutsTrackable (q : Request) (h : Heap) : Prop :=
  ∀ d, q.effective? = some d → ∃ r, d = .ref r ∧ h.Trackable r

/-- What a call asks to put in the place of a node is a record or list that a tracker can go through. -/
def Turn.PutsTrackable (e : Turn σ) : Prop :=
  match e.result with
  | .ok q s => q.PutsTrackable s.heap
  | .error _ _ => True

/-- Whether a call asks to put a node in the place of a node, in a heap through which a tracker can go. -/
def Turn.putsWhole (e : Turn σ) : Bool :=
  match e.result with
  | .ok q s => s.heap.Whole && q.effective?.all s.heap.isNode
  | .error _ _ => true

theorem Turn.putsTrackable_of_whole {e : Turn σ} (h : e.putsWhole = true) : e.PutsTrackable := by
  obtain ⟨_, _, _, ⟨q, s⟩ | _⟩ := e
  · simp only [putsWhole, Bool.and_eq_true, decide_eq_true_eq] at h
    intro d hd
    rw [hd] at h
    have hn : s.heap.isNode d = true := h.2
    cases d with
    | scalar _ => cases hn
    | ref r => exact ⟨r, rfl, h.1.trackable (Heap.lt_of_isNode hn)⟩
  · trivial

/-! ## What warnings are due -/

/-- A change to a node that opens a scope, in the heap as it is after the change. -/
structure Telling where
  change : Change
  heap : Heap
  node : Ref

namespace Telling

/-- The warning of a change. -/
def warning (m : Telling) : Except Fault Warning := do
  return {
    change := m.change
    type := (m.heap.nodeType? (.ref m.node)).getD ""
    start := ← (m.heap.read (m.heap.field m.node "start")).plain
    stop := ← (m.heap.read (m.heap.field m.node "end")).plain }

end Telling

/-- The warning that is due when a request is met at a node, which is gone or not. -/
def Request.telling? (q : Request) (v : Visit) (gone : Bool) (h : Heap) : Option Telling :=
  let h' := q.edit v.slot gone h
  (q.change? gone).bind fun change =>
    if 0 < h'.opens v.node then some ⟨change, h', v.node⟩ else none

/-- Of the nodes that have been entered and not left, the innermost first, whether they have been removed
    on entering; and the warnings that are due so far. -/
structure Tally where
  gone : List Bool
  told : List Telling

namespace Tally

/-- Whether the node is gone that is shown next. -/
def isGone (a : Tally) : Phase → Bool
  | .enter => false
  | .leave => a.gone.headD false

/-- Take a call into account that asks for `q` at a node. -/
def add (a : Tally) (e : Turn σ) : Tally :=
  match e.result with
  | .ok q s => {
      gone := match e.phase with
        | .enter => q.removed :: a.gone
        | .leave => a.gone.tail
      told := a.told ++ (q.telling? e.visit (a.isGone e.phase) s.heap).toList }
  | .error _ _ => a

/-- Take calls into account, one after the other. -/
def after (turns : List (Turn σ)) : Tally := turns.foldl add ⟨[], []⟩

theorem after_concat (turns : List (Turn σ)) (e : Turn σ) :
    after (turns ++ [e]) = (after turns).add e := by
  rw [after, List.foldl_append]
  rfl

theorem told_prefix_foldl (turns : List (Turn σ)) (a : Tally) :
    a.told <+: (turns.foldl add a).told := by
  induction turns generalizing a with
  | nil => exact List.prefix_rfl
  | cons e turns ih =>
    refine List.IsPrefix.trans ?_ (ih (a.add e))
    unfold add
    split
    · exact List.prefix_append _ _
    · exact List.prefix_rfl

theorem told_prefix_after {turns turns' : List (Turn σ)} (h : turns <+: turns') :
    (after turns).told <+: (after turns').told := by
  obtain ⟨rest, rfl⟩ := h
  rw [after, after, List.foldl_append]
  exact told_prefix_foldl rest _

end Tally

/-- The warnings that are due in the course of a walk: one for each replacement and each removal of a
    node that opens a scope. -/
def tellings (turns : List (Turn σ)) : List Telling := (Tally.after turns).told

/-! ## What a warning says -/

/-- A power of ten with as many zeros as a text may have digits is too long for one. -/
theorem Integer.written_overlong {k : Nat} (hk : Integer.maxDigits ≤ k) :
    Integer.written (10 ^ k) = .error .tooManyDigits := by
  have hpos : 0 < k := Nat.lt_of_lt_of_le (by decide) hk
  have hlength : k < (Nat.toDigits 10 ((10 : Int) ^ k).natAbs).length := by
    rw [Int.natAbs_pow, ← not_le, Nat.length_toDigits_le_iff (by decide) hpos]
    exact lt_irrefl _
  rw [Integer.written, if_pos (hk.trans_lt hlength)]

theorem Scalar.shown_yields (x : Scalar) : Yields (· = .tooManyDigits) (fun _ => True) x.shown := by
  cases x with
  | int n =>
    rw [Scalar.shown, Integer.written]
    split
    · exact rfl
    · exact trivial
  | _ => exact trivial

namespace Value

mutual

theorem shown_yields : ∀ v : Value, Yields (· = .tooManyDigits) (fun _ => True) v.shown
  | .scalar x => x.shown_yields
  | .list items => (shownItems_yields items).bind fun _ _ => trivial
  | .record fields => (shownFields_yields fields).bind fun _ _ => trivial

theorem shownItems_yields :
    ∀ items : List Value, Yields (· = .tooManyDigits) (fun _ => True) (shownItems items)
  | [] => trivial
  | v :: rest => (shown_yields v).bind fun _ _ => (shownItems_yields rest).bind fun _ _ => trivial

theorem shownFields_yields :
    ∀ fields : List (Key × Value), Yields (· = .tooManyDigits) (fun _ => True) (shownFields fields)
  | [] => trivial
  | (k, v) :: rest => k.shown_yields.bind fun _ _ => (shown_yields v).bind fun _ _ =>
      (shownFields_yields rest).bind fun _ _ => trivial

end

/-- Only a value that holds an integer of too many digits cannot be shown. -/
theorem plain_yields (v : Value) : Yields (· = .tooManyDigits) (fun _ => True) v.plain := by
  unfold plain
  split
  · exact trivial
  · exact v.shown_yields

end Value

theorem Telling.warning_yields (m : Telling) :
    Yields (· = .tooManyDigits) (fun _ => True) m.warning :=
  (Value.plain_yields _).bind fun _ _ => (Value.plain_yields _).bind fun _ _ => trivial

/-! ## One change -/

/-- The walk without a tracker. -/
def Walker.alone (w : Walker σ) : Walker σ := { w with tracked := false }

/-- The walk with a tracker. -/
def Walker.attached (w : Walker σ) : Walker σ := { w with tracked := true }

namespace Walker

open Actions

variable {w : Walker σ} {v : Visit} {q : Request} {gone : Bool} {s : World σ}

theorem makeChange_alone :
    w.alone.makeChange v q gone s = .ok () { s with heap := q.edit v.slot gone s.heap } := by
  unfold makeChange
  cases q.change? gone <;> rfl

/-- A warning is due if the node opens a scope. -/
theorem due_of_isNode {h : Heap} {node : Ref} {change : Change}
    (hn : h.isNode (.ref node) = true) :
    Warning.due h node change =
      if 0 < h.opens node then do return [← Telling.warning ⟨change, h, node⟩] else .ok [] := by
  obtain ⟨type, htype⟩ := Option.isSome_iff_exists.1 hn
  have hscope : Tracker.isScopeNode h (.ref node) = .ok (0 < h.opens node) := by
    rw [Tracker.isScopeNode, Scope.scopesOf_of_type htype]
    rfl
  unfold Warning.due
  rw [hscope]
  by_cases hopens : 0 < h.opens node
  · rw [if_pos hopens, decide_eq_true hopens, Telling.warning]
    cases (h.read (h.field node "start")).plain with
    | error f => rfl
    | ok start => cases (h.read (h.field node "end")).plain <;> rfl
  · rw [if_neg hopens, decide_eq_false hopens]
    rfl

theorem dueOf_attached {h : Heap} (hn : (q.edit v.slot gone h).isNode (.ref v.node) = true) :
    w.attached.dueOf v q gone (q.edit v.slot gone h) =
      (q.telling? v gone h).toList.mapM Telling.warning := by
  unfold dueOf Request.telling?
  cases q.change? gone with
  | none => rfl
  | some change =>
    rw [Option.bind_some]
    show Warning.due _ _ _ = _
    rw [due_of_isNode hn]
    split
    · simp
    · rfl

/-- A change is made with a tracker as it is without one, and the warning that is due is given. -/
theorem makeChange_attached {warnings : List Warning}
    (hn : (q.edit v.slot gone s.heap).isNode (.ref v.node) = true)
    (hm : (q.telling? v gone s.heap).toList.mapM Telling.warning = .ok warnings) :
    w.attached.makeChange v q gone s = .ok () { s with
      heap := q.edit v.slot gone s.heap
      warnings := s.warnings ++ warnings } := by
  rw [makeChange_run, dueOf_attached hn, hm]

/-- A warning that cannot be given stops a walk with a tracker, after the change. -/
theorem makeChange_attached_error {m : Telling} {f : Fault}
    (hn : (q.edit v.slot gone s.heap).isNode (.ref v.node) = true)
    (hm : q.telling? v gone s.heap = some m) (hf : m.warning = .error f) :
    w.attached.makeChange v q gone s =
      .error (.fault f) { s with heap := q.edit v.slot gone s.heap } := by
  rw [makeChange_run, dueOf_attached hn, hm, Option.toList_some, List.mapM_cons, hf]
  rfl

end Walker

/-! ## Side by side -/

/-- Where two walks are that go abreast: of the nodes that have been entered and not left, whether they
    have been removed on entering, and the heap with which the visits of the nodes here have begun. -/
structure Standing where
  gone : List Bool
  heap : Heap

/-- A walk without a tracker and one with a tracker do the same, and the second one gives the warnings
    that are due. -/
structure Alike (start : List Warning) (i : Standing) (s t : World (σ × List (Notice σ))) : Prop where
  plain : t.plain = s.plain.tracking t.tracker t.warnings
  turns : t.turns.map Turn.bare = s.turns.map Turn.bare
  quiet : s.warnings = start
  gone : (Tally.after s.turns).gone = i.gone
  warned : ∃ warnings, (tellings s.turns).mapM Telling.warning = .ok warnings ∧
    t.warnings = start ++ warnings
  types : i.heap.KeepsTypes s.heap

theorem Alike.heap {start : List Warning} {i : Standing} {s t : World (σ × List (Notice σ))}
    (h : Alike start i s t) : t.heap = s.heap :=
  congrArg (fun s : World σ => s.heap) h.plain

/-- What is asked of the calls: that nodes are put in the place of nodes, and that the warnings that are
    due can be given. -/
structure Tellable (turns : List (Turn σ)) : Prop where
  puts : ∀ e ∈ turns, e.PutsTrackable
  warns : ∀ m ∈ tellings turns, ∃ warning, m.warning = .ok warning

theorem Tellable.of_prefix {turns turns' : List (Turn σ)} (h : turns <+: turns')
    (ht : Tellable turns') : Tellable turns where
  puts e he := ht.puts e (h.subset he)
  warns m hm := ht.warns m ((Tally.told_prefix_after h).subset hm)

/-- The pace of a walk without a tracker and one with a tracker. -/
def attachedPace (start : List Warning) :
    Pace (σ × List (Notice σ)) (σ × List (Notice σ)) Standing where
  Rel := Alike start
  Stopped _ _ := True
  Opens _ _ := True
  Known s x := s.heap.Trackable x
  Good s := Tellable s.turns
  stopped _ := trivial
  cell h _ := by rw [h.heap]
  links _ hx hlink := hx.links hlink

theorem attachedPace_good (start : List Warning) (s s' : World (σ × List (Notice σ)))
    (h : s.user.2 <+: s'.user.2) (hgood : (attachedPace start).Good s') :
    (attachedPace start).Good s :=
  hgood.of_prefix (h.filterMap Notice.turn?)

theorem exists_warnings {msgs : List Telling} (h : ∀ m ∈ msgs, ∃ warning, m.warning = .ok warning) :
    ∃ warnings, msgs.mapM Telling.warning = .ok warnings := by
  have hyields : Yields (fun _ => False) (fun ws => ∀ w ∈ ws, True) (msgs.mapM Telling.warning) := by
    refine Yields.mapM fun m hm => ?_
    obtain ⟨warning, hwarning⟩ := h m hm
    rw [hwarning]
    exact trivial
  obtain ⟨warnings, hw, -⟩ := hyields.exists_ok
  exact ⟨warnings, hw⟩

/-- A tracker can go through what stands in the place of a node after a change. -/
theorem Request.PutsTrackable.current {q : Request} {slot : Heap.Slot} {gone : Bool} {h : Heap}
    {r p : Ref} (hputs : q.PutsTrackable h) (hr : h.Trackable r)
    (hp : (if q.removed then Datum.null else q.effective?.getD (.ref r)) = .ref p) :
    (q.edit slot gone h).Trackable p := by
  rcases Request.of_current_eq hp with rfl | hd
  · exact hr.edit hputs
  · obtain ⟨_, ⟨⟩, hx⟩ := hputs _ hd
    exact hx.edit hputs

namespace Walker

open Actions

/-- A tracker can follow a walk to a node that it can go through, and away from it. -/
theorem follow_attached {w : Walker σ} {s : World σ} {r : Ref} (hr : s.heap.Trackable r)
    (hn : s.heap.isNode (.ref r) = true) (phase : Phase) :
    ∃ T, w.attached.follow phase r s = .ok () (s.tracking T s.warnings) := by
  have hrun : ∃ T, (Scope.Call.run ⟨phase, s.heap, r⟩).run s.tracker = .ok () T := by
    cases phase with
    | enter => exact hr.enter hn s.tracker
    | leave =>
      obtain ⟨type, htype⟩ := Option.isSome_iff_exists.1 hn
      exact ⟨_, Scope.leave_of_type htype s.tracker⟩
  obtain ⟨T, hT⟩ := hrun
  refine ⟨T, ?_⟩
  rw [follow_tracked rfl]
  exact WalkM.track_eq_ok.2 ⟨T, hT, rfl⟩

variable {w : Walker σ} (hw : w.OnlyAsks) (hb : w.Blind) {start : List Warning} {i : Standing}
  {s t : World (σ × List (Notice σ))}

include hw hb

/-- A node is passed with a tracker as it is without one. -/
theorem passNoting_attached {phase : Phase} {v : Visit} {gone : Bool} {fin : Request → α}
    {make make' : Request → WalkM σ α}
    (hmake : ∀ q, make q = w.alone.makeChange v q gone >>= fun _ => pure (fin q))
    (hmake' : ∀ q, make' q = w.attached.makeChange v q gone >>= fun _ => pure (fin q))
    (hrel : Alike start i s t) (hgone : (Tally.after s.turns).isGone phase = gone)
    {h : Heap} (hn : h.isNode (.ref v.node) = true) (hkeeps : h.KeepsTypes s.heap)
    (hslot : v.slot.SparesTypes h) {T : Tracker}
    (hfollow : w.attached.follow phase v.node t.plain = .ok () (t.plain.tracking T t.warnings))
    (hgood : Tellable (WalkM.endOf (w.alone.passNoting phase v make s)).turns) :
    (∃ e s' t', w.alone.passNoting phase v make s = .error e s' ∧
        w.attached.passNoting phase v make' t = .error e t') ∨
      ∃ q s₂ s₃ t₃, w.call phase v s.plain = .ok q s₂ ∧
        w.alone.passNoting phase v make s = .ok (fin q) s₃ ∧
        w.attached.passNoting phase v make' t = .ok (fin q) t₃ ∧
        s₃.heap = q.edit v.slot gone s₂.heap ∧
        s₃.turns = s.turns ++ [⟨phase, v, s.plain, .ok q s₂⟩] ∧
        ∀ i' : Standing, (Tally.after s₃.turns).gone = i'.gone → i'.heap.KeepsTypes s₃.heap →
          Alike start i' s₃ t₃ := by
  have halone : w.alone.follow phase v.node s.plain = .ok () s.plain := rfl
  have hcalled : w.attached.call phase v (t.plain.tracking T t.warnings) =
      WalkM.tracking T t.warnings (w.call phase v s.plain) := by
    rw [hrel.plain]
    exact hb.call phase v s.plain T t.warnings
  cases hcall : w.call phase v s.plain with
  | error e s₂ =>
    rw [hcall] at hcalled
    exact .inl ⟨e, _, _, passNoting_of_call_error halone hcall,
      passNoting_of_call_error hfollow hcalled⟩
  | ok q s₂ =>
    rw [hcall] at hcalled
    have hmade : make q s₂ = .ok (fin q) { s₂ with heap := q.edit v.slot gone s₂.heap } := by
      rw [hmake, bind_of_eq_ok makeChange_alone]
      rfl
    have hpass := passNoting_of_make halone hcall hmade
    let e : Turn σ := ⟨phase, v, s.plain, .ok q s₂⟩
    have htold : tellings (s.turns ++ [e]) =
        tellings s.turns ++ (q.telling? v gone s₂.heap).toList := by
      rw [tellings, Tally.after_concat, Tally.add, hgone]
      rfl
    rw [hpass, WalkM.endOf, World.turns_noting] at hgood
    -- the warning that is due can be given
    obtain ⟨warnings, hwarnings, hstart⟩ := hrel.warned
    obtain ⟨new, hnew⟩ := exists_warnings fun m hm =>
      hgood.warns m (htold ▸ List.mem_append_right _ hm)
    have hgrows : s.heap.Grows s₂.heap := hw.call phase _ _ _ _ hcall
    have hnode : (q.edit v.slot gone s₂.heap).isNode (.ref v.node) = true :=
      ((hkeeps.trans hgrows.keepsTypes).edit hslot q gone).isNode hn
    have hmade' : make' q (s₂.tracking T t.warnings) = .ok (fin q)
        ({ s₂ with heap := q.edit v.slot gone s₂.heap }.tracking T (t.warnings ++ new)) := by
      rw [hmake', bind_of_eq_ok (makeChange_attached (s := s₂.tracking T t.warnings) hnode hnew)]
      rfl
    refine .inr ⟨q, s₂, _, _, rfl, hpass, passNoting_of_make hfollow hcalled hmade', rfl,
      World.turns_noting .., fun i' hi' htypes => ⟨rfl, ?_, ?_, hi', ?_, htypes⟩⟩
    · have hbare : Turn.bare ⟨phase, v, t.plain.tracking T t.warnings,
          .ok q (s₂.tracking T t.warnings)⟩ = e.bare := by
        rw [hrel.plain]
        rfl
      rw [World.turns_noting, World.turns_noting, List.map_append, List.map_append, hrel.turns]
      exact congrArg (fun x => s.turns.map Turn.bare ++ [x]) hbare
    · exact ((hb.call phase).leaves hcall).2.trans hrel.quiet
    · refine ⟨warnings ++ new, ?_, ?_⟩
      · rw [World.turns_noting, htold, List.mapM_append, hwarnings, hnew]
        rfl
      · show t.warnings ++ new = _
        rw [hstart, List.append_assoc]

/-- Two walks are abreast at nodes if only one of them has a tracker. -/
theorem attached_atNodes (root : Datum) :
    (attachedPace start).AtNodes (w.alone.arriveNoting root) (w.attached.arriveNoting root)
      (w.alone.departNoting root) (w.attached.departNoting root) where
  minds_arrive r slot := Pace.minds_passNoting (attachedPace_good start) w.alone _ _ _
  minds_depart r slot entered := Pace.minds_passNoting (attachedPace_good start) w.alone _ _ _
  arrives := by
    intro i r slot s t hhung hrel hgood
    have hslot : slot.SparesTypes s.heap := (Heap.KeepsTypes.refl _).sparesTypes hhung.held
    have hr : s.heap.Trackable r := hhung.known
    obtain ⟨T, hfollow⟩ := follow_attached (w := w) (s := t.plain) (hrel.heap ▸ hr)
      (hrel.heap ▸ hhung.node) .enter
    rcases passNoting_attached hw hb (v := ⟨r, slot, root⟩) (w.alone.makeEnter_eq _)
      (w.attached.makeEnter_eq _) hrel rfl hhung.node (.refl _) hslot hfollow hgood with
      ⟨e, s', t', hs, ht⟩ | ⟨q, s₂, s₃, t₃, hcall, hs, ht, hheap, hturns, halike⟩
    · exact .inr ⟨e, s', t', hs, ht, trivial⟩
    have hgrows : s.heap.Grows s₂.heap := hw.call .enter _ _ _ _ hcall
    have hgood₃ : Tellable s₃.turns := by rwa [arriveNoting, hs] at hgood
    have hputs : Turn.PutsTrackable ⟨.enter, ⟨r, slot, root⟩, s.plain, .ok q s₂⟩ :=
      hgood₃.puts _ (hturns ▸ List.mem_append_right _ (List.mem_singleton_self _))
    have htypes : s.heap.KeepsTypes s₃.heap := hheap ▸ hgrows.keepsTypes.edit hslot q false
    have hlearns (x : Ref) (hx : s.heap.Trackable x) : s₃.heap.Trackable x :=
      hheap ▸ (hgrows.trackable hx).edit hputs
    have hgone : (Tally.after s₃.turns).gone = q.removed :: i.gone := by
      rw [hturns, Tally.after_concat, ← hrel.gone]
      rfl
    refine .inl ⟨⟨q.removed :: i.gone, s₃.heap⟩, _, s₃, t₃, hs, ht, halike _ hgone (.refl _), hlearns, ?_, ?_, ?_⟩
    · exact fun _ _ _ => trivial
    · intro p hp
      show s₃.heap.Trackable p
      rw [hheap]
      exact hputs.current (hgrows.trackable hr) hp
    · intro s₄ t₄ hrel₄ hlearns₄ hgood₄
      have htypes₄ : s.heap.KeepsTypes s₄.heap := htypes.trans hrel₄.types
      have hnode₄ : s₄.heap.isNode (.ref r) = true := htypes₄.isNode hhung.node
      obtain ⟨T₄, hfollow₄⟩ := follow_attached (w := w) (s := t₄.plain)
        (hrel₄.heap ▸ hlearns₄ r (hlearns r hr)) (hrel₄.heap ▸ hnode₄) .leave
      have hgone₄ : (Tally.after s₄.turns).isGone .leave = q.removed := by
        rw [Tally.isGone, hrel₄.gone]
        rfl
      rcases passNoting_attached hw hb (v := ⟨r, slot, root⟩) (w.alone.makeLeave_eq _ _)
        (w.attached.makeLeave_eq _ _) hrel₄ (hgone₄.trans (q.isNull_current r).symm) hhung.node
        htypes₄ hslot hfollow₄ hgood₄ with
        ⟨e, s', t', hs, ht⟩ | ⟨q', s₅, s₆, t₆, hcall', hs', ht', hheap', hturns', halike'⟩
      · rw [departNoting, departNoting, hs, ht]
        exact .error trivial
      · have hgrows' : s₄.heap.Grows s₅.heap := hw.call .leave _ _ _ _ hcall'
        have hgood₆ : Tellable s₆.turns := by rwa [departNoting, hs'] at hgood₄
        have hputs' : Turn.PutsTrackable ⟨.leave, ⟨r, slot, root⟩, s₄.plain, .ok q' s₅⟩ :=
          hgood₆.puts _ (hturns' ▸ List.mem_append_right _ (List.mem_singleton_self _))
        have htypes₆ : i.heap.KeepsTypes s₆.heap :=
          hheap' ▸ ((hrel.types.trans htypes₄).trans hgrows'.keepsTypes).edit
            (hrel.types.sparesTypes hhung.held) q' _
        have hgone₆ : (Tally.after s₆.turns).gone = i.gone := by
          rw [hturns', Tally.after_concat]
          exact congrArg List.tail hrel₄.gone
        rw [departNoting, departNoting, hs', ht']
        refine .ok (halike' i hgone₆ htypes₆) fun x hx => ?_
        show s₆.heap.Trackable x
        rw [hheap']
        exact (hgrows'.trackable hx).edit hputs'

end Walker

theorem Walker.pass_alone_warnings {w : Walker σ} (hb : w.Blind) {phase : Phase} {v : Visit}
    {gone : Bool} {fin : Request → α} {make : Request → WalkM σ α}
    (hmake : ∀ q, make q = w.alone.makeChange v q gone >>= fun _ => pure (fin q)) {s s' : World σ}
    {a : α} (h : w.alone.pass phase v make s = .ok a s') : s'.warnings = s.warnings := by
  obtain ⟨_, s₁, hfollow, h⟩ := Actions.bind_eq_ok.1 h
  obtain ⟨-, rfl⟩ := Actions.pure_eq_ok.1 hfollow
  obtain ⟨q, s₂, hcall, h⟩ := Actions.bind_eq_ok.1 h
  rw [hmake, Actions.bind_of_eq_ok makeChange_alone] at h
  obtain ⟨-, rfl⟩ := Actions.pure_eq_ok.1 h
  exact ((hb.call phase).leaves hcall).2

/-- A walk without a tracker gives no warnings. -/
theorem Walker.walk_alone_warnings {w : Walker σ} (hb : w.Blind) {steps : Nat} {root d : Datum}
    {s s' : World σ} (hrun : w.alone.walk steps root s = .ok d s') : s'.warnings = s.warnings := by
  refine walk_invariant (I := fun s' => s'.warnings = s.warnings) ?_ ?_ rfl hrun
  · intro root r slot s₁ entered s₂ hs₁ h
    exact (pass_alone_warnings hb (w.alone.makeEnter_eq _) h).trans hs₁
  · intro root r slot entered s₁ d s₂ hs₁ h
    exact (pass_alone_warnings hb (w.alone.makeLeave_eq _ _) h).trans hs₁

/-- A walk with a tracker does the same as the walk without one: if the walk without a tracker comes to
    an end, so does the walk with a tracker, with the same result, the same heap and the same calls. The
    first one gives no warnings, and the second one just those that are due; but one of them may not have
    a text. -/
theorem walk_attached {w : Walker σ} (hw : w.OnlyAsks) (hb : w.Blind) {steps : Nat} {root d : Datum}
    {s s' : World σ} (hroot : ∀ r, root = .ref r → s.heap.Trackable r)
    (hrun : w.alone.walk steps root s = .ok d s')
    (hputs : ∀ e ∈ w.alone.turns steps root s, e.PutsTrackable) :
    s'.warnings = s.warnings ∧
      ((∃ m ∈ tellings (w.alone.turns steps root s), m.warning = .error .tooManyDigits) ∨
        ∃ warnings, (tellings (w.alone.turns steps root s)).mapM Telling.warning = .ok warnings ∧
          ∀ t : Tracker, ∃ t',
            w.attached.walk steps root (s.tracking t s.warnings) =
              .ok d (s'.tracking t' (s.warnings ++ warnings)) ∧
            (w.attached.turns steps root (s.tracking t s.warnings)).map Turn.bare =
              (w.alone.turns steps root s).map Turn.bare) := by
  refine ⟨Walker.walk_alone_warnings hb hrun, ?_⟩
  by_cases hover : ∃ m ∈ tellings (w.alone.turns steps root s), m.warning = .error .tooManyDigits
  · exact .inl hover
  have hwarns : ∀ m ∈ tellings (w.alone.turns steps root s), ∃ warning, m.warning = .ok warning := by
    intro m hm
    cases hwarning : m.warning with
    | ok warning => exact ⟨warning, rfl⟩
    | error f =>
      have hf := m.warning_yields
      rw [hwarning] at hf
      exact absurd ⟨m, hm, hwarning.trans (congrArg Except.error hf)⟩ hover
  obtain ⟨warnings, hwarnings⟩ := exists_warnings hwarns
  refine .inr ⟨warnings, hwarnings, fun t => ?_⟩
  have hstart : (attachedPace s.warnings).Rel ⟨[], s.heap⟩ (s.noting [])
      ((s.tracking t s.warnings).noting []) :=
    ⟨rfl, rfl, rfl, rfl, ⟨[], rfl, (List.append_nil _).symm⟩, .refl _⟩
  have hends := Pace.walkNoting_ends (Walker.attached_atNodes hw hb) hstart hroot
    trivial (⟨hputs, hwarns⟩ : Tellable (WalkM.endOf _).turns)
  rw [Walker.walkNoting_eq_ok hrun] at hends
  generalize hattached : w.attached.walkNoting steps root _ = result at hends
  cases hends with
  | @ok _ _ t' halike _ =>
    obtain ⟨hwalk, hnotices⟩ := Walker.walkNoting_of_ok hattached
    obtain ⟨_, hdue, hgiven⟩ := halike.warned
    cases hdue.symm.trans hwarnings
    refine ⟨t'.tracker, ?_, ?_⟩
    · rw [hwalk, halike.plain, hgiven]
      rfl
    · rw [Walker.turns, hnotices]
      exact halike.turns

namespace Sample

/-- The tree of `changing`. -/
def changingTree : Layout :=
  .record 0 [(.text "type", .scalar (.text "Program")),
    (.text "body", .list 1 [.record 2 [(.text "type", .scalar (.text "BlockStatement"))],
      .record 3 [(.text "type", .scalar (.text "FunctionExpression"))]])]

theorem opener_blind : opener.Blind := by
  intro phase c hc v s t warnings
  cases phase <;> cases hc <;> rfl

theorem walk_attached_changing :
    ∃ s' : World Unit, s'.warnings = [] ∧ ∀ t : Tracker, ∃ t',
      opener.attached.walk 9 (.ref 0) ((changing (.fresh false)).tracking t []) =
        .ok (.ref 0) (s'.tracking t' [
          ⟨.removal, "BlockStatement", "None", "None"⟩,
          ⟨.replacement, "BlockStatement", "None", "None"⟩,
          ⟨.replacement, "FunctionExpression", "None", "None"⟩]) ∧
      (opener.attached.turns 9 (.ref 0) ((changing (.fresh false)).tracking t [])).map Turn.bare =
        (opener.alone.turns 9 (.ref 0) (changing (.fresh false))).map Turn.bare := by
  have hroot : (changing (.fresh false)).heap.Trackable 0 :=
    Heap.Holds.trackable (t := changingTree) (by decide) (by decide) (by decide) rfl
  obtain ⟨s', hrun⟩ : ∃ s', opener.alone.walk 9 (.ref 0) (changing (.fresh false)) =
      .ok (.ref 0) s' := ⟨_, rfl⟩
  have hputs : ∀ e ∈ opener.alone.turns 9 (.ref 0) (changing (.fresh false)), e.PutsTrackable :=
    have hwhole : ∀ e ∈ opener.alone.turns 9 (.ref 0) (changing (.fresh false)),
        e.putsWhole = true := by decide +kernel
    fun e he => Turn.putsTrackable_of_whole (hwhole e he)
  have hgiven : (tellings (opener.alone.turns 9 (.ref 0) (changing (.fresh false)))).mapM
      Telling.warning = .ok [⟨.removal, "BlockStatement", "None", "None"⟩,
        ⟨.replacement, "BlockStatement", "None", "None"⟩,
        ⟨.replacement, "FunctionExpression", "None", "None"⟩] := by decide +kernel
  have hshown : ∀ m ∈ tellings (opener.alone.turns 9 (.ref 0) (changing (.fresh false))),
      m.warning.isOk = true := by decide +kernel
  obtain ⟨hquiet, ⟨m, hm, hover⟩ | ⟨warnings, hdue, hall⟩⟩ := walk_attached opener_onlyAsks
    opener_blind (by rintro _ ⟨⟩; exact hroot) hrun hputs
  · have hm' := hshown m hm
    rw [hover] at hm'
    cases hm'
  · cases hdue.symm.trans hgiven
    exact ⟨s', hquiet, hall⟩

/-- A block that begins at `n`. -/
def placed (n : Int) : World Unit where
  heap := ⟨#[.record [(.text "type", .text "BlockStatement"), (.text "start", .scalar (.int n))]]⟩
  tracker := .fresh false
  warnings := []
  user := ()

/-- Removes every node on entering. -/
def remover : Walker Unit where
  enter? := some fun _ => pure Request.empty.remove
  leave? := none
  tracked := false

theorem walk_attached_overlong :
    remover.alone.walk 1 (.ref 0) (placed (10 ^ 4300)) = .ok .null (placed (10 ^ 4300)) ∧
      ∃ s', remover.attached.walk 1 (.ref 0) (placed (10 ^ 4300)) =
        .error (.fault .tooManyDigits) s' := by
  have hlong : Integer.written (10 ^ 4300) = .error .tooManyDigits :=
    Integer.written_overlong (Nat.le_refl Integer.maxDigits)
  generalize (10 : Int) ^ 4300 = n at hlong ⊢
  refine ⟨rfl, (placed n).tracking (Tracker.fresh false).push [], ?_⟩
  have hn : (placed n).heap.isNode (.ref 0) = true := rfl
  have hfollow : remover.attached.follow .enter 0 (placed n) =
      .ok () ((placed n).tracking (Tracker.fresh false).push []) := rfl
  have hcall : remover.attached.call .enter ⟨0, .root, .ref 0⟩
      ((placed n).tracking (Tracker.fresh false).push []) =
        .ok Request.empty.remove ((placed n).tracking (Tracker.fresh false).push []) := rfl
  have htelling : Telling.warning ⟨.removal, (placed n).heap, 0⟩ = .error .tooManyDigits := by
    have hstart : Telling.warning ⟨.removal, (placed n).heap, 0⟩ =
        (Integer.written n).bind fun start => .ok ⟨.removal, "BlockStatement", start, "None"⟩ := rfl
    rw [hstart, hlong]
    rfl
  have hchange : remover.attached.makeChange ⟨0, .root, .ref 0⟩ Request.empty.remove false
      ((placed n).tracking (Tracker.fresh false).push []) =
        .error (.fault .tooManyDigits) ((placed n).tracking (Tracker.fresh false).push []) :=
    Walker.makeChange_attached_error hn rfl htelling
  rw [Walker.walk_node hn, Walker.visit_eq, Actions.bind_of_eq_ok hfollow,
    Actions.bind_of_eq_ok hcall, Walker.makeEnter_eq]
  exact Actions.bind_of_eq_error (Actions.bind_of_eq_error hchange)

end Sample

end Arbor
