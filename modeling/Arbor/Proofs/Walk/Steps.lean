import Arbor.Proofs.Actions
import Arbor.Walk.Walker

set_option autoImplicit false

/-! # The steps of a walk

What each part of a walk does when it comes to an end: what it returns, and what it leaves of the
heap, the tracker and what the callbacks keep. A callback that is absent acts as one that asks for
nothing (`Walker.call`), so that entering and leaving a node each consist of a call and of making
the changes that the call asked for (`Walker.onEnter_eq`, `Walker.onLeave_eq`). -/

namespace Arbor

open Scope (Tracker)

variable {σ : Type}

/-! ## Actions that come to an end -/

namespace WalkM

open Actions

variable {α β : Type} {s s' : World σ}

theorem look_bind {f : Heap → α} {k : α → WalkM σ β} : (look f >>= k) s = k (f s.heap) s := rfl

@[simp] theorem edit_eq_ok {f : Heap → Heap} {u : Unit} :
    edit f s = .ok u s' ↔ { s with heap := f s.heap } = s' := by
  simp [edit]

theorem ofExcept_bind {a : α} {k : α → WalkM σ β} : (ofExcept (.ok a) >>= k) s = k a s := rfl

/-- An action of the tracker changes nothing but the tracker. -/
theorem track_eq_ok {f : Heap → EStateM Fault Tracker α} {a : α} :
    track f s = .ok a s' ↔ ∃ t, (f s.heap).run s.tracker = .ok a t ∧ { s with tracker := t } = s' := by
  simp only [track]
  split
  · next b t h =>
    simp only [h, EStateM.Result.ok.injEq]
    constructor
    · rintro ⟨hb, hs⟩
      exact ⟨t, ⟨hb, rfl⟩, hs⟩
    · rintro ⟨_, ⟨hb, rfl⟩, hs⟩
      exact ⟨hb, hs⟩
  · next e t h => simp [h]

end WalkM

/-- The heap after the changes that a request asks for, at a slot from which its node is gone or
    not. -/
def Request.edit (q : Request) (slot : Heap.Slot) (gone : Bool) (h : Heap) : Heap :=
  if q.removed then if gone then h else h.removeAt slot
  else match q.effective? with
    | some d => if gone then h.insertAt slot d else h.replaceAt slot d
    | none => h

/-- The change that a request asks for at a node. A node that is gone is not removed again. -/
def Request.change? (q : Request) (gone : Bool) : Option Change :=
  if q.removed then if gone then none else some .removal
  else q.effective?.map fun _ => .replacement

/-- The warning that is due when a node has been changed, if the node opens a scope. -/
def Warning.due (h : Heap) (node : Ref) (change : Change) : Except Fault (List Warning) := do
  if ← Tracker.isScopeNode h (.ref node) then
    return [{
      change
      type := (h.nodeType? (.ref node)).getD ""
      start := ← (h.read (h.field node "start")).plain
      stop := ← (h.read (h.field node "end")).plain }]
  else return []

theorem Request.effective?_of_removed {q : Request} (h : q.removed = true) :
    q.effective? = none := by
  simp [Request.effective?, h]

/-- Nothing stands in the place of a node just if it has been removed. -/
theorem Request.isNull_current (q : Request) (r : Ref) :
    (if q.removed then Datum.null else q.effective?.getD (.ref r)).isNull = q.removed := by
  cases hr : q.removed with
  | true => rfl
  | false =>
    cases hd : q.effective? with
    | none => simp [Datum.isNull, Datum.null]
    | some d =>
      simp only [Request.effective?, hr, Bool.false_or, Option.ite_none_left_eq_some] at hd
      obtain ⟨hnull, hd⟩ := hd
      cases hd
      simpa using hnull

/-- What stands in the place of a node is the node itself, or the replacement. -/
theorem Request.of_current_eq {q : Request} {r p : Ref}
    (hp : (if q.removed then Datum.null else q.effective?.getD (.ref r)) = .ref p) :
    p = r ∨ q.effective? = some (.ref p) := by
  split at hp
  · cases hp
  · cases hd : q.effective? with
    | none =>
      rw [hd] at hp
      cases hp
      exact .inl rfl
    | some d =>
      rw [hd] at hp
      exact .inr (congrArg some hp)

namespace Walker

open Actions WalkM

/-! ## Calls -/

/-- The callback of a phase. -/
def callback? (w : Walker σ) : Phase → Option (Callback σ)
  | .enter => w.enter?
  | .leave => w.leave?

/-- Show a node to the callback of a phase. A callback that is absent asks for nothing. -/
def call (w : Walker σ) (phase : Phase) : Callback σ := fun v =>
  match w.callback? phase with
  | some callback => callback v
  | none => pure .empty

/-- What holds of every callback, and if nothing is asked for, holds of a call. -/
theorem call_of {w : Walker σ} {phase : Phase} {P : Callback σ → Prop} (hnone : P fun _ => pure .empty)
    (hsome : ∀ c, w.callback? phase = some c → P c) : P (w.call phase) := by
  unfold call
  cases hc : w.callback? phase with
  | none => exact hnone
  | some c => exact hsome c hc

/-- Make the replacement that a request asks for, if it asks for one. -/
def makeReplacement (w : Walker σ) (v : Visit) (q : Request) (edit : Datum → Heap → Heap) :
    WalkM σ Unit :=
  match q.effective? with
  | some d => do
    WalkM.edit (edit d)
    w.warn v.node .replacement
  | none => pure ()

/-- Take a node out of its slot, if it is to go. -/
def makeRemoval (w : Walker σ) (v : Visit) (goes : Bool) : WalkM σ Unit :=
  if goes then do
    WalkM.edit fun h => h.removeAt v.slot
    w.warn v.node .removal
  else pure ()

/-- Make the changes asked for on entering a node. -/
def makeEnter (w : Walker σ) (v : Visit) (q : Request) : WalkM σ Entered := do
  w.makeReplacement v q fun d h => h.replaceAt v.slot d
  w.makeRemoval v q.removed
  pure ⟨if q.removed then .null else q.effective?.getD (.ref v.node), q.skipped⟩

/-- Make the changes asked for on leaving a node. -/
def makeLeave (w : Walker σ) (v : Visit) (entered : Entered) (q : Request) : WalkM σ Datum := do
  let gone := entered.current.isNull
  w.makeReplacement v q fun d h => if gone then h.insertAt v.slot d else h.replaceAt v.slot d
  w.makeRemoval v (q.removed && !gone)
  pure (if q.removed then .null else q.effective?.getD entered.current)

/-- Make the change that a request asks for, and warn of it. -/
def makeChange (w : Walker σ) (v : Visit) (q : Request) (gone : Bool) : WalkM σ Unit := do
  WalkM.edit (q.edit v.slot gone)
  match q.change? gone with
  | some change => w.warn v.node change
  | none => pure ()

/-- A node is not replaced and removed at once. -/
theorem makeChange_eq (w : Walker σ) (v : Visit) (q : Request) (gone : Bool) :
    w.makeChange v q gone = (do
      w.makeReplacement v q fun d h => if gone then h.insertAt v.slot d else h.replaceAt v.slot d
      w.makeRemoval v (q.removed && !gone)) := by
  have hedit : (WalkM.edit (fun h => h) : WalkM σ Unit) = pure () := rfl
  unfold makeChange makeReplacement makeRemoval Request.edit Request.change?
  cases hr : q.removed with
  | true =>
    rw [Request.effective?_of_removed hr]
    cases gone <;> simp [hedit]
  | false =>
    cases q.effective? with
    | none => simp [hedit]
    | some d => simp

theorem warn_eq (w : Walker σ) (node : Ref) (change : Change) (s : World σ) :
    w.warn node change s =
      if w.tracked then
        match Warning.due s.heap node change with
        | .ok warnings => .ok () { s with warnings := s.warnings ++ warnings }
        | .error f => .error (.fault f) s
      else .ok () s := by
  have hwarn : w.warn node change s = (if w.tracked then
      WalkM.ofExcept (Tracker.isScopeNode s.heap (.ref node)) >>= fun scopes =>
        if scopes then
          WalkM.ofExcept (s.heap.read (s.heap.field node "start")).plain >>= fun start =>
            WalkM.ofExcept (s.heap.read (s.heap.field node "end")).plain >>= fun stop =>
              modify fun s' => { s' with warnings := s'.warnings ++
                [⟨change, (s.heap.nodeType? (.ref node)).getD "", start, stop⟩] }
        else pure ()
      else pure ()) s := by
    unfold warn
    split <;> rfl
  rw [hwarn]
  unfold Warning.due
  split
  · cases Tracker.isScopeNode s.heap (.ref node) with
    | error f => rfl
    | ok scopes =>
      cases scopes with
      | false => exact congrArg (EStateM.Result.ok ()) (by rw [List.append_nil])
      | true =>
        cases (s.heap.read (s.heap.field node "start")).plain with
        | error f => rfl
        | ok start => cases (s.heap.read (s.heap.field node "end")).plain <;> rfl
  · rfl

/-- The warnings that are due when a request has been met at a node. -/
def dueOf (w : Walker σ) (v : Visit) (q : Request) (gone : Bool) (h : Heap) :
    Except Fault (List Warning) :=
  match q.change? gone with
  | some change => if w.tracked then Warning.due h v.node change else .ok []
  | none => .ok []

/-- A change is made whether or not its warning can be given. -/
theorem makeChange_run (w : Walker σ) (v : Visit) (q : Request) (gone : Bool) (s : World σ) :
    w.makeChange v q gone s =
      match w.dueOf v q gone (q.edit v.slot gone s.heap) with
      | .ok warnings => .ok () { s with
          heap := q.edit v.slot gone s.heap
          warnings := s.warnings ++ warnings }
      | .error f => .error (.fault f) { s with heap := q.edit v.slot gone s.heap } := by
  rw [makeChange, bind_of_eq_ok (edit_eq_ok (u := ()).2 rfl), dueOf]
  cases q.change? gone with
  | none => exact congrArg (EStateM.Result.ok ()) (by rw [List.append_nil])
  | some change =>
    dsimp only
    rw [warn_eq]
    cases w.tracked with
    | false => exact congrArg (EStateM.Result.ok ()) (by rw [List.append_nil])
    | true => rfl

theorem makeEnter_eq (w : Walker σ) (v : Visit) (q : Request) :
    w.makeEnter v q = w.makeChange v q false >>= fun _ =>
      pure ⟨if q.removed then .null else q.effective?.getD (.ref v.node), q.skipped⟩ := by
  rw [makeChange_eq]
  simp [makeEnter]

theorem makeLeave_eq (w : Walker σ) (v : Visit) (entered : Entered) (q : Request) :
    w.makeLeave v entered q = w.makeChange v q entered.current.isNull >>= fun _ =>
      pure (if q.removed then .null else q.effective?.getD entered.current) := by
  rw [makeChange_eq]
  simp [makeLeave]

theorem onEnter_eq (w : Walker σ) (v : Visit) :
    w.onEnter v = w.call .enter v >>= w.makeEnter v := by
  have changes (q : Request) : (do
      match q.effective? with
      | some d => do
        WalkM.edit fun h => h.replaceAt v.slot d
        w.warn v.node .replacement
      | none => pure ()
      if q.removed then
        WalkM.edit fun h => h.removeAt v.slot
        w.warn v.node .removal
      pure ⟨if q.removed then .null else q.effective?.getD (.ref v.node), q.skipped⟩) =
      w.makeEnter v q := by
    unfold makeEnter makeReplacement makeRemoval
    cases q.effective? <;> cases q.removed <;> simp
  unfold onEnter call callback?
  rcases w.enter? with _ | c
  · rw [pure_bind, ← changes]
    rfl
  · exact congrArg (c v >>= ·) (funext changes)

theorem onLeave_eq (w : Walker σ) (v : Visit) (entered : Entered) :
    w.onLeave v entered = w.call .leave v >>= w.makeLeave v entered := by
  have changes (q : Request) : (do
      let gone := entered.current.isNull
      match q.effective? with
      | some d => do
        WalkM.edit fun h => if gone then h.insertAt v.slot d else h.replaceAt v.slot d
        w.warn v.node .replacement
      | none => pure ()
      if q.removed then
        if !gone then
          WalkM.edit fun h => h.removeAt v.slot
          w.warn v.node .removal
        pure .null
      else pure (q.effective?.getD entered.current)) = w.makeLeave v entered q := by
    unfold makeLeave makeReplacement makeRemoval
    cases q.effective? <;> cases q.removed <;> cases entered.current.isNull <;> simp
  unfold onLeave call callback?
  rcases w.leave? with _ | c
  · rw [pure_bind, ← changes]
    rfl
  · exact congrArg (c v >>= ·) (funext changes)

/-! ## Going through lists and fields -/

section

variable {visit : Ref → Heap.Slot → WalkM σ Datum} {parent list r : Ref} {key : Key}
  {steps i : Nat} {s : World σ} {items : List Datum} {fields : Fields Key Datum}

theorem visitItems_end (hl : s.heap.items? list = some items) (hi : items[i]? = none) :
    visitItems visit parent key list (steps + 1) i s = .ok () s := by
  rw [visitItems, look_bind, hl, Option.getD_some, hi]
  rfl

theorem visitItems_node {child : Ref} (hl : s.heap.items? list = some items)
    (hi : items[i]? = some (.ref child)) (hn : s.heap.isNode (.ref child) = true) :
    visitItems visit parent key list (steps + 1) i s =
      (visit child ⟨some parent, key, some i⟩ >>= fun result =>
        visitItems visit parent key list steps (if result.isNull then i else i + 1)) s := by
  rw [visitItems, look_bind, hl, Option.getD_some, hi, Option.map_some, hn]

theorem visitItems_data {d : Datum} (hl : s.heap.items? list = some items)
    (hi : items[i]? = some d) (hn : s.heap.isNode d = false) :
    visitItems visit parent key list (steps + 1) i s =
      visitItems visit parent key list steps (i + 1) s := by
  rw [visitItems, look_bind, hl, Option.getD_some, hi, Option.map_some, hn]
  cases d <;> rfl

theorem visitField_list (hc : s.heap.cell? r = some (.list items)) :
    visitField visit parent steps key (.ref r) s = visitItems visit parent key r steps 0 s := by
  rw [visitField, look_bind, hc]

theorem visitField_node (hc : s.heap.cell? r = some (.record fields))
    (hn : s.heap.isNode (.ref r) = true) :
    visitField visit parent steps key (.ref r) s =
      (visit r ⟨some parent, key, none⟩ >>= fun _ => pure ()) s := by
  rw [visitField, look_bind, hc, hn]

theorem visitField_data (hc : s.heap.cell? r = some (.record fields))
    (hn : s.heap.isNode (.ref r) = false) :
    visitField visit parent steps key (.ref r) s = .ok () s := by
  rw [visitField, look_bind, hc, hn]
  rfl

theorem forPresent_cons {body : Key → Datum → WalkM σ Unit} {rest : List Key} {d : Datum}
    (hg : (s.heap.fields? r).bind (Fields.get? · key) = some d) :
    Fields.forPresent (fun key => look fun h => (h.fields? r).bind (Fields.get? · key)) body
        (key :: rest) s =
      (body key d >>= fun _ => Fields.forPresent
        (fun key => look fun h => (h.fields? r).bind (Fields.get? · key)) body rest) s := by
  rw [Fields.forPresent, look_bind, hg]

theorem visitFields_ref (visit : Ref → Heap.Slot → WalkM σ Datum) (steps : Nat) (r : Ref) :
    visitFields visit steps (.ref r) =
      (look (fun h => (h.fields? r).map Fields.keys) >>= fun keys? =>
        match keys? with
        | some keys =>
          Fields.forPresent (fun key => look fun h => (h.fields? r).bind (Fields.get? · key))
            (visitField visit r steps) keys
        | none => throw (.fault .notARecord)) := by
  funext s
  have hstart : visitFields visit steps (.ref r) s =
      (ofExcept (s.heap.asRecord (.ref r)) >>= fun parent =>
        look (fun h => Fields.keys ((h.fields? parent).getD [])) >>= fun keys =>
        Fields.forPresent (fun key => look fun h => (h.fields? parent).bind (Fields.get? · key))
          (visitField visit parent steps) keys) s := rfl
  rw [hstart, look_bind]
  rcases hf : s.heap.fields? r with _ | fields
  · have hr : s.heap.asRecord (.ref r) = .error .notARecord := by simp [Heap.asRecord, hf]
    rw [hr]
    rfl
  · have hr : s.heap.asRecord (.ref r) = .ok r := by simp [Heap.asRecord, hf]
    rw [hr, ofExcept_bind, look_bind, hf]
    rfl

theorem visitFields_eq (hf : s.heap.fields? r = some fields) :
    visitFields visit steps (.ref r) s =
      Fields.forPresent (fun key => look fun h => (h.fields? r).bind (Fields.get? · key))
        (visitField visit r steps) fields.keys s := by
  rw [visitFields_ref, look_bind, hf]
  rfl

end

/-! ## Visiting a node -/

/-- Let the tracker, if there is one, follow a walk into a node or out of it. -/
def follow (w : Walker σ) (phase : Phase) (r : Ref) : WalkM σ Unit :=
  if w.tracked then
    match phase with
    | .enter => WalkM.track fun h => Tracker.enter h (.ref r)
    | .leave => WalkM.track fun h => Tracker.leave h (.ref r)
  else pure ()

/-- Visit what is below the thing that stands in the place of a node after entering. -/
def visitBelow (visit : Ref → Heap.Slot → WalkM σ Datum) (steps : Nat) (entered : Entered) :
    WalkM σ Unit :=
  if !entered.skipped && !entered.current.isNull then visitFields visit steps entered.current
  else pure ()

theorem visitBelow_gone (visit : Ref → Heap.Slot → WalkM σ Datum) (steps : Nat) (skipped : Bool) :
    visitBelow visit steps ⟨.null, skipped⟩ = pure () := by
  simp [visitBelow, Datum.isNull]

theorem visitBelow_skipped (visit : Ref → Heap.Slot → WalkM σ Datum) (steps : Nat) (d : Datum) :
    visitBelow visit steps ⟨d, true⟩ = pure () := rfl

theorem visitBelow_ref (visit : Ref → Heap.Slot → WalkM σ Datum) (steps : Nat) (r : Ref) :
    visitBelow visit steps ⟨.ref r, false⟩ = visitFields visit steps (.ref r) := rfl

theorem visit_eq (w : Walker σ) (root : Datum) (steps : Nat) (r : Ref) (slot : Heap.Slot) :
    w.visit root (steps + 1) r slot = (do
      w.follow .enter r
      let q ← w.call .enter ⟨r, slot, root⟩
      let entered ← w.makeEnter ⟨r, slot, root⟩ q
      visitBelow (w.visit root steps) steps entered
      w.follow .leave r
      let q' ← w.call .leave ⟨r, slot, root⟩
      w.makeLeave ⟨r, slot, root⟩ entered q') := by
  have guarded (b : Bool) (x : WalkM σ Unit) (k : Unit → WalkM σ Datum) :
      ((if b then x else pure ()) >>= k) = if b then x >>= k else k () := by
    cases b <;> simp
  rw [visit, onEnter_eq]
  simp only [onLeave_eq, bind_assoc, follow, visitBelow, guarded]

/-- Pass a node: follow the walk into it or out of it, show it and make the changes asked for. -/
def pass {α : Type} (w : Walker σ) (phase : Phase) (v : Visit) (make : Request → WalkM σ α) :
    WalkM σ α := do
  w.follow phase v.node
  let q ← w.call phase v
  make q

/-- Come to a node. -/
def arrive (w : Walker σ) (root : Datum) (r : Ref) (slot : Heap.Slot) : WalkM σ Entered :=
  w.pass .enter ⟨r, slot, root⟩ (w.makeEnter ⟨r, slot, root⟩)

/-- Go away from a node. -/
def depart (w : Walker σ) (root : Datum) (r : Ref) (slot : Heap.Slot) (entered : Entered) :
    WalkM σ Datum :=
  w.pass .leave ⟨r, slot, root⟩ (w.makeLeave ⟨r, slot, root⟩ entered)

/-- The visits that come to nodes by one action and go away from them by another. -/
def visitBy (arrive : Ref → Heap.Slot → WalkM σ Entered)
    (depart : Ref → Heap.Slot → Entered → WalkM σ Datum) : Nat → Ref → Heap.Slot → WalkM σ Datum
  | 0, _, _ => throw .outOfSteps
  | steps + 1, r, slot => do
    let entered ← arrive r slot
    visitBelow (visitBy arrive depart steps) steps entered
    depart r slot entered

theorem visit_eq_visitBy (w : Walker σ) (root : Datum) (steps : Nat) :
    w.visit root steps = visitBy (w.arrive root) (w.depart root) steps := by
  induction steps with
  | zero => rfl
  | succ steps ih =>
    funext r slot
    rw [visit_eq, ih, visitBy]
    simp only [arrive, depart, pass, bind_assoc]

theorem walk_node {w : Walker σ} {steps : Nat} {r : Ref} {s : World σ}
    (hn : s.heap.isNode (.ref r) = true) :
    w.walk steps (.ref r) s = w.visit (.ref r) steps r .root s := by
  rw [walk, look_bind, hn]

theorem walk_data {w : Walker σ} {steps : Nat} {root : Datum} {s : World σ}
    (hn : s.heap.isNode root = false) : w.walk steps root s = .ok .null s := by
  rw [walk, look_bind, hn]
  cases root <;> rfl

/-! ## What the steps leave -/

/-- What a step leaves of the world: a heap, and besides warnings all that was there before. -/
structure Leaves (s s' : World σ) (h : Heap) : Prop where
  heap : s'.heap = h
  tracker : s'.tracker = s.tracker
  user : s'.user = s.user

/-- Following a walk changes nothing but the tracker. -/
theorem follow_eq_ok {w : Walker σ} {phase : Phase} {r : Ref} {s s' : World σ} {u : Unit}
    (h : w.follow phase r s = .ok u s') : s'.heap = s.heap ∧ s'.user = s.user := by
  unfold follow at h
  split at h
  · cases phase <;> obtain ⟨t, -, rfl⟩ := track_eq_ok.1 h <;> exact ⟨rfl, rfl⟩
  · obtain ⟨-, rfl⟩ := pure_eq_ok.1 h
    exact ⟨rfl, rfl⟩

theorem makeChange_leaves {w : Walker σ} {v : Visit} {q : Request} {gone : Bool}
    {s s' : World σ} {u : Unit} (hrun : w.makeChange v q gone s = .ok u s') :
    Leaves s s' (q.edit v.slot gone s.heap) := by
  rw [makeChange_run] at hrun
  split at hrun
  · cases hrun
    exact ⟨rfl, rfl, rfl⟩
  · cases hrun

theorem makeEnter_leaves {w : Walker σ} {v : Visit} {q : Request} {s s' : World σ} {e : Entered}
    (hrun : w.makeEnter v q s = .ok e s') :
    Leaves s s' (q.edit v.slot false s.heap) ∧
      e = ⟨if q.removed then .null else q.effective?.getD (.ref v.node), q.skipped⟩ := by
  rw [makeEnter_eq] at hrun
  obtain ⟨_, s₁, hchange, hrun⟩ := bind_eq_ok.1 hrun
  obtain ⟨rfl, rfl⟩ := pure_eq_ok.1 hrun
  exact ⟨makeChange_leaves hchange, rfl⟩

theorem makeLeave_leaves {w : Walker σ} {v : Visit} {e : Entered} {q : Request} {s s' : World σ}
    {d : Datum} (hrun : w.makeLeave v e q s = .ok d s') :
    Leaves s s' (q.edit v.slot e.current.isNull s.heap) ∧
      d = if q.removed then .null else q.effective?.getD e.current := by
  rw [makeLeave_eq] at hrun
  obtain ⟨_, s₁, hchange, hrun⟩ := bind_eq_ok.1 hrun
  obtain ⟨rfl, rfl⟩ := pure_eq_ok.1 hrun
  exact ⟨makeChange_leaves hchange, rfl⟩

end Walker

end Arbor
