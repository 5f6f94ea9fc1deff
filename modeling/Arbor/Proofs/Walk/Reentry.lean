import Arbor.Proofs.Scope.Locality
import Arbor.Proofs.Walk.Frame
import Arbor.Proofs.Walk.Nesting
import Arbor.Proofs.Walk.Observing

set_option autoImplicit false

/-! # Walks that start other walks

A callback may start walks of its own while a walk is on, and their callbacks may do so in turn. If
these walks keep to other trees they can as well be left out: the walk goes on in the same way, with the
same calls and the same outcome, when at each call only what was asked for is asked for again
(`walk_reentrant`). For all that a walk looks at and all that it writes to is what it gets hold of
(`Walker.Grasps`), and this is left as it is by walks that get hold of other things (`Aside.spares`). -/

namespace Arbor

open Scope (Call Tracker)

variable {σ τ α : Type}

/-! ## Calls made again -/

/-- A call without the states before and after it. -/
def Turn.event (e : Turn σ) : Phase × Visit × Except Stop Request :=
  (e.phase, e.visit, WalkM.valueOf e.result)

namespace Heap

/-- The heap, and after its cells those that another heap has besides. -/
def filled (h h' : Heap) : Heap := ⟨h.cells ++ h'.cells.extract h.cells.size⟩

variable {h h' : Heap}

theorem cell?_filled (h h' : Heap) (x : Ref) :
    (h.filled h').cell? x = if x < h.cells.size then h.cell? x else h'.cell? x := by
  simp only [filled, cell?, Array.getElem?_append, Array.getElem?_extract]
  split
  · rfl
  · next hx =>
    rw [Nat.add_sub_cancel' (Nat.not_lt.1 hx)]
    split
    · rfl
    · next hout => exact (Array.getElem?_eq_none (by omega)).symm

theorem size_filled (hle : h.cells.size ≤ h'.cells.size) :
    (h.filled h').cells.size = h'.cells.size := by
  simp only [filled, Array.size_append, Array.size_extract]
  omega

end Heap

/-- Ask for what was asked for in the call that is next in turn. The records and lists that were made in
    the course of that call are there afterwards, as the call left them; else nothing is done. -/
def Callback.again : Callback (List (Turn σ)) := fun _ s =>
  match s.user with
  | [] => .ok .empty s
  | e :: rest =>
    let s' := { s with heap := s.heap.filled e.after.heap, user := rest }
    match e.result with
    | .ok q _ => .ok q s'
    | .error f _ => .error f s'

/-- The walk in which all is left out that the callbacks do besides. -/
def Walker.leftOut (w : Walker σ) : Walker (List (Turn σ)) where
  enter? := some .again
  leave? := some .again
  tracked := w.tracked

/-! ## What a walk gets hold of -/

/-- A record or list that is reached from the root of a walk when the walk starts, or from a replacement
    when it is asked for. -/
def Walker.Grasps (w : Walker σ) (steps : Nat) (root : Datum) (s : World σ) (x : Ref) : Prop :=
  (∃ r, root = .ref r ∧ s.heap.Reaches r x) ∨
    ∃ e ∈ w.turns steps root s, ∃ r, e.replacement? = some (.ref r) ∧ e.after.heap.Reaches r x

/-- All that `r` reaches is there. -/
def Heap.Intact (h : Heap) (r : Ref) : Prop := ∀ x, h.Reaches r x → x < h.cells.size

/-- A call leaves what is in `K` as it is, and the tracker, and asks for a replacement within `K`. -/
structure Turn.Keeps (e : Turn σ) (K : Ref → Prop) : Prop where
  size_le : e.before.heap.cells.size ≤ e.after.heap.cells.size
  cell? : ∀ x < e.before.heap.cells.size, K x → e.after.heap.cell? x = e.before.heap.cell? x
  tracker : e.after.tracker = e.before.tracker
  puts : ∀ x, e.replacement? = some (.ref x) → e.after.heap.Within K x

/-! ## Side by side -/

namespace Heap

variable {h h' : Heap} {K : Ref → Prop} {slot : Slot} {x : Ref}

/-- Heaps of one size that agree on `K` look the same from what is within `K`. -/
theorem AgreeOn.sameFrom (ha : h.AgreeOn K h') (hs : h'.cells.size = h.cells.size)
    (hx : h.Within K x) : h.SameFrom h' x := ⟨hs, fun y hy => ha y (hx y hy).1⟩

theorem AgreeOn.target?_eq (ha : h.AgreeOn K h')
    (hs : h'.cells.size = h.cells.size) (hp : ∀ p, slot.parent? = some p → h.Within K p) :
    h'.target? slot = h.target? slot := by
  obtain ⟨parent?, key, index?⟩ := slot
  rcases parent? with _ | p
  · rfl
  have hparent : h.SameFrom h' p := ha.sameFrom hs (hp p rfl)
  simp only [Heap.target?, hparent.fields?]
  rcases hf : h.fields? p with _ | fields
  · rfl
  rcases index? with _ | index
  · rfl
  rcases hg : Fields.get? fields key with _ | (_ | x)
  · simp only [hg]
  · simp only [hg]
  · -- the list hangs in the record
    have hlist : h.SameFrom h' x :=
      hparent.of_reaches (.single (.inl ⟨fields, key, hf, Fields.mem_of_get? hg⟩))
    simp only [hg, hlist.items?]

end Heap

theorem Warning.due_congr {h h' : Heap} {r : Ref} (hs : h.SameFrom h' r) (change : Change) :
    Warning.due h' r change = Warning.due h r change := by
  have hr : h.DatumSame h' (.ref r) := by
    rintro _ ⟨⟩
    exact hs
  unfold Warning.due Tracker.isScopeNode
  rw [Scope.scopesOf_congr hs, hr.nodeType?, hs.field, hs.field,
    Heap.read_congr hs.size (hs.datum_field _), Heap.read_congr hs.size (hs.datum_field _)]

/-- Two states have as much room and the same tracker, and what is in `K` is the same in both. -/
structure Same (K : Ref → Prop) (s : World σ) (t : World τ) : Prop where
  size : t.heap.cells.size = s.heap.cells.size
  agree : s.heap.AgreeOn K t.heap
  tracker : t.tracker = s.tracker

theorem Same.from {K : Ref → Prop} {s : World σ} {t : World τ} {x : Ref} (h : Same K s t)
    (hx : s.heap.Within K x) : s.heap.SameFrom t.heap x := h.agree.sameFrom h.size hx

namespace Walker

open WalkM Actions

variable {w : Walker σ} {K : Ref → Prop} {s : World σ} {t : World (List (Turn σ))}

/-- The tracker follows both walks alike. -/
theorem follow_again (h : Same K s t) {r : Ref} (hr : s.heap.Within K r) (phase : Phase) :
    ∃ T, (w.follow phase r s = .ok () { s with tracker := T } ∧
        w.leftOut.follow phase r t = .ok () { t with tracker := T }) ∨
      ∃ e, w.follow phase r s = .error e { s with tracker := T } ∧
        w.leftOut.follow phase r t = .error e { t with tracker := T } := by
  by_cases htracked : w.tracked = true
  · rw [follow_tracked htracked, follow_tracked (w := w.leftOut) htracked]
    unfold WalkM.track
    dsimp only
    rw [Scope.Call.run_congr (h.from hr), h.tracker]
    cases (Call.run ⟨phase, s.heap, r⟩).run s.tracker with
    | ok u T => exact ⟨T, .inl ⟨rfl, rfl⟩⟩
    | error e T => exact ⟨T, .inr ⟨_, rfl, rfl⟩⟩
  · refine ⟨s.tracker, .inl ⟨?_, ?_⟩⟩
    · simp [follow, htracked]
    · simp [follow, leftOut, htracked, ← h.tracker]

/-- A call that is made again leaves what the call has left. -/
theorem call_again {phase : Phase} {v : Visit} {result : EStateM.Result Stop (World σ) Request}
    {rest : List (Turn σ)} (h : Same K s t) (hkeeps : Turn.Keeps ⟨phase, v, s, result⟩ K)
    (ht : t.user = ⟨phase, v, s, result⟩ :: rest) :
    ∃ t', t'.user = rest ∧ Same K (endOf result) t' ∧
      w.leftOut.call phase v t = match result with
        | .ok q _ => .ok q t'
        | .error e _ => .error e t' := by
  refine ⟨{ t with heap := t.heap.filled (endOf result).heap, user := rest }, rfl, ⟨?_, ?_, ?_⟩, ?_⟩
  · exact Heap.size_filled (h.size.trans_le hkeeps.size_le)
  · intro x hx
    show (t.heap.filled (endOf result).heap).cell? x = _
    rw [Heap.cell?_filled, h.size]
    split
    · next hlt => exact (h.agree x hx).trans (hkeeps.cell? x hlt hx).symm
    · rfl
  · exact h.tracker.trans hkeeps.tracker.symm
  · have hcall : w.leftOut.call phase v t = Callback.again v t := by cases phase <;> rfl
    rw [hcall, Callback.again, ht]
    cases result <;> rfl

/-- A change is made again as it has been made. -/
theorem makeChange_again (h : Same K s t) (v : Visit) (q : Request) (gone : Bool)
    (hnode : s.heap.Within K v.node) (hparent : ∀ p, v.slot.parent? = some p → s.heap.Within K p)
    (hputs : ∀ x, q.effective? = some (.ref x) → s.heap.Within K x) :
    ∃ s' t', ((w.makeChange v q gone s = .ok () s' ∧ w.leftOut.makeChange v q gone t = .ok () t') ∨
        ∃ e, w.makeChange v q gone s = .error e s' ∧
          w.leftOut.makeChange v q gone t = .error e t') ∧
      s'.heap = q.edit v.slot gone s.heap ∧ Same K s' t' ∧ t'.user = t.user := by
  have hsize : (q.edit v.slot gone t.heap).cells.size = (q.edit v.slot gone s.heap).cells.size := by
    rw [q.size_edit, q.size_edit, h.size]
  have hagree : (q.edit v.slot gone s.heap).AgreeOn K (q.edit v.slot gone t.heap) :=
    Request.agreeOn_edit h.agree (h.agree.target?_eq h.size hparent)
  -- the warning shows what the node reaches after the change
  have hdue : w.leftOut.dueOf v q gone (q.edit v.slot gone t.heap) =
      w.dueOf v q gone (q.edit v.slot gone s.heap) := by
    unfold dueOf
    cases q.change? gone with
    | none => rfl
    | some change =>
      dsimp only
      rw [Warning.due_congr (hagree.sameFrom hsize (hnode.edit hputs)) change]
      rfl
  rw [makeChange_run, makeChange_run, hdue]
  cases w.dueOf v q gone (q.edit v.slot gone s.heap) with
  | ok warnings => exact ⟨_, _, .inl ⟨rfl, rfl⟩, rfl, ⟨hsize, hagree, h.tracker⟩, rfl⟩
  | error f => exact ⟨_, _, .inr ⟨_, rfl, rfl⟩, rfl, ⟨hsize, hagree, h.tracker⟩, rfl⟩

/-- What is handed on after a change is handed on again. -/
theorem make_again {v : Visit} {gone : Bool} {fin : Request → α} {make : Request → WalkM σ α}
    {make' : Request → WalkM (List (Turn σ)) α}
    (hmake : ∀ q, make q = w.makeChange v q gone >>= fun _ => pure (fin q))
    (hmake' : ∀ q, make' q = w.leftOut.makeChange v q gone >>= fun _ => pure (fin q))
    (h : Same K s t) (q : Request) (hnode : s.heap.Within K v.node)
    (hparent : ∀ p, v.slot.parent? = some p → s.heap.Within K p)
    (hputs : ∀ x, q.effective? = some (.ref x) → s.heap.Within K x) :
    ∃ s' t', ((make q s = .ok (fin q) s' ∧ make' q t = .ok (fin q) t') ∨
        ∃ e, make q s = .error e s' ∧ make' q t = .error e t') ∧
      s'.heap = q.edit v.slot gone s.heap ∧ Same K s' t' ∧ t'.user = t.user := by
  obtain ⟨s', t', hchange, hheap, hsame, huser⟩ :=
    makeChange_again (w := w) h v q gone hnode hparent hputs
  refine ⟨s', t', ?_, hheap, hsame, huser⟩
  rw [hmake, hmake']
  rcases hchange with ⟨hs, ht⟩ | ⟨e, hs, ht⟩
  · exact .inl ⟨bind_of_eq_ok hs, bind_of_eq_ok ht⟩
  · exact .inr ⟨e, bind_of_eq_error hs, bind_of_eq_error ht⟩

end Walker

/-- The second walk makes the calls of the first one again. What the root reaches and what the
    replacements reach that have been asked for is within `K`. -/
structure Repeats (K : Ref → Prop) (root : Datum) (script : List (Turn σ))
    (s : World (σ × List (Notice σ))) (t : World (List (Turn σ) × List (Notice (List (Turn σ))))) :
    Prop where
  same : Same K s.plain t.plain
  script : s.turns ++ t.user.1 = script
  events : t.turns.map Turn.event = s.turns.map Turn.event
  root : ∀ r, root = .ref r → s.heap.Within K r
  puts : ∀ e ∈ s.turns, ∀ r, e.replacement? = some (.ref r) → s.heap.Within K r

section

variable {K : Ref → Prop} {root : Datum} {script : List (Turn σ)} {s : World (σ × List (Notice σ))}
  {t : World (List (Turn σ) × List (Notice (List (Turn σ))))}

/-- A call that is made is the next one to be made again. -/
theorem Repeats.next (h : Repeats K root script s t) {e : Turn σ}
    (hgood : s.turns ++ [e] <+: script) : e ∈ script ∧ ∃ rest, t.user.1 = e :: rest := by
  refine ⟨hgood.subset (List.mem_append_right _ (List.mem_singleton_self e)), ?_⟩
  rw [← h.script, List.prefix_append_right_inj] at hgood
  obtain ⟨rest, hrest⟩ := hgood
  exact ⟨rest, hrest.symm⟩

/-- If the tracker stops both walks, no call is made, and the second walk has repeated the first one up to
    here. -/
theorem Repeats.lost (h : Repeats K root script s t) (T : Tracker) (phase : Phase) (r : Ref)
    (before : World σ) (before' : World (List (Turn σ))) :
    Repeats K root script
      (World.noting { s.plain with tracker := T } (s.user.2 ++ [.followed phase r before]))
      (World.noting { t.plain with tracker := T } (t.user.2 ++ [.followed phase r before'])) where
  same := ⟨h.same.size, h.same.agree, rfl⟩
  script := by
    rw [World.turns_followed]
    exact h.script
  events := by
    rw [World.turns_followed, World.turns_followed]
    exact h.events
  root := h.root
  puts := by
    rw [World.turns_followed]
    exact h.puts

/-- If the tracker has followed both walks and the call has been made again, the second walk repeats the
    first one further on. -/
theorem Repeats.passed (h : Repeats K root script s t) {e : Turn σ} {rest : List (Turn σ)}
    (ht : t.user.1 = e :: rest) {s' : World σ} {t' : World (List (Turn σ))} (hsame : Same K s' t')
    (huser : t'.user = rest) (hkept : ∀ x, s.heap.Within K x → s'.heap.Within K x)
    (hputs : ∀ x, e.replacement? = some (.ref x) → s'.heap.Within K x)
    {e' : Turn (List (Turn σ))} (he : e'.event = e.event) (phase : Phase) (r : Ref)
    (before : World σ) (before' : World (List (Turn σ))) :
    Repeats K root script (s'.noting (s.user.2 ++ [.followed phase r before, .shown e]))
      (t'.noting (t.user.2 ++ [.followed phase r before', .shown e'])) where
  same := ⟨hsame.size, hsame.agree, hsame.tracker⟩
  script := by
    rw [World.turns_noting, List.append_assoc, ← h.script, ht, ← huser]
    rfl
  events := by
    rw [World.turns_noting, World.turns_noting, List.map_append, List.map_append, h.events]
    exact congrArg (fun x => s.turns.map Turn.event ++ [x]) he
  root r hr := hkept r (h.root r hr)
  puts e₁ he₁ x hx := by
    rw [World.turns_noting] at he₁
    rcases List.mem_append.1 he₁ with he₁ | he₁
    · exact hkept x (h.puts e₁ he₁ x hx)
    · obtain rfl := List.mem_singleton.1 he₁
      exact hputs x hx

end

namespace Walker

open WalkM Actions

variable {w : Walker σ} {K : Ref → Prop} {root : Datum} {script : List (Turn σ)}
  {s : World (σ × List (Notice σ))} {t : World (List (Turn σ) × List (Notice (List (Turn σ))))}

/-- A node is passed again as it has been passed. -/
theorem passNoting_again (hscript : ∀ e ∈ script, e.Keeps K) {phase : Phase} {v : Visit} {gone : Bool}
    {fin : Request → α} {make : Request → WalkM σ α} {make' : Request → WalkM (List (Turn σ)) α}
    (hmake : ∀ q, make q = w.makeChange v q gone >>= fun _ => pure (fin q))
    (hmake' : ∀ q, make' q = w.leftOut.makeChange v q gone >>= fun _ => pure (fin q))
    (hrel : Repeats K root script s t) (hnode : s.heap.Within K v.node)
    (hparent : ∀ p, v.slot.parent? = some p → s.heap.Within K p)
    {result : EStateM.Result Stop (World (σ × List (Notice σ))) α}
    (hrun : w.passNoting phase v make s = result) (hgood : (endOf result).turns <+: script) :
    (∃ e s' t', result = .error e s' ∧ w.leftOut.passNoting phase v make' t = .error e t' ∧
        Repeats K root script s' t') ∨
      ∃ q s' t', result = .ok (fin q) s' ∧ w.leftOut.passNoting phase v make' t = .ok (fin q) t' ∧
        Repeats K root script s' t' ∧ (∀ x, s.heap.Within K x → s'.heap.Within K x) ∧
        ∀ x, q.effective? = some (.ref x) → s'.heap.Within K x := by
  obtain ⟨T, ⟨hfollow, hfollow'⟩ | ⟨e, hfollow, hfollow'⟩⟩ := follow_again (w := w) hrel.same
    hnode phase
  · have hsame : Same K { s.plain with tracker := T } { t.plain with tracker := T } :=
      ⟨hrel.same.size, hrel.same.agree, rfl⟩
    -- the call is the next one to be made again, however the passing of the node ends
    rw [← hrun, turns_passNoting hfollow] at hgood
    obtain ⟨hmem, rest, ht⟩ := hrel.next hgood
    have hkeeps := hscript _ hmem
    obtain ⟨t₂, huser, hsame₂, hcall'⟩ := call_again (w := w) hsame hkeeps ht
    have hkept (x : Ref) (hx : s.heap.Within K x) :
        (endOf (w.call phase v { s.plain with tracker := T })).heap.Within K x :=
      hx.of_same hkeeps.size_le hkeeps.cell?
    cases hcall : w.call phase v { s.plain with tracker := T } with
    | error e s₂ =>
      rw [hcall] at hkeeps ht hsame₂ hcall' hkept
      refine .inl ⟨e, _, _, hrun.symm.trans (passNoting_of_call_error hfollow hcall),
        passNoting_of_call_error hfollow' hcall', ?_⟩
      exact hrel.passed ht hsame₂ huser hkept hkeeps.puts rfl ..
    | ok q s₂ =>
      rw [hcall] at hkeeps ht hsame₂ hcall' hkept
      obtain ⟨s₃, t₃, hchange, hheap, hsame₃, huser₃⟩ := make_again hmake hmake' hsame₂ q
        (hkept _ hnode) (fun p hp => hkept p (hparent p hp)) hkeeps.puts
      have hkept₃ (x : Ref) (hx : s.heap.Within K x) : s₃.heap.Within K x :=
        hheap ▸ (hkept x hx).edit hkeeps.puts
      have hputs₃ (x : Ref) (hx : q.effective? = some (.ref x)) : s₃.heap.Within K x :=
        hheap ▸ (hkeeps.puts x hx).edit hkeeps.puts
      have he : (⟨phase, v, { t.plain with tracker := T }, .ok q t₂⟩ : Turn (List (Turn σ))).event =
        (phase, v, .ok q) := rfl
      have hpassed := hrel.passed ht hsame₃ (huser₃.trans huser) hkept₃ hputs₃ he phase v.node s.plain
        t.plain
      rcases hchange with ⟨hmade, hmade'⟩ | ⟨e, hmade, hmade'⟩
      · exact .inr ⟨q, _, _, hrun.symm.trans (passNoting_of_make hfollow hcall hmade),
          passNoting_of_make hfollow' hcall' hmade', hpassed, hkept₃, hputs₃⟩
      · exact .inl ⟨e, _, _, hrun.symm.trans (passNoting_of_make_error hfollow hcall hmade),
          passNoting_of_make_error hfollow' hcall' hmade', hpassed⟩
  · exact .inl ⟨e, _, _, hrun.symm.trans (passNoting_of_follow_error hfollow),
      passNoting_of_follow_error hfollow', hrel.lost T phase v.node _ _⟩

/-- The pace of a walk and of the walk that makes its calls again. -/
def repeatPace (K : Ref → Prop) (root : Datum) (script : List (Turn σ)) :
    Pace (σ × List (Notice σ)) (List (Turn σ) × List (Notice (List (Turn σ)))) Unit where
  Rel _ := Repeats K root script
  Stopped := Repeats K root script
  Opens _ _ := True
  Known s x := s.heap.Within K x
  Good s := s.turns <+: script
  stopped h := h
  cell h hx := h.same.agree _ hx.self.1
  links _ hx hlink := hx.links hlink

theorem repeatPace_good (K : Ref → Prop) (root : Datum) (script : List (Turn σ))
    (s s' : World (σ × List (Notice σ))) (hnotes : s.user.2 <+: s'.user.2)
    (hgood : (repeatPace K root script).Good s') : (repeatPace K root script).Good s :=
  (World.turns_prefix hnotes).trans hgood

theorem again_atNodes (w : Walker σ) (hscript : ∀ e ∈ script, e.Keeps K) (root root' : Datum) :
    (repeatPace K root script).AtNodes (w.arriveNoting root') (w.leftOut.arriveNoting root')
      (w.departNoting root') (w.leftOut.departNoting root') where
  minds_arrive r slot := Pace.minds_passNoting (repeatPace_good K root script) w _ _ _
  minds_depart r slot entered := Pace.minds_passNoting (repeatPace_good K root script) w _ _ _
  arrives := by
    intro _ r slot s t hhung hrel hgood
    rcases passNoting_again (v := ⟨r, slot, root'⟩) hscript (w.makeEnter_eq _)
      (w.leftOut.makeEnter_eq _) hrel hhung.known hhung.parent rfl hgood with
      ⟨e, s₁, t₁, hs, ht, hrel₁⟩ | ⟨q, s₁, t₁, hs, ht, hrel₁, hkept, hputs⟩
    · exact .inr ⟨e, s₁, t₁, hs, ht, hrel₁⟩
    · refine .inl ⟨(), _, s₁, t₁, hs, ht, hrel₁, hkept, fun _ _ _ => trivial, ?_, ?_⟩
      · intro p hp
        rcases Request.of_current_eq hp with rfl | hd
        · exact hkept _ hhung.known
        · exact hputs p hd
      · intro s₂ t₂ hrel₂ hlearns hgood₂
        rcases passNoting_again (v := ⟨r, slot, root'⟩) hscript (w.makeLeave_eq _ _)
          (w.leftOut.makeLeave_eq _ _) hrel₂ (hlearns r (hkept r hhung.known))
          (fun p hp => hlearns p (hkept p (hhung.parent p hp))) rfl hgood₂ with
          ⟨e, s₃, t₃, hs₃, ht₃, hrel₃⟩ | ⟨q', s₃, t₃, hs₃, ht₃, hrel₃, hkept₃, -⟩
        · rw [departNoting, departNoting, hs₃, ht₃]
          exact .error hrel₃
        · rw [departNoting, departNoting, hs₃, ht₃]
          exact .ok hrel₃ hkept₃

/-- A walk returns nothing, the root, or a replacement that has been asked for. -/
theorem walk_result {w : Walker σ} {steps : Nat} {root d : Datum} {s s' : World σ}
    (hrun : w.walk steps root s = .ok d s') :
    d = .null ∨ d = root ∨ ∃ e ∈ w.turns steps root s, e.replacement? = some d := by
  cases hn : s.heap.isNode root with
  | false =>
    rw [walk_data hn] at hrun
    cases hrun
    exact .inl rfl
  | true =>
    cases root with
    | scalar _ => cases hn
    | ref r =>
      have hnoting := walkNoting_eq_ok hrun
      rw [walkNoting_node (s := s.noting []) hn] at hnoting
      cases steps with
      | zero => exact absurd hnoting throw_eq_ok
      | succ steps =>
        obtain ⟨entered, s₃, harrive, hnoting⟩ := bind_eq_ok.1 hnoting
        obtain ⟨_, s₄, hbelow, hdepart⟩ := bind_eq_ok.1 hnoting
        obtain ⟨_, notes, hnotes, -, -⟩ := visitBelow_nested (visit_nested w _ _) hbelow
        obtain ⟨s₁, q, s₂, t₃, -, -, hmake, rfl⟩ := passNoting_eq_ok harrive
        obtain ⟨s₅, q', s₆, t', -, -, hmake', hend⟩ := passNoting_eq_ok hdepart
        obtain ⟨-, rfl⟩ := makeEnter_leaves hmake
        obtain ⟨-, rfl⟩ := makeLeave_leaves hmake'
        -- both calls at the root have been noted
        have hall : w.turns (steps + 1) (.ref r) s =
            s₄.turns ++ [⟨.leave, ⟨r, .root, .ref r⟩, s₅, .ok q' s₆⟩] :=
          (congrArg World.turns hend).trans (World.turns_noting ..)
        have henter : s₄.turns = [⟨.enter, ⟨r, .root, .ref r⟩, s₁, .ok q s₂⟩] ++
            notes.filterMap Notice.turn? := by
          rw [World.turns, hnotes, List.filterMap_append]
          rfl
        rw [hall, henter]
        cases q'.removed with
        | true => exact .inl rfl
        | false =>
          cases hq' : q'.effective? with
          | some d => exact .inr (.inr ⟨⟨.leave, ⟨r, .root, .ref r⟩, s₅, .ok q' s₆⟩, by simp, hq'⟩)
          | none =>
            cases q.removed with
            | true => exact .inl rfl
            | false =>
              cases hq : q.effective? with
              | some d => exact .inr (.inr ⟨⟨.enter, ⟨r, .root, .ref r⟩, s₁, .ok q s₂⟩, by simp, hq⟩)
              | none => exact .inr (.inl rfl)

end Walker

/-! ## The theorem -/

open WalkM

/-- Another walk makes the same calls, returns the same or stops for the same reason, and leaves the
    tracker, what is in `K`, and the trees below the root and below what is returned the same. -/
structure Walker.RepeatedBy (w : Walker σ) (w' : Walker τ) (K : Ref → Prop) (steps : Nat)
    (root : Datum) (s : World σ) (s' : World τ) : Prop where
  result : valueOf (w'.walk steps root s') = valueOf (w.walk steps root s)
  events : (w'.turns steps root s').map Turn.event = (w.turns steps root s).map Turn.event
  tracker : (endOf (w'.walk steps root s')).tracker = (endOf (w.walk steps root s)).tracker
  cells : ∀ x, K x →
    (endOf (w'.walk steps root s')).heap.cell? x = (endOf (w.walk steps root s)).heap.cell? x
  tree : (endOf (w'.walk steps root s')).heap.read root =
    (endOf (w.walk steps root s)).heap.read root
  returned : ∀ d, valueOf (w.walk steps root s) = .ok d →
    (endOf (w'.walk steps root s')).heap.read d = (endOf (w.walk steps root s)).heap.read d

/-- The callbacks of a walk may make records and lists and start other walks, which do the same; what
    these other walks get hold of lies in `F`. Nothing is missing of what the walk itself gets hold of.

    Then each call changes nothing outside `F`, and the whole walk changes nothing but what it gets hold of
    itself and what lies in `F`. If it gets hold of nothing in `F`, and the callbacks leave the tracker
    alone, then the other walks can be left out: when at each call only what was asked for is asked for
    again, the walk makes the same calls and comes to the same end. -/
theorem walk_reentrant {w : Walker σ} {steps : Nat} {root : Datum} {s : World σ} {F : Ref → Prop}
    (hroot : ∀ r, root = .ref r → s.heap.Intact r)
    (hputs : ∀ e ∈ w.turns steps root s, ∀ r, e.replacement? = some (.ref r) → e.after.heap.Intact r)
    (haside : ∀ e ∈ w.turns steps root s, Aside F e.before.heap e.after.heap) :
    (∀ e ∈ w.turns steps root s, ∀ x < e.before.heap.cells.size, ¬F x →
      e.after.heap.cell? x = e.before.heap.cell? x) ∧
    (∀ x < s.heap.cells.size, ¬w.Grasps steps root s x → ¬F x →
      (endOf (w.walk steps root s)).heap.cell? x = s.heap.cell? x) ∧
    ((∀ x, w.Grasps steps root s x → ¬F x) →
      (∀ e ∈ w.turns steps root s, e.after.tracker = e.before.tracker) →
      w.RepeatedBy w.leftOut (w.Grasps steps root s) steps root s
        (s.withUser (w.turns steps root s))) := by
  have hmine (e : Turn σ) (he : e ∈ w.turns steps root s) (r : Ref)
      (hr : e.replacement? = some (.ref r)) :
      e.after.heap.Within (w.Grasps steps root s) r :=
    fun x hx => ⟨.inr ⟨e, he, r, hr, hx⟩, hputs e he r hr x hx⟩
  have hmine₀ (r : Ref) (hr : root = .ref r) : s.heap.Within (w.Grasps steps root s) r :=
    fun x hx => ⟨.inl ⟨r, hr, hx⟩, hroot r hr x hx⟩
  refine ⟨fun e he => (haside e he).spares.cell?, fun x hx hK hF => ?_, fun hapart htracker => ?_⟩
  · -- within all that is got hold of, by the walk itself or aside of it
    have hspares : s.heap.Spares (fun x => w.Grasps steps root s x ∨ F x)
        (endOf (w.walk steps root s)).heap :=
      walk_spares (fun r hr => (hmine₀ r hr).mono fun _ => .inl) fun e he =>
        ⟨((haside e he).mono fun _ => .inr).spares, fun r hr => (hmine e he r hr).mono fun _ => .inl⟩
    exact hspares.cell? x hx fun h => h.elim hK hF
  · have hscript : ∀ e ∈ w.turns steps root s, e.Keeps (w.Grasps steps root s) := fun e he =>
      have hspares := (haside e he).spares
      ⟨hspares.size_le, fun x hx hK => hspares.cell? x hx (hapart x hK), htracker e he, hmine e he⟩
    have hstart : Repeats (w.Grasps steps root s) root (w.turns steps root s) (s.noting [])
        ((s.withUser (w.turns steps root s)).noting []) :=
      ⟨⟨rfl, fun _ _ => rfl, rfl⟩, rfl, rfl, hmine₀, fun _ h => absurd h List.not_mem_nil⟩
    have hends : (Walker.repeatPace (w.Grasps steps root s) root (w.turns steps root s)).Ends () _
        (w.walkNoting steps root _) _ :=
      Pace.walkNoting_ends (Walker.again_atNodes w hscript root) hstart hmine₀ trivial
        List.prefix_rfl
    have hrel := hends.stopped
    have hsame := hrel.same
    rw [Walker.endOf_walkNoting, Walker.endOf_walkNoting] at hsame
    -- what is within all that is got hold of looks the same in the end
    have hread {d : Datum} (hd : ∀ r, d = .ref r →
        (endOf (w.walkNoting steps root (s.noting []))).heap.Within (w.Grasps steps root s) r) :
        (endOf (w.leftOut.walk steps root (s.withUser (w.turns steps root s)))).heap.read d =
          (endOf (w.walk steps root s)).heap.read d := by
      refine Heap.read_congr hsame.size fun r hr => hsame.from ?_
      rw [← Walker.endOf_walkNoting]
      exact hd r hr
    refine ⟨?_, hrel.events, hsame.tracker, hsame.agree, hread hrel.root, fun d hd => hread ?_⟩
    · rw [← Walker.valueOf_walkNoting, ← Walker.valueOf_walkNoting]
      exact hends.value
    · obtain ⟨s', hrun⟩ := valueOf_eq_ok hd
      rcases Walker.walk_result hrun with rfl | rfl | ⟨e, he, hd⟩
      · rintro r ⟨⟩
      · exact hrel.root
      · rintro r rfl
        exact hrel.puts e he r hd

namespace Sample

/-- A program of two statements. -/
def hostTree : Layout :=
  .record 0 [(.text "type", .scalar (.text "Program")),
    (.text "body", .list 1 [.record 2 [(.text "type", .scalar (.text "BlockStatement"))],
      .record 3 [(.text "type", .scalar (.text "EmptyStatement"))]])]

/-- Another program of two statements. -/
def guestTree : Layout :=
  .record 4 [(.text "type", .scalar (.text "Program")),
    (.text "body", .list 5 [.record 6 [(.text "type", .scalar (.text "BlockStatement"))],
      .record 7 [(.text "type", .scalar (.text "EmptyStatement"))]])]

/-- The statement that comes in for the first one of `hostTree`. -/
def newcomer : Layout := .record 8 [(.text "type", .scalar (.text "EmptyStatement"))]

def twoTrees : World Unit where
  heap := ⟨((hostTree.cells ++ guestTree.cells).map Prod.snd).toArray⟩
  tracker := .fresh true
  warnings := []
  user := ()

/-- Removes the first statement of `guestTree`. -/
def guest : Walker Unit where
  enter? := some fun v => pure (if v.node = 6 then Request.empty.remove else .empty)
  leave? := none
  tracked := true

/-- Walks `guestTree`, with a tracker for this walk, at the first statement of `hostTree`, and then
    replaces the statement. -/
def host : Walker Unit where
  enter? := some fun v => do
    if v.node = 2 then
      let _ ← WalkM.withTracker (.fresh false) (guest.walk 9 (.ref 4))
      let d ← WalkM.load (.record [(.text "type", .scalar (.text "EmptyStatement"))])
      pure (Request.empty.replace d)
    else pure .empty
  leave? := none
  tracked := true

/-- The cells of `guestTree`. -/
def guestCells (x : Ref) : Prop := x ∈ guestTree.refs

/-- The state after the walk of `guestTree`. -/
def guestLeft : World Unit :=
  WalkM.endOf (guest.walk 9 (.ref 4) { twoTrees with tracker := .fresh false })

theorem guest_turns : ∀ e ∈ guest.turns 9 (.ref 4) { twoTrees with tracker := .fresh false },
    e.replacement? = none ∧ e.after.heap.cells = e.before.heap.cells := by
  decide +kernel

theorem host_turns : ∀ e ∈ host.turns 9 (.ref 0) twoTrees,
    e.after.tracker = e.before.tracker ∧
    (e.replacement? = none ∨ e.replacement? = some newcomer.datum ∧ e.after.heap.Holds newcomer) ∧
    (e.after.heap.cells = e.before.heap.cells ∨ e.before.heap.cells = twoTrees.heap.cells ∧
      e.after.heap.cells =
        guestLeft.heap.cells.push (.record [(.text "type", .scalar (.text "EmptyStatement"))])) := by
  decide +kernel

theorem aside_guest : Aside guestCells twoTrees.heap guestLeft.heap := by
  have hheld : twoTrees.heap.Holds guestTree := by decide
  refine .walking guest 9 (.ref 4) { twoTrees with tracker := .fresh false } ?_ ?_ ?_
  · rintro _ ⟨⟩
    exact hheld.within rfl fun _ hx => hx
  · intro e he x hx
    rw [(guest_turns e he).1] at hx
    cases hx
  · intro e he
    have hsame : e.after.heap = e.before.heap := congrArg Heap.mk (guest_turns e he).2
    rw [hsame]
    exact .making (.refl _)

theorem aside_host : ∀ e ∈ host.turns 9 (.ref 0) twoTrees,
    Aside guestCells e.before.heap e.after.heap := by
  intro e he
  obtain ⟨-, -, hsame | ⟨hbefore, hafter⟩⟩ := host_turns e he
  · have hsame : e.after.heap = e.before.heap := congrArg Heap.mk hsame
    rw [hsame]
    exact .making (.refl _)
  · have hbefore : e.before.heap = twoTrees.heap := congrArg Heap.mk hbefore
    have hafter : e.after.heap = (guestLeft.heap.alloc _).2 := congrArg Heap.mk hafter
    rw [hbefore, hafter]
    exact aside_guest.trans (.making (Heap.grows_alloc _ _))

theorem walk_reentrant_host :
    (∀ x < 8, ¬host.Grasps 9 (.ref 0) twoTrees x → ¬guestCells x →
      (WalkM.endOf (host.walk 9 (.ref 0) twoTrees)).heap.cell? x = twoTrees.heap.cell? x) ∧
    host.RepeatedBy host.leftOut (host.Grasps 9 (.ref 0) twoTrees) 9 (.ref 0) twoTrees
      (twoTrees.withUser (host.turns 9 (.ref 0) twoTrees)) := by
  have hheld : twoTrees.heap.Holds hostTree := by decide
  have hroot : twoTrees.heap.Within (· ∈ hostTree.refs) 0 := hheld.within rfl fun _ hx => hx
  have hputs (e : Turn Unit) (he : e ∈ host.turns 9 (.ref 0) twoTrees) (r : Ref)
      (hr : e.replacement? = some (.ref r)) : e.after.heap.Within (· ∈ newcomer.refs) r := by
    obtain ⟨-, hnone | ⟨hput, hnew⟩, -⟩ := host_turns e he
    · rw [hnone] at hr
      cases hr
    · rw [hput] at hr
      cases hr
      exact hnew.within rfl fun _ hx => hx
  obtain ⟨-, hframe, hagain⟩ := walk_reentrant (F := guestCells)
    (by rintro _ ⟨⟩; exact fun x hx => (hroot x hx).2)
    (fun e he r hr x hx => (hputs e he r hr x hx).2) aside_host
  refine ⟨hframe, hagain ?_ fun e he => (host_turns e he).1⟩
  -- the cells of the three trees are different ones
  have hapart : ∀ x ∈ hostTree.refs ++ newcomer.refs, x ∉ guestTree.refs := by decide
  rintro x (⟨_, ⟨⟩, hx⟩ | ⟨e, he, r, hr, hx⟩)
  · exact hapart x (List.mem_append_left _ (hroot x hx).1)
  · exact hapart x (List.mem_append_right _ (hputs e he r hr x hx).1)

end Sample

end Arbor
