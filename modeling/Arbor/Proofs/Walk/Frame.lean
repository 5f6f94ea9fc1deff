import Arbor.Proofs.Walk.Changes
import Arbor.Proofs.Walk.Notices

set_option autoImplicit false

/-! # What a walk changes

A walk writes only to what it gets hold of: to what its root reaches when it starts, and to what a
replacement reaches when it is asked for. This is shown for any `F` that these lie in
(`walk_spares`). What lies outside is left as it is, and what lies in `F` with all that it reaches
does so afterwards (`Heap.Spares`); so one change after the other can be taken into account, and the
callbacks may start other walks (`Aside.spares`). -/

namespace Arbor

variable {σ α : Type}

namespace Heap

/-- All that `r` reaches is there, and lies in `F`. -/
def Within (h : Heap) (F : Ref → Prop) (r : Ref) : Prop :=
  ∀ x, h.Reaches r x → F x ∧ x < h.cells.size

variable {h h' h'' : Heap} {F K : Ref → Prop} {r x : Ref} {slot : Slot}

theorem Within.self (hr : h.Within F r) : F r ∧ r < h.cells.size := hr r .refl

theorem Within.links (hr : h.Within F r) (hx : h.Links r x) : h.Within F x :=
  fun y hy => hr y (.head hx hy)

theorem Within.mono (hF : ∀ x, F x → K x) (hr : h.Within F r) : h.Within K r :=
  fun x hx => ⟨hF x (hr x hx).1, (hr x hx).2⟩

/-- Cells that hold no others than themselves are within `F` if they lie there. -/
theorem within_of_closed {S : Ref → Prop} (hS : ∀ x, S x → F x ∧ x < h.cells.size)
    (hlinks : ∀ x y, S x → h.Links x y → S y) (hr : S r) : h.Within F r :=
  fun x hx => hS x (mem_of_reaches hlinks hr hx)

/-- What is within `F` stays within `F` if nothing changes there. -/
theorem Within.of_same (hle : h.cells.size ≤ h'.cells.size)
    (hsame : ∀ x < h.cells.size, F x → h'.cell? x = h.cell? x) (hr : h.Within F r) :
    h'.Within F r := by
  refine within_of_closed (S := h.Within F) (fun x hx => ?_) (fun x y hx hlink => ?_) hr
  · exact ⟨hx.self.1, hx.self.2.trans_le hle⟩
  · rw [links_iff, hsame x hx.self.2 hx.self.1] at hlink
    exact hx.links (links_iff.2 hlink)

/-- A tree that the heap holds is within `F` if its cells lie there. -/
theorem Holds.within {t : Layout} (ht : h.Holds t) (hr : t.datum = .ref r)
    (hF : ∀ x ∈ t.refs, F x) : h.Within F r := by
  intro x hx
  obtain ⟨u, hu, hdatum⟩ := ht.exists_part_of_reaches hr hx
  have hmem : x ∈ t.refs := (Layout.refs_part hu).subset (Layout.mem_refs_of_datum hdatum)
  exact ⟨hF x hmem, ht.lt hmem⟩

/-! ## Heaps that differ only in `F` -/

/-- What is outside `F` is left as it is, and nothing outside is linked to what is within. -/
structure Spares (F : Ref → Prop) (h h' : Heap) : Prop where
  size_le : h.cells.size ≤ h'.cells.size
  cell? : ∀ x < h.cells.size, ¬F x → h'.cell? x = h.cell? x
  within : ∀ r, h.Within F r → h'.Within F r

theorem Spares.refl (F : Ref → Prop) (h : Heap) : h.Spares F h :=
  ⟨le_rfl, fun _ _ _ => rfl, fun _ hr => hr⟩

theorem Spares.trans (hs : Spares F h h') (hs' : Spares F h' h'') : Spares F h h'' where
  size_le := hs.size_le.trans hs'.size_le
  cell? x hx hF := (hs'.cell? x (hx.trans_le hs.size_le) hF).trans (hs.cell? x hx hF)
  within r hr := hs'.within r (hs.within r hr)

theorem Grows.spares (hg : h.Grows h') (F : Ref → Prop) : Spares F h h' where
  size_le := hg.size_le
  cell? x hx _ := hg.cell? x hx
  within _ hr := hr.of_same hg.size_le fun x hx _ => hg.cell? x hx

/-- A replacement that is within `F` brings in nothing from outside. -/
theorem Within.edit {q : Request} {gone : Bool}
    (hputs : ∀ x, q.effective? = some (.ref x) → h.Within F x) (hr : h.Within F r) :
    (q.edit slot gone h).Within F r := by
  refine within_of_closed (S := h.Within F) (fun x hx => ?_) (fun x y hx hlink => ?_) hr
  · rw [Request.size_edit]
    exact hx.self
  · rcases Request.links_edit hlink with hlink | hy
    · exact hx.links hlink
    · exact hputs y hy

/-- The cell that an edit of a slot changes is reached from the record that the slot is in. -/
theorem Within.target (hparent : ∀ p, slot.parent? = some p → h.Within F p)
    (ht : h.target? slot = some x) : h.Within F x := by
  obtain ⟨p, fields, hp, -, hcell, ⟨-, rfl⟩ | ⟨_, _, -, hget, -⟩⟩ := target?_eq_some h slot ht
  · exact hparent p hp
  · have hfields : h.fields? p = some fields := (fields?_eq_some h).2 hcell
    exact (hparent p hp).links (.inl ⟨fields, _, hfields, Fields.mem_of_get? hget⟩)

/-- A change at a slot within `F`. -/
theorem spares_edit {q : Request} {gone : Bool}
    (hparent : ∀ p, slot.parent? = some p → h.Within F p)
    (hputs : ∀ x, q.effective? = some (.ref x) → h.Within F x) :
    h.Spares F (q.edit slot gone h) where
  size_le := (q.size_edit slot gone h).ge
  cell? _ _ hF := Request.cell?_edit_of_ne fun ht => hF (Within.target hparent ht).self.1
  within _ hr := hr.edit hputs

end Heap

/-! ## The walk -/

/-- What a call asks to put in the place of a node. -/
def Turn.replacement? (e : Turn σ) : Option Datum :=
  match e.result with
  | .ok q _ => q.effective?
  | .error _ _ => none

/-- What a call does and what it asks for stays within `F`. -/
structure Turn.Within (e : Turn σ) (F : Ref → Prop) : Prop where
  spares : e.before.heap.Spares F e.after.heap
  puts : ∀ x, e.replacement? = some (.ref x) → e.after.heap.Within F x

namespace Walker

open WalkM

variable {w : Walker σ} {F : Ref → Prop}

theorem follow_heap (w : Walker σ) (phase : Phase) (r : Ref) (s : World σ) :
    (endOf (w.follow phase r s)).heap = s.heap := by
  have track (f : Heap → EStateM Fault Scope.Tracker Unit) :
      (endOf (WalkM.track f s)).heap = s.heap := by
    unfold WalkM.track
    split <;> rfl
  unfold follow
  split
  · cases phase <;> exact track _
  · rfl

theorem makeChange_heap (w : Walker σ) (v : Visit) (q : Request) (gone : Bool) (s : World σ) :
    (endOf (w.makeChange v q gone s)).heap = q.edit v.slot gone s.heap := by
  rw [makeChange_run]
  split <;> rfl

theorem endOf_bind_pure {β : Type} (x : WalkM σ α) (f : α → β) (s : World σ) :
    endOf ((x >>= fun a => pure (f a)) s) = endOf (x s) := by
  simp only [Bind.bind, EStateM.bind]
  cases x s <;> rfl

/-- Passing a node within `F` changes nothing outside, if the call does not. -/
theorem passNoting_spares {phase : Phase} {v : Visit} {gone : Bool} {fin : Request → α}
    {make : Request → WalkM σ α}
    (hmake : ∀ q, make q = w.makeChange v q gone >>= fun _ => pure (fin q))
    {s : World (σ × List (Notice σ))} {result : EStateM.Result Stop (World (σ × List (Notice σ))) α}
    (hrun : w.passNoting phase v make s = result)
    (hparent : ∀ p, v.slot.parent? = some p → s.heap.Within F p)
    (hgood : ∀ e ∈ (endOf result).turns, e.Within F) :
    s.heap.Spares F (endOf result).heap ∧ ∀ a s', result = .ok a s' →
      ∃ q, a = fin q ∧ ∀ x, q.effective? = some (.ref x) → s'.heap.Within F x := by
  have hmade (q : Request) (s : World σ) : (endOf (make q s)).heap = q.edit v.slot gone s.heap := by
    rw [hmake, endOf_bind_pure, makeChange_heap]
  have hfollowed {s₁ : World σ} (hs : endOf (w.follow phase v.node s.plain) = s₁) :
      s₁.heap = s.heap := hs ▸ w.follow_heap phase v.node s.plain
  -- the call and the change that it asks for, whether or not the warning can be given
  have changed {s₁ s₂ : World σ} {q : Request} (hfollow : w.follow phase v.node s.plain = .ok () s₁)
      (hturn : Turn.Within ⟨phase, v, s₁, .ok q s₂⟩ F) :
      s.heap.Spares F (q.edit v.slot gone s₂.heap) := by
    have hcall : s.heap.Spares F s₂.heap := hfollowed (congrArg endOf hfollow) ▸ hturn.spares
    exact hcall.trans (Heap.spares_edit (fun p hp => hcall.within p (hparent p hp)) hturn.puts)
  -- whatever comes after a call, the call is one of those that stay within `F`
  have hturn {s₁ : World σ} {r : EStateM.Result Stop (World σ) Request}
      (hfollow : w.follow phase v.node s.plain = .ok () s₁) (hcall : w.call phase v s₁ = r) :
      Turn.Within ⟨phase, v, s₁, r⟩ F := hgood _ (hrun ▸ mem_turns_passNoting hfollow hcall)
  have hends := w.passNoting_ends phase v make s
  rw [hrun] at hends
  cases hends with
  | @lost _ s₁ hfollow =>
    have hs₁ : s₁.heap = s.heap := hfollowed (congrArg endOf hfollow)
    refine ⟨?_, fun _ _ h => nomatch h⟩
    show s.heap.Spares F s₁.heap
    rw [hs₁]
    exact .refl F _
  | @stopped s₁ s₂ e hfollow hcall =>
    have hs₁ : s₁.heap = s.heap := hfollowed (congrArg endOf hfollow)
    exact ⟨hs₁ ▸ (hturn hfollow hcall).spares, fun _ _ h => nomatch h⟩
  | @failed s₁ s₂ s₃ q e hfollow hcall hfail =>
    have hs₃ : s₃.heap = q.edit v.slot gone s₂.heap := by rw [← hmade, hfail]; rfl
    refine ⟨?_, fun _ _ h => nomatch h⟩
    show s.heap.Spares F s₃.heap
    rw [hs₃]
    exact changed hfollow (hturn hfollow hcall)
  | @passed s₁ s₂ s₃ q a hfollow hcall hpass =>
    have hs₃ : s₃.heap = q.edit v.slot gone s₂.heap := by rw [← hmade, hpass]; rfl
    rw [hmake] at hpass
    obtain ⟨_, _, _, hpure⟩ := Actions.bind_eq_ok.1 hpass
    obtain ⟨rfl, -⟩ := Actions.pure_eq_ok.1 hpure
    refine ⟨?_, ?_⟩
    · show s.heap.Spares F s₃.heap
      rw [hs₃]
      exact changed hfollow (hturn hfollow hcall)
    · rintro _ _ ⟨⟩
      refine ⟨q, rfl, fun x hx => ?_⟩
      show s₃.heap.Within F x
      rw [hs₃]
      exact ((hturn hfollow hcall).puts x hx).edit (hturn hfollow hcall).puts

/-- A walk that is within `F` is compared with itself to see that it changes nothing outside. -/
def framePace (h : Heap) (F : Ref → Prop) :
    Pace (σ × List (Notice σ)) (σ × List (Notice σ)) Unit where
  Rel _ s t := s = t ∧ h.Spares F s.heap
  Stopped s t := s = t ∧ h.Spares F s.heap
  Opens _ _ := True
  Known s x := s.heap.Within F x
  Good s := ∀ e ∈ s.turns, e.Within F
  stopped h := h
  cell h _ := by rw [h.1]
  links _ hx hlink := hx.links hlink

theorem framePace_good (h : Heap) (F : Ref → Prop) (s s' : World (σ × List (Notice σ)))
    (hnotes : s.user.2 <+: s'.user.2) (hgood : (framePace h F).Good s') : (framePace h F).Good s :=
  fun e he => hgood e ((World.turns_prefix hnotes).subset he)

theorem frame_atNodes (w : Walker σ) (h : Heap) (F : Ref → Prop) (root : Datum) :
    (framePace h F).AtNodes (w.arriveNoting root) (w.arriveNoting root) (w.departNoting root)
      (w.departNoting root) where
  minds_arrive r slot := Pace.minds_passNoting (framePace_good h F) w _ _ _
  minds_depart r slot entered := Pace.minds_passNoting (framePace_good h F) w _ _ _
  arrives := by
    rintro _ r slot s _ hhung ⟨rfl, hs⟩ hgood
    cases harrive : w.arriveNoting root r slot s with
    | error e s₁ =>
      rw [harrive] at hgood
      obtain ⟨hs₁, -⟩ := passNoting_spares (w.makeEnter_eq _) harrive hhung.parent hgood
      exact .inr ⟨e, s₁, s₁, rfl, rfl, rfl, hs.trans hs₁⟩
    | ok entered s₁ =>
      rw [harrive] at hgood
      obtain ⟨hs₁, hputs⟩ := passNoting_spares (w.makeEnter_eq _) harrive hhung.parent hgood
      obtain ⟨q, rfl, hq⟩ := hputs entered s₁ rfl
      refine .inl ⟨(), _, s₁, s₁, rfl, rfl, ⟨rfl, hs.trans hs₁⟩, hs₁.within, fun _ _ _ => trivial,
        ?_, ?_⟩
      · intro p hp
        rcases Request.of_current_eq hp with rfl | hd
        · exact hs₁.within _ hhung.known
        · exact hq p hd
      · rintro s₂ _ ⟨rfl, hs₂⟩ hlearns hgood₂
        have hparent (p : Ref) (hp : slot.parent? = some p) : s₂.heap.Within F p :=
          hlearns p (hs₁.within p (hhung.parent p hp))
        obtain ⟨hs₃, -⟩ := passNoting_spares (w.makeLeave_eq _ _) rfl hparent hgood₂
        cases hdepart : w.departNoting root r slot _ s₂ with
        | error e s₃ =>
          rw [departNoting] at hdepart
          rw [hdepart] at hs₃
          exact .error ⟨rfl, hs₂.trans hs₃⟩
        | ok d s₃ =>
          rw [departNoting] at hdepart
          rw [hdepart] at hs₃
          exact .ok ⟨rfl, hs₂.trans hs₃⟩ hs₃.within

end Walker

/-- A walk from a root within `F` whose calls stay within `F` changes nothing outside, also if it stops
    without an answer. -/
theorem walk_spares {w : Walker σ} {F : Ref → Prop} {steps : Nat} {root : Datum} {s : World σ}
    (hroot : ∀ r, root = .ref r → s.heap.Within F r)
    (hturns : ∀ e ∈ w.turns steps root s, e.Within F) :
    s.heap.Spares F (WalkM.endOf (w.walk steps root s)).heap := by
  have hends := Pace.walkNoting_ends (P := Walker.framePace s.heap F) (i := ())
    (w.frame_atNodes s.heap F) (s := s.noting []) ⟨rfl, .refl F _⟩ hroot trivial hturns
  rw [← Walker.endOf_walkNoting]
  exact hends.stopped.2

/-! ## Walks that callbacks start -/

/-- What goes on aside of a walk, within `F`: records and lists are made, and other walks are started, one
    after the other, from roots within `F`. These walks ask for replacements within `F`, and what goes
    on aside of them is within `F` as well. They may have callbacks of any kind otherwise, a tracker of
    their own or none, and come to an end or not. -/
inductive Aside (F : Ref → Prop) : Heap → Heap → Prop
  | making {h h' : Heap} (hg : h.Grows h') : Aside F h h'
  | walking {τ : Type} (w : Walker τ) (steps : Nat) (root : Datum) (s : World τ)
      (hroot : ∀ r, root = .ref r → s.heap.Within F r)
      (hputs : ∀ e ∈ w.turns steps root s, ∀ x, e.replacement? = some (.ref x) →
        e.after.heap.Within F x)
      (haside : ∀ e ∈ w.turns steps root s, Aside F e.before.heap e.after.heap) :
      Aside F s.heap (WalkM.endOf (w.walk steps root s)).heap
  | trans {h h' h'' : Heap} (ha : Aside F h h') (hb : Aside F h' h'') : Aside F h h''

theorem Aside.mono {F K : Ref → Prop} (hF : ∀ x, F x → K x) {h h' : Heap} (ha : Aside F h h') :
    Aside K h h' := by
  induction ha with
  | making hg => exact .making hg
  | walking w steps root s hroot hputs _ ih =>
    exact .walking w steps root s (fun r hr => (hroot r hr).mono hF)
      (fun e he x hx => (hputs e he x hx).mono hF) ih
  | trans _ _ iha ihb => exact iha.trans ihb

/-- What goes on aside within `F` changes nothing outside. -/
theorem Aside.spares {F : Ref → Prop} {h h' : Heap} (ha : Aside F h h') : h.Spares F h' := by
  induction ha with
  | making hg => exact hg.spares F
  | walking w steps root s hroot hputs haside ih =>
    exact walk_spares hroot fun e he => ⟨ih e he, hputs e he⟩
  | trans _ _ iha ihb => exact iha.trans ihb

end Arbor
