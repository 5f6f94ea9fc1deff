import Arbor.Proofs.Walk.Refinement
import Arbor.Proofs.Walk.Route

set_option autoImplicit false

/-! # Walks that come to an end

A walk whose enter callback replaces nothing comes to an end, and shows each node of the tree at most once on
entering (`walk_finishes`). New nodes may stand in the tree afterwards, but a walk does not go into them: what
remains to be visited is always a part of the tree from which the walk has started, and is found where it was.
Every list and every record is followed to its end with the parts that are still to come as the measure
(`visitItems_finishes`, `visitFields_finishes`), and nothing need be known of the replacements. -/

namespace Arbor

open Walker (visitItems visitField visitFields visitBelow)

variable {σ α β : Type}

/-! ## Actions that finish -/

/-- The number of calls in a log that were made on entering a node. -/
def entries (log : List Showing) : Nat := log.countP fun e => e.phase = .enter

/-- From the state `s` an action finishes: it ends with the property `Q`, or, if a tracker follows it, with a fault.
    In any case it enters at most `n` nodes. -/
def WalkM.Finishes (tracked : Bool) (n : Nat) (Q : α → World (σ × List Showing) → Prop)
    (x : WalkM (σ × List Showing) α) (s : World (σ × List Showing)) : Prop :=
  match x s with
  | .ok a s' => Q a s' ∧ entries s'.user.2 ≤ entries s.user.2 + n
  | .error (.fault _) s' => tracked = true ∧ entries s'.user.2 ≤ entries s.user.2 + n
  | .error .outOfSteps _ => False

namespace WalkM.Finishes

variable {tracked : Bool} {m n : Nat} {s : World (σ × List Showing)} {x y : WalkM (σ × List Showing) α}
  {P : α → World (σ × List Showing) → Prop} {Q : β → World (σ × List Showing) → Prop}

theorem pure {a : α} (h : P a s) : Finishes tracked 0 P (Pure.pure a) s := ⟨h, Nat.le_refl _⟩

theorem of_eq (hxy : x s = y s) (h : Finishes tracked n P y s) : Finishes tracked n P x s := by
  rwa [Finishes, hxy]

theorem mono {P' : α → World (σ × List Showing) → Prop} (h : Finishes tracked m P x s) (hle : m ≤ n)
    (hP : ∀ a s', P a s' → P' a s') : Finishes tracked n P' x s := by
  unfold Finishes at h ⊢
  cases hx : x s with
  | ok a s' =>
    rw [hx] at h
    exact ⟨hP a s' h.1, by omega⟩
  | error e s' =>
    rw [hx] at h
    cases e with
    | outOfSteps => exact h
    | fault f => exact ⟨h.1, by omega⟩

theorem bind {f : α → WalkM (σ × List Showing) β} (hx : Finishes tracked m P x s)
    (hf : ∀ a s', P a s' → Finishes tracked n Q (f a) s') : Finishes tracked (m + n) Q (x >>= f) s := by
  unfold Finishes at hx
  cases hrun : x s with
  | error e s' =>
    rw [hrun] at hx
    rw [Finishes, Actions.bind_of_eq_error hrun]
    cases e with
    | outOfSteps => exact hx
    | fault f => exact ⟨hx.1, by omega⟩
  | ok a s' =>
    rw [hrun] at hx
    have hrest := hf a s' hx.1
    unfold Finishes at hrest ⊢
    rw [Actions.bind_of_eq_ok hrun]
    cases hend : f a s' with
    | ok b s'' =>
      rw [hend] at hrest
      exact ⟨hrest.1, by omega⟩
    | error e s'' =>
      rw [hend] at hrest
      cases e with
      | outOfSteps => exact hrest
      | fault f => exact ⟨hrest.1, by omega⟩

end WalkM.Finishes

open WalkM (Finishes)

/-! ## Callbacks -/

/-- The callbacks of a walk always answer, they change the tree only by what they ask for, and on entering they do
    not ask for a replacement. -/
structure Walker.Prunes (w : Walker σ) : Prop where
  asks : w.OnlyAsks
  answers : ∀ phase c, w.callback? phase = some c → ∀ v s, ∃ q s', c v s = .ok q s'
  keeps : ∀ c, w.enter? = some c → ∀ v s q s', c v s = .ok q s' → q.effective? = none

namespace Walker

variable {w : Walker σ}

theorem follow_finishes (w : Walker σ) (phase : Phase) (r : Ref) (s : World (σ × List Showing)) :
    Finishes w.tracked 0 (fun _ s' => s'.heap = s.heap) (w.recorded.follow phase r) s := by
  have htrack (f : Heap → EStateM Fault Scope.Tracker Unit) (htracked : w.tracked = true) :
      Finishes w.tracked 0 (fun _ s' => s'.heap = s.heap) (WalkM.track f) s := by
    unfold Finishes WalkM.track
    cases (f s.heap).run s.tracker with
    | ok a t => exact ⟨rfl, Nat.le_refl _⟩
    | error e t => exact ⟨htracked, Nat.le_refl _⟩
  unfold follow
  by_cases htracked : w.tracked = true
  · rw [if_pos (show w.recorded.tracked = true from htracked)]
    cases phase with
    | enter => exact htrack _ htracked
    | leave => exact htrack _ htracked
  · rw [if_neg (show ¬ w.recorded.tracked = true from htracked)]
    exact .pure rfl

/-- A call takes one entry, if it is made on entering. -/
theorem call_finishes (hw : w.Prunes) (phase : Phase) (v : Visit) (s : World (σ × List Showing)) :
    Finishes w.tracked (if phase = .enter then 1 else 0)
      (fun q s' => s.heap.Grows s'.heap ∧ (phase = .enter → q.effective? = none))
      (w.recorded.call phase v) s := by
  have hcall : ∃ q s', w.call phase v (s.withUser s.user.1) = .ok q s' ∧
      (phase = .enter → q.effective? = none) := by
    unfold call
    cases hc : w.callback? phase with
    | none => exact ⟨.empty, _, rfl, fun _ => rfl⟩
    | some c =>
      obtain ⟨q, s', h⟩ := hw.answers phase c hc v (s.withUser s.user.1)
      refine ⟨q, s', h, ?_⟩
      rintro rfl
      exact hw.keeps c hc v _ q s' h
  obtain ⟨q, s', h, hq⟩ := hcall
  have hgrow : s.heap.Grows s'.heap := hw.asks.call phase _ _ _ _ h
  unfold Finishes
  rw [recorded_call, Callback.recorded, h]
  refine ⟨⟨hgrow, hq⟩, ?_⟩
  simp only [World.withUser, entries, List.countP_append, List.countP_singleton, decide_eq_true_eq]
  exact Nat.le_refl _

/-- A change is made, whether or not its warning can be given. -/
theorem makeChange_finishes (w : Walker σ) (v : Visit) (q : Request) (gone : Bool)
    (s : World (σ × List Showing)) :
    Finishes w.tracked 0 (fun _ s' => s'.heap = q.edit v.slot gone s.heap)
      (w.recorded.makeChange v q gone) s := by
  unfold Finishes
  rw [makeChange_run]
  cases hdue : w.recorded.dueOf v q gone (q.edit v.slot gone s.heap) with
  | ok warnings => exact ⟨rfl, Nat.le_refl _⟩
  | error f =>
    refine ⟨?_, Nat.le_refl _⟩
    by_contra htracked
    have hnone : ¬ w.recorded.tracked = true := htracked
    unfold dueOf at hdue
    split at hdue
    · rw [if_neg hnone] at hdue
      cases hdue
    · cases hdue

theorem makeEnter_finishes (w : Walker σ) (v : Visit) (q : Request) (s : World (σ × List Showing)) :
    Finishes w.tracked 0
      (fun e s' => e = ⟨if q.removed then .null else q.effective?.getD (.ref v.node), q.skipped⟩ ∧
        s'.heap = q.edit v.slot false s.heap)
      (w.recorded.makeEnter v q) s := by
  rw [makeEnter_eq]
  exact (makeChange_finishes w v q false s).bind fun _ _ h => .pure ⟨rfl, h⟩

theorem makeLeave_finishes (w : Walker σ) (v : Visit) (e : Entered) (q : Request)
    (s : World (σ × List Showing)) :
    Finishes w.tracked 0
      (fun d s' => d = (if q.removed then .null else q.effective?.getD e.current) ∧
        s'.heap = q.edit v.slot e.current.isNull s.heap)
      (w.recorded.makeLeave v e q) s := by
  rw [makeLeave_eq]
  exact (makeChange_finishes w v q _ s).bind fun _ _ h => .pure ⟨rfl, h⟩

end Walker

/-! ## What is left of a slot -/

namespace Request

variable {q : Request} {current? : Option Layout}

theorem isNull_of_effective? {d : Datum} (hd : q.effective? = some d) : d.isNull = false := by
  rw [effective?, Option.ite_none_left_eq_some, Bool.or_eq_true, not_or] at hd
  obtain ⟨⟨-, hnull⟩, hd⟩ := hd
  obtain rfl := Option.some.inj hd
  exact Bool.eq_false_iff.2 hnull

/-- What is returned is null only if nothing stands there. -/
theorem isNull_outcome (hc : ∀ t, current? = some t → t.datum.isNull = false) :
    (q.outcome current?).datum.isNull = (q.outcome current?).layout?.isNone := by
  unfold outcome
  by_cases hr : q.removed = true
  · rw [if_pos hr]
    rfl
  · rw [if_neg hr]
    cases hd : q.effective? with
    | none =>
      cases hcurrent : current? with
      | none => rfl
      | some t => exact hc t hcurrent
    | some d =>
      have hnull := isNull_of_effective? hd
      cases current? <;> simpa [Outcome.datum, Outcome.layout?] using hnull

end Request

/-- What has become of the heap when a node has been visited, or is being visited: outside the cells `refs` of the
    node, and but for new cells, it is as it was with one edit of the slot. -/
structure Settled (h : Heap) (slot : Heap.Slot) (refs : List Ref) (o : Outcome) (h' : Heap) : Prop where
  size_le : h.cells.size ≤ h'.cells.size
  edited : Heap.AgreeOn (fun x => x < h.cells.size ∧ x ∉ refs) (o.edit slot h) h'

section

variable {h h₁ h₂ : Heap} {slot : Heap.Slot} {t : Layout} {refs : List Ref} {current? : Option Layout}

theorem Settled.start (hh : Hangs h slot t refs) : Settled h slot refs (.standing (some t)) h := by
  refine ⟨Nat.le_refl _, fun x _ => ?_⟩
  rw [Outcome.standing, Outcome.edit, hh.leads.replaceAt_self]

theorem Settled.grow {o : Outcome} (hs : Settled h slot refs o h₁) (hg : h₁.Grows h₂) :
    Settled h slot refs o h₂ := by
  refine ⟨Nat.le_trans hs.size_le hg.size_le, fun x hx => ?_⟩
  rw [hg.cell? x (Nat.lt_of_lt_of_le hx.1 hs.size_le), hs.edited x hx]

/-- A request at the slot is met. -/
theorem Settled.request (hs : Settled h slot refs (.standing current?) h₁) (hh : Hangs h slot t refs)
    (q : Request) :
    Settled h slot refs (q.outcome current?) (q.edit slot current?.isNone h₁) := by
  refine ⟨?_, ?_⟩
  · rw [Request.size_edit]
    exact hs.size_le
  · rw [← q.edit_standing]
    exact Request.agreeOn_edit hs.edited (hh.target?_eq _ hs.edited)

end

/-- What has become of the heap when parts of a record or list in the cell `own` have been visited: outside the
    cells of the parts, the cell itself and new cells it is as it was. -/
structure Spared (own : Ref) (refs : List Ref) (h h' : Heap) : Prop where
  size_le : h.cells.size ≤ h'.cells.size
  same : ∀ x < h.cells.size, x ≠ own → x ∉ refs → h'.cell? x = h.cell? x

namespace Spared

variable {own : Ref} {refs refs' : List Ref} {h h₁ h₂ : Heap}

theorem refl (own : Ref) (refs : List Ref) (h : Heap) : Spared own refs h h :=
  ⟨Nat.le_refl _, fun _ _ _ _ => rfl⟩

theorem mono (hs : Spared own refs h h₁) (hsub : refs ⊆ refs') : Spared own refs' h h₁ :=
  ⟨hs.size_le, fun x hx hne hmem => hs.same x hx hne fun hx' => hmem (hsub hx')⟩

theorem trans (hs : Spared own refs h h₁) (hs' : Spared own refs h₁ h₂) : Spared own refs h h₂ := by
  refine ⟨Nat.le_trans hs.size_le hs'.size_le, fun x hx hne hmem => ?_⟩
  rw [hs'.same x (Nat.lt_of_lt_of_le hx hs.size_le) hne hmem, hs.same x hx hne hmem]

/-- What lies elsewhere is still there. -/
theorem holds {t : Layout} (hs : Spared own refs h h₁) (ht : h.Holds t) (hown : own ∉ t.refs)
    (hapart : ∀ x ∈ t.refs, x ∉ refs) : h₁.Holds t := by
  refine ht.of_agree fun x hx => hs.same x (ht.lt hx) ?_ (hapart x hx)
  rintro rfl
  exact hown hx

end Spared

/-- Visits below the node change only cells of the node. -/
theorem Settled.spare {h h₁ h₂ : Heap} {slot : Heap.Slot} {refs refs' : List Ref} {o : Outcome} {own : Ref}
    (hs : Settled h slot refs o h₁) (hspared : Spared own refs' h₁ h₂) (hsub : own :: refs' ⊆ refs) :
    Settled h slot refs o h₂ := by
  refine ⟨Nat.le_trans hs.size_le hspared.size_le, fun x hx => ?_⟩
  have hx' : x ∉ own :: refs' := fun hmem => hx.2 (hsub hmem)
  rw [List.mem_cons, not_or] at hx'
  rw [hspared.same x (Nat.lt_of_lt_of_le hx.1 hs.size_le) hx'.1 hx'.2, hs.edited x hx]

/-- The visit of a node leaves everything but its own cells and the one that its slot is in. -/
theorem Settled.spared {h h' : Heap} {slot : Heap.Slot} {refs : List Ref} {o : Outcome} {own : Ref}
    (hs : Settled h slot refs o h') (ht : h.target? slot = some own) : Spared own refs h h' := by
  refine ⟨hs.size_le, fun x hx hne hmem => ?_⟩
  rw [hs.edited x ⟨hx, hmem⟩, Outcome.cell?_edit_of_ne ht hne]

/-! ## The elements of a list -/

/-- The number of nodes in several layouts. -/
def Layout.nodeCount (ts : List Layout) : Nat := (ts.flatMap parts).countP isNode

theorem Layout.nodeCount_cons (t : Layout) (ts : List Layout) :
    nodeCount (t :: ts) = nodeCount [t] + nodeCount ts := by
  simp [nodeCount, List.countP_append]

theorem Layout.nodeCount_list (r : Ref) (items : List Layout) : nodeCount [.list r items] = nodeCount items := by
  simp [nodeCount, parts, partsOfItems_eq, isNode, type?]

theorem Layout.nodeCount_record {r : Ref} {fields : List (Key × Layout)}
    (hn : (Layout.record r fields).isNode = true) :
    nodeCount [.record r fields] = 1 + nodeCount (fields.map Prod.snd) := by
  simp [nodeCount, parts, partsOfFields_eq, hn, Nat.add_comm]

/-- Visits by `f` of nodes for which `steps` are enough finish. They enter no more nodes than there are in the tree,
    and leave the rest of the heap as it was with one edit of the slot. -/
def VisitFinishes (tracked : Bool) (steps : Nat) (f : Ref → Heap.Slot → WalkM (σ × List Showing) Datum) : Prop :=
  ∀ slot r fields s, (Layout.record r fields).isNode = true → (Layout.record r fields).Unaliased →
    s.heap.Holds (.record r fields) → (Layout.record r fields).steps ≤ steps →
    Hangs s.heap slot (.record r fields) (Layout.record r fields).refs →
    Finishes tracked (Layout.nodeCount [.record r fields])
      (fun d s' => ∃ o : Outcome, d = o.datum ∧ d.isNull = o.layout?.isNone ∧
        Settled s.heap slot (Layout.record r fields).refs o s'.heap) (f r slot) s

/-- Parts of a list or record that is laid out in the cell `own`, for the visits of which `steps` are enough. -/
structure Coming (h : Heap) (own : Ref) (steps : Nat) (ts : List Layout) : Prop where
  holds : ∀ t ∈ ts, h.Holds t
  unaliased : ∀ t ∈ ts, t.Unaliased
  steps_le : ∀ t ∈ ts, t.steps ≤ steps
  nodup : (Layout.refsOf ts).Nodup
  own_not_mem : own ∉ Layout.refsOf ts

section

variable {h h' : Heap} {own : Ref} {steps : Nat} {t : Layout} {ts : List Layout}

theorem Coming.not_mem (hc : Coming h own steps (t :: ts)) : own ∉ t.refs ∧ own ∉ Layout.refsOf ts := by
  have hown := hc.own_not_mem
  rw [Layout.refsOf_cons, List.mem_append, not_or] at hown
  exact hown

/-- When the first part has been visited, the others are as they were. -/
theorem Coming.tail (hc : Coming h own steps (t :: ts)) (hs : Spared own t.refs h h') :
    Coming h' own steps ts := by
  have hnodup := hc.nodup
  rw [Layout.refsOf_cons] at hnodup
  obtain ⟨-, hrest, hdisjoint⟩ := List.nodup_append.1 hnodup
  refine ⟨fun u hu => ?_, fun u hu => hc.unaliased u (List.mem_cons_of_mem _ hu),
    fun u hu => hc.steps_le u (List.mem_cons_of_mem _ hu), hrest, hc.not_mem.2⟩
  have hsub {x : Ref} (hx : x ∈ u.refs) : x ∈ Layout.refsOf ts := Layout.mem_refsOf.2 ⟨u, hu, hx⟩
  refine hs.holds (hc.holds u (List.mem_cons_of_mem _ hu)) (fun hmem => hc.not_mem.2 (hsub hmem)) ?_
  intro x hx hx'
  exact hdisjoint x hx' x (hsub hx) rfl

end

section

variable {tracked : Bool} {steps : Nat} {f : Ref → Heap.Slot → WalkM (σ × List Showing) Datum}
  (hf : VisitFinishes tracked steps f) {s : World (σ × List Showing)}

include hf

/-- To go through a list finishes. The measure is the number of elements that are still to come: whatever a visit
    makes of an element, the position then is that of the next one. -/
theorem visitItems_finishes (pre : List Datum) {parent list : Ref} {key : Key} {fields : Fields Key Datum}
    (hk : key ≠ .null) (hg : Fields.get? fields key = some (.ref list)) {ts : List Layout}
    (hp : s.heap.cell? parent = some (.record fields)) (hparent : parent ∉ Layout.refsOf ts)
    (hlist : s.heap.cell? list = some (.list (pre ++ ts.map Layout.datum)))
    (hc : Coming s.heap list steps ts) {left : Nat} (hleft : ts.length < left) :
    Finishes tracked (Layout.nodeCount ts) (fun _ s' => Spared list (Layout.refsOf ts) s.heap s'.heap)
      (visitItems f parent key list left pre.length) s := by
  induction ts generalizing pre s left with
  | nil =>
    obtain ⟨left, rfl⟩ := Nat.exists_eq_succ_of_ne_zero (Nat.ne_zero_of_lt hleft)
    exact .of_eq (Walker.visitItems_end ((Heap.items?_eq_some _).2 hlist) (by simp)) (.pure (.refl _ _ _))
  | cons t ts ih =>
    obtain ⟨left, rfl⟩ := Nat.exists_eq_succ_of_ne_zero (Nat.ne_zero_of_lt hleft)
    have hi := (Heap.items?_eq_some _).2 hlist
    have hat : (pre ++ (t :: ts).map Layout.datum)[pre.length]? = some t.datum := by simp
    have ht := hc.holds t (List.mem_cons_self ..)
    have hne : parent ≠ list := by
      rintro rfl
      rw [hp] at hlist
      cases hlist
    rw [Layout.refsOf_cons, List.mem_append, not_or] at hparent
    -- what is left when the first element has been visited, and the list goes on behind `pre'`
    have hrest {s' : World (σ × List Showing)} (pre' : List Datum) (hs : Spared list t.refs s.heap s'.heap)
        (hlist' : s'.heap.cell? list = some (.list (pre' ++ ts.map Layout.datum))) :
        Finishes tracked (Layout.nodeCount ts)
          (fun _ s'' => Spared list (Layout.refsOf (t :: ts)) s.heap s''.heap)
          (visitItems f parent key list left pre'.length) s' := by
      have hp' : s'.heap.cell? parent = some (.record fields) := by
        rw [hs.same parent (Heap.cell?_lt hp) hne hparent.1, hp]
      refine (ih pre' hp' hparent.2 hlist' (hc.tail hs) (Nat.lt_of_succ_lt_succ hleft)).mono (Nat.le_refl _) ?_
      intro _ s'' hs'
      rw [Layout.refsOf_cons]
      exact (hs.mono (List.subset_append_left _ _)).trans (hs'.mono (List.subset_append_right _ _))
    by_cases hn : t.isNode = true
    · cases t with
      | record r fs =>
        have hlist' : s.heap.cell? list = some (.list (pre ++ .ref r :: ts.map Layout.datum)) := hlist
        have htarget := Heap.target?_item pre.length hk hp hg hlist'
        have hhangs : Hangs s.heap ⟨some parent, key, some pre.length⟩ (.record r fs) (Layout.record r fs).refs :=
          .of_target (.item hk hp hg hlist') rfl htarget hparent.1 hc.not_mem.1
        refine .of_eq (Walker.visitItems_node hi hat (ht.isNode.trans hn)) ?_
        rw [Layout.nodeCount_cons]
        refine (hf _ r fs s hn (hc.unaliased _ (List.mem_cons_self ..)) ht
          (hc.steps_le _ (List.mem_cons_self ..)) hhangs).bind ?_
        rintro d s' ⟨o, -, hnull, hsettled⟩
        have hcell : s'.heap.cell? list =
            some (.list ((pre ++ o.layout?.toList.map Layout.datum) ++ ts.map Layout.datum)) := by
          rw [hsettled.edited list ⟨Heap.cell?_lt hlist, hc.not_mem.1⟩,
            Outcome.cell?_edit_item hk hp hg hlist', List.append_assoc]
        have hnext : (if d.isNull = true then pre.length else pre.length + 1) =
            (pre ++ o.layout?.toList.map Layout.datum).length := by
          rw [hnull]
          cases o.layout? <;> simp
        rw [hnext]
        exact hrest _ (hsettled.spared htarget) hcell
      | scalar _ => cases hn
      | list _ _ => cases hn
    · rw [Bool.not_eq_true] at hn
      refine .of_eq (Walker.visitItems_data hi hat (ht.isNode.trans hn)) ?_
      have hcell : s.heap.cell? list = some (.list ((pre ++ [t.datum]) ++ ts.map Layout.datum)) := by
        rw [hlist, List.append_assoc]
        rfl
      have hend := hrest (pre ++ [t.datum]) (.refl _ _ _) hcell
      rw [List.length_append] at hend
      refine hend.mono ?_ fun _ _ hs => hs
      rw [Layout.nodeCount_cons]
      exact Nat.le_add_left _ _

end

/-! ## The fields of a record -/

/-- The elements of a list are to come when the list is. -/
theorem Coming.items {h : Heap} {own r : Ref} {steps : Nat} {items ts : List Layout}
    (hc : Coming h own steps (.list r items :: ts)) : Coming h r steps items := by
  have hu := hc.unaliased _ (List.mem_cons_self ..)
  have hsteps := hc.steps_le _ (List.mem_cons_self ..)
  have hnodup := hu.refs
  rw [Layout.refs_list, List.nodup_cons] at hnodup
  exact ⟨((Heap.holds_list_iff _ _ _).1 (hc.holds _ (List.mem_cons_self ..))).2, fun t ht => hu.item ht,
    fun t ht => Nat.le_trans (Layout.steps_item ht) hsteps, hnodup.2, hnodup.1⟩

/-- What is in the fields of a record is to come when its visit starts. -/
theorem Coming.fields {h : Heap} {r : Ref} {fields : List (Key × Layout)} {steps : Nat}
    (hh : h.Holds (.record r fields)) (hu : (Layout.record r fields).Unaliased)
    (hsteps : (Layout.record r fields).steps ≤ steps + 1) : Coming h r steps (fields.map Prod.snd) := by
  have hnodup := hu.refs
  rw [Layout.refs_record, List.nodup_cons] at hnodup
  refine ⟨?_, ?_, ?_, hnodup.2, hnodup.1⟩ <;> intro t ht <;> obtain ⟨field, hmem, rfl⟩ := List.mem_map.1 ht
  · exact ((Heap.holds_record_iff _ _ _).1 hh).2 field hmem
  · exact hu.field hmem
  · exact Nat.le_of_lt_succ (Nat.lt_of_lt_of_le (Layout.steps_field hmem) hsteps)

section

variable {tracked : Bool} {steps : Nat} {f : Ref → Heap.Slot → WalkM (σ × List Showing) Datum}
  (hf : VisitFinishes tracked steps f) {s : World (σ × List Showing)}

include hf

/-- To visit a field finishes. The other fields stay as they are, though a field that is filled again goes behind
    them. -/
theorem visitField_finishes {parent : Ref} {key : Key} (hk : key ≠ .null) {t : Layout} {ts : List Layout}
    {pre post : Fields Key Datum} (hpre : key ∉ pre.keys) (hpost : key ∉ post.keys)
    (hp : s.heap.cell? parent = some (.record (pre ++ (key, t.datum) :: post)))
    (hc : Coming s.heap parent steps (t :: ts)) :
    Finishes tracked (Layout.nodeCount [t])
      (fun _ s' => Spared parent t.refs s.heap s'.heap ∧ ∃ o, s'.heap.cell? parent =
        some (.record (pre ++ (Layout.data (Rewriting.kept [(key, o)]) ++
          (post ++ Layout.data (Rewriting.moved [(key, o)]))))))
      (visitField f parent steps key t.datum) s := by
  have ht := hc.holds t (List.mem_cons_self ..)
  have hg : Fields.get? (pre ++ (key, t.datum) :: post) key = some t.datum :=
    Fields.get?_append_cons hpre _ _
  -- a field that still holds the same
  have hkept {s' : World (σ × List Showing)} (hp' : s'.heap.cell? parent = s.heap.cell? parent) :
      ∃ o, s'.heap.cell? parent = some (.record (pre ++ (Layout.data (Rewriting.kept [(key, o)]) ++
        (post ++ Layout.data (Rewriting.moved [(key, o)]))))) := by
    refine ⟨.inPlace t, ?_⟩
    rw [hp', hp]
    simp [Rewriting.kept, Rewriting.moved, Layout.data]
  cases t with
  | scalar c => exact .pure ⟨.refl _ _ _, hkept rfl⟩
  | list r items =>
    have hlist := ((Heap.holds_list_iff _ _ _).1 ht).1
    have hparent := hc.not_mem.1
    rw [Layout.refs_list, List.mem_cons, not_or] at hparent
    have hleft : items.length < steps :=
      Nat.lt_of_lt_of_le (Layout.length_lt_steps r items) (hc.steps_le _ (List.mem_cons_self ..))
    refine .of_eq (Walker.visitField_list hlist) ?_
    refine (visitItems_finishes hf [] hk hg hp hparent.2 hlist hc.items hleft).mono ?_ ?_
    · exact Nat.le_of_eq (Layout.nodeCount_list r items).symm
    · intro _ s' hs
      refine ⟨⟨hs.size_le, fun x hx _ hmem => ?_⟩, hkept (hs.same parent (Heap.cell?_lt hp) hparent.1 hparent.2)⟩
      rw [Layout.refs_list, List.mem_cons, not_or] at hmem
      exact hs.same x hx hmem.1 hmem.2
  | record r fields =>
    have hcell := ((Heap.holds_record_iff _ _ _).1 ht).1
    by_cases hn : (Layout.record r fields).isNode = true
    · have htarget := Heap.target?_field hk hp
      have hhangs : Hangs s.heap ⟨some parent, key, none⟩ (.record r fields) (Layout.record r fields).refs :=
        .of_target (.field hk hp hg) rfl htarget hc.not_mem.1 hc.not_mem.1
      refine .of_eq (Walker.visitField_node hcell (ht.isNode.trans hn)) ?_
      have hvisit := hf _ r fields s hn (hc.unaliased _ (List.mem_cons_self ..)) ht
        (hc.steps_le _ (List.mem_cons_self ..)) hhangs
      refine hvisit.bind fun d s' hend => .pure ?_
      obtain ⟨o, -, -, hsettled⟩ := hend
      refine ⟨hsettled.spared htarget, o, ?_⟩
      rw [hsettled.edited parent ⟨Heap.cell?_lt hp, hc.not_mem.1⟩, Outcome.cell?_edit_field hk hpre hpost hp]
    · rw [Bool.not_eq_true] at hn
      refine .of_eq (Walker.visitField_data hcell (ht.isNode.trans hn)) ?_
      exact (Finishes.pure ⟨.refl _ _ _, hkept rfl⟩).mono (Nat.zero_le _) fun _ _ hs => hs

/-- To go through the fields of a record finishes. The induction is on the fields that are still to come, which
    stand between those that have kept their places and those that have gone behind. -/
theorem visitFields_finishes (pre post : Fields Key Datum) {parent : Ref} {fs : List (Key × Layout)}
    (hp : s.heap.cell? parent = some (.record (pre ++ (Layout.data fs ++ post))))
    (hkeys : (Fields.keys fs).Nodup)
    (hothers : ∀ key ∈ Fields.keys fs, key ≠ .null ∧ key ∉ pre.keys ∧ key ∉ post.keys)
    (hc : Coming s.heap parent steps (fs.map Prod.snd)) :
    Finishes tracked (Layout.nodeCount (fs.map Prod.snd))
      (fun _ s' => Spared parent (Layout.refsOf (fs.map Prod.snd)) s.heap s'.heap)
      (Fields.forPresent (fun key => WalkM.look fun h => (h.fields? parent).bind (Fields.get? · key))
        (visitField f parent steps) (Fields.keys fs)) s := by
  induction fs generalizing pre post s with
  | nil => exact .pure (.refl _ _ _)
  | cons field fs ih =>
    obtain ⟨key, t⟩ := field
    rw [Fields.keys, List.map_cons, ← Fields.keys, List.nodup_cons] at hkeys
    obtain ⟨hk, hpre, hpost⟩ := hothers key (List.mem_cons_self ..)
    have hg : (s.heap.fields? parent).bind (Fields.get? · key) = some t.datum := by
      rw [(Heap.fields?_eq_some _).2 hp, Option.bind_some]
      exact Fields.get?_append_cons hpre _ _
    have hpost' : key ∉ Fields.keys (Layout.data fs ++ post) := by
      simp only [Fields.keys_append, Layout.keys_data, List.mem_append, not_or]
      exact ⟨hkeys.1, hpost⟩
    rw [Fields.keys, List.map_cons, List.map_cons, ← Fields.keys, Layout.nodeCount_cons, Layout.refsOf_cons]
    refine .of_eq (Walker.forPresent_cons hg) ?_
    refine (visitField_finishes hf hk hpre hpost' hp hc).bind ?_
    rintro _ s₁ ⟨hs, o, hcell⟩
    have hp₁ : s₁.heap.cell? parent = some (.record ((pre ++ Layout.data (Rewriting.kept [(key, o)])) ++
        (Layout.data fs ++ (post ++ Layout.data (Rewriting.moved [(key, o)]))))) := by
      rw [hcell]
      simp only [List.append_assoc]
    have hothers₁ := Rewriting.others_next (o := o) hkeys.1 fun k hmem => hothers k (List.mem_cons_of_mem _ hmem)
    refine (ih _ _ hp₁ hkeys.2 hothers₁ (hc.tail hs)).mono (Nat.le_refl _) fun _ s₂ hs₂ => ?_
    exact (hs.mono (List.subset_append_left _ _)).trans (hs₂.mono (List.subset_append_right _ _))

/-- To visit what is below a node finishes, whether the node still stands in its place or has been removed. -/
theorem visitBelow_finishes {r : Ref} {fields : List (Key × Layout)} {current? : Option Layout} {skipped : Bool}
    (hcurrent : ∀ u, current? = some u → u = .record r fields ∧ s.heap.Holds (.record r fields))
    (hu : (Layout.record r fields).Unaliased) (hsteps : (Layout.record r fields).steps ≤ steps + 1) :
    Finishes tracked (Layout.nodeCount (fields.map Prod.snd))
      (fun _ s' => Spared r (Layout.refsOf (fields.map Prod.snd)) s.heap s'.heap)
      (visitBelow f steps ⟨(current?.map Layout.datum).getD .null, skipped⟩) s := by
  have hidle {x : WalkM (σ × List Showing) Unit} (hx : x = pure ()) :
      Finishes tracked (Layout.nodeCount (fields.map Prod.snd))
        (fun _ s' => Spared r (Layout.refsOf (fields.map Prod.snd)) s.heap s'.heap) x s := by
    rw [hx]
    exact (Finishes.pure (Spared.refl _ _ _)).mono (Nat.zero_le _) fun _ _ hs => hs
  cases hc : current? with
  | none => exact hidle (Walker.visitBelow_gone _ _ _)
  | some u =>
    obtain ⟨rfl, hh⟩ := hcurrent u hc
    cases skipped with
    | true => exact hidle (Walker.visitBelow_skipped _ _ _)
    | false =>
      obtain ⟨hkeys, hnull⟩ := hu.keys_record
      have hothers : ∀ key ∈ Fields.keys fields, key ≠ .null ∧
          key ∉ Fields.keys ([] : Fields Key Datum) ∧ key ∉ Fields.keys ([] : Fields Key Datum) :=
        fun key hk => ⟨fun e => hnull (e ▸ hk), List.not_mem_nil, List.not_mem_nil⟩
      rw [Option.map_some, Option.getD_some, Layout.datum_record, Walker.visitBelow_ref]
      refine .of_eq (Walker.visitFields_eq hh.fields?) ?_
      rw [Layout.keys_data]
      refine visitFields_finishes hf [] [] ?_ hkeys hothers (.fields hh hu hsteps)
      rw [((Heap.holds_record_iff _ _ _).1 hh).1, List.append_nil, List.nil_append]

end

/-! ## The visit of a node -/

section

variable {w : Walker σ} (hw : w.Prunes) {root : Datum} {r : Ref} {fields : List (Key × Layout)}
  {slot : Heap.Slot} {current? : Option Layout} {s : World (σ × List Showing)}

include hw

/-- To come to a node finishes, with one entry. The node then still stands in its place, as it is, or nothing
    does. -/
theorem arrive_finishes (hs : s.heap.Holds (.record r fields))
    (hh : Hangs s.heap slot (.record r fields) (Layout.record r fields).refs) :
    Finishes w.tracked 1
      (fun e s' => ∃ current? : Option Layout, e.current = (current?.map Layout.datum).getD .null ∧
        (∀ u, current? = some u → u = .record r fields ∧ s'.heap.Holds (.record r fields)) ∧
        Settled s.heap slot (Layout.record r fields).refs (.standing current?) s'.heap)
      (w.recorded.arrive root r slot) s := by
  refine (Walker.follow_finishes w .enter r s).bind (n := 1) fun _ s₁ h₁ => ?_
  refine (Walker.call_finishes hw .enter ⟨r, slot, root⟩ s₁).bind (n := 0) ?_
  rintro q s₂ ⟨hgrow, hq⟩
  refine (Walker.makeEnter_finishes w ⟨r, slot, root⟩ q s₂).mono (Nat.le_refl _) ?_
  rintro _ s₃ ⟨rfl, h₃⟩
  rw [h₁] at hgrow
  have hend : Settled s.heap slot (Layout.record r fields).refs (q.outcome (some (.record r fields))) s₃.heap := by
    rw [h₃]
    exact ((Settled.start hh).grow hgrow).request hh q
  unfold Request.outcome at hend
  rw [hq rfl] at hend ⊢
  by_cases hr : q.removed = true
  · rw [if_pos hr] at hend ⊢
    exact ⟨none, rfl, fun u hu => (Option.some_ne_none _ hu.symm).elim, hend⟩
  · rw [if_neg hr] at hend ⊢
    refine ⟨some (.record r fields), rfl, ?_, hend⟩
    rintro _ ⟨⟩
    refine ⟨rfl, ?_⟩
    rw [h₃, Request.edit, if_neg hr, hq rfl]
    exact hs.grow hgrow

/-- To go away from a node finishes, and shows no node on entering. -/
theorem depart_finishes {h : Heap} {e : Walker.Entered} (he : e.current = (current?.map Layout.datum).getD .null)
    (hcurrent : ∀ u, current? = some u → u = .record r fields)
    (hh : Hangs h slot (.record r fields) (Layout.record r fields).refs)
    (hs : Settled h slot (Layout.record r fields).refs (.standing current?) s.heap) :
    Finishes w.tracked 0
      (fun d s' => ∃ o : Outcome, d = o.datum ∧ d.isNull = o.layout?.isNone ∧
        Settled h slot (Layout.record r fields).refs o s'.heap)
      (w.recorded.depart root r slot e) s := by
  have hnull : ∀ t, current? = some t → t.datum.isNull = false := by
    intro t ht
    rw [hcurrent t ht]
    rfl
  have hgone : e.current.isNull = current?.isNone := by
    rw [he]
    cases hc : current? with
    | none => rfl
    | some t => exact hnull t hc
  refine (Walker.follow_finishes w .leave r s).bind (n := 0) fun _ s₁ h₁ => ?_
  refine (Walker.call_finishes hw .leave ⟨r, slot, root⟩ s₁).bind (n := 0) ?_
  rintro q s₂ ⟨hgrow, -⟩
  rw [h₁] at hgrow
  refine (Walker.makeLeave_finishes w ⟨r, slot, root⟩ e q s₂).mono (Nat.le_refl _) ?_
  rintro _ s₃ ⟨rfl, h₃⟩
  have hd : (if q.removed then .null else q.effective?.getD e.current) = (q.outcome current?).datum := by
    rw [he, Request.datum_outcome]
  rw [hd]
  refine ⟨q.outcome current?, rfl, Request.isNull_outcome hnull, ?_⟩
  rw [h₃, hgone]
  exact (hs.grow hgrow).request hh q

/-- To visit a node finishes, if the walk has enough steps and nothing is replaced on entering. The induction is on
    the steps: there is one less below the node, and each of its parts needs at least one less. -/
theorem visit_finishes (root : Datum) (steps : Nat) :
    VisitFinishes w.tracked steps (w.recorded.visit root steps) := by
  induction steps with
  | zero =>
    intro slot r fields s _ _ _ hsteps _
    rw [Layout.steps_record] at hsteps
    omega
  | succ steps ih =>
    intro slot r fields s hn hu hs hsteps hh
    have hsub : r :: Layout.refsOf (fields.map Prod.snd) ⊆ (Layout.record r fields).refs := by
      rw [Layout.refs_record]
      exact List.Subset.refl _
    rw [Walker.visit_eq_visitBy, Walker.visitBy, ← Walker.visit_eq_visitBy, Layout.nodeCount_record hn]
    refine (arrive_finishes hw hs hh).bind ?_
    rintro ⟨_, skipped⟩ s₁ ⟨current?, rfl, hcurrent, hs₁⟩
    refine (visitBelow_finishes ih hcurrent hu hsteps).bind (n := 0) fun _ s₂ h₂ => ?_
    exact depart_finishes hw rfl (fun u hu => (hcurrent u hu).1) hh (hs₁.spare h₂ hsub)

end

/-! ## Walks -/

/-- An action whose recording finishes comes to an end, unless a tracker stops it with a fault. -/
theorem WalkM.Finishes.of_related {tracked : Bool} {n : Nat} {Q : α → World (σ × List Showing) → Prop}
    {x : WalkM σ α} {y : WalkM (σ × List Showing) α} {s : World σ} {s' : World (σ × List Showing)}
    (hxy : WalkM.Related (fun u (u' : σ × List Showing) => u = u'.1) x y)
    (hs : World.Related (fun u (u' : σ × List Showing) => u = u'.1) s s') (h : Finishes tracked n Q y s') :
    (tracked = false → ∃ a s₁, x s = .ok a s₁) ∧ ∀ s₁, x s ≠ .error .outOfSteps s₁ := by
  have hends := hxy s s' hs
  unfold Finishes at h
  generalize y s' = result at h hends
  generalize x s = result' at hends ⊢
  cases hends with
  | @ok a s₁ _ _ => exact ⟨fun _ => ⟨a, s₁, rfl⟩, fun _ heq => by cases heq⟩
  | @error e _ _ _ =>
    cases e with
    | outOfSteps => exact h.elim
    | fault f => exact ⟨fun hnone => absurd h.1 (by simp [hnone]), fun _ heq => by cases heq⟩

/-- A walk of a tree without sharing comes to an end when nothing is replaced on entering, whatever is skipped and
    removed, and whatever nodes are put in place of others on leaving: it never uses up its steps, and without a
    tracker it always returns. It enters no more nodes than there are in the tree. -/
theorem walk_finishes {w : Walker σ} (hw : w.Prunes) {t : Layout} (hn : t.isNode = true) (hu : t.Unaliased)
    {s : World σ} (hs : s.heap.Holds t) {steps : Nat} (hsteps : t.steps ≤ steps) :
    (w.tracked = false → ∃ d s', w.walk steps t.datum s = .ok d s') ∧
      (∀ s', w.walk steps t.datum s ≠ .error .outOfSteps s') ∧
      entries (w.log steps t.datum s) ≤ Layout.nodeCount [t] := by
  cases t with
  | scalar _ => cases hn
  | list _ _ => cases hn
  | record r fields =>
    have hnode : (s.withUser (s.user, ([] : List Showing))).heap.isNode (.ref r) = true := hs.isNode.trans hn
    have hwalk := WalkM.Finishes.of_eq (Walker.walk_node hnode) <|
      visit_finishes hw (.ref r) steps .root r fields (s.withUser (s.user, [])) hn hu hs hsteps (.root _ _ _)
    have htracked : w.tracked = w.recorded.tracked := rfl
    have hrelated := Walker.walk_related htracked w.recorded_call_related steps (.ref r)
    obtain ⟨hreturns, hsteps⟩ := hwalk.of_related hrelated ⟨rfl, rfl, rfl, rfl⟩
    refine ⟨hreturns, hsteps, ?_⟩
    unfold Finishes at hwalk
    rw [Layout.datum_record, Walker.log]
    cases hrun : w.recorded.walk steps (.ref r) (s.withUser (s.user, [])) with
    | ok d s' =>
      rw [hrun] at hwalk
      simpa [World.withUser, entries] using hwalk.2
    | error e s' =>
      rw [hrun] at hwalk
      cases e with
      | outOfSteps => exact hwalk.elim
      | fault f => simpa [World.withUser, entries] using hwalk.2

namespace Sample

/-- Takes the first node out on entering, and puts a new one in its place on leaving. -/
def pruner : Walker Unit where
  enter? := some fun v => pure (if v.node = 2 then Request.empty.remove else .empty)
  leave? := walker.leave?
  tracked := false

theorem prunes_pruner : pruner.Prunes := by
  refine ⟨?_, ?_, ?_⟩
  · rintro (_ | _) c hc
    · cases hc
      intro v s q s' h
      cases h
      exact .refl _
    · exact onlyAsks .leave c hc
  · rintro (_ | _) c hc v s
    · cases hc
      exact ⟨_, _, rfl⟩
    · cases hc
      by_cases hv : v.node = 2
      · exact ⟨_, _, if_pos hv⟩
      · exact ⟨_, _, if_neg hv⟩
  · intro c hc v s q s' h
    cases hc
    cases h
    by_cases hv : v.node = 2
    · rw [if_pos hv, Request.effective?_remove]
    · rw [if_neg hv]
      rfl

theorem walk_finishes_program :
    (∃ d s', pruner.walk 11 (.ref 0) (program 2 3 []) = .ok d s') ∧
      (∀ s', pruner.walk 11 (.ref 0) (program 2 3 []) ≠ .error .outOfSteps s') ∧
      entries (pruner.log 11 (.ref 0) (program 2 3 [])) ≤ 3 := by
  have hs : (program 2 3 []).heap.Holds tree := by decide
  have hsteps : tree.steps ≤ 11 := by decide
  obtain ⟨hreturns, hrest⟩ := walk_finishes prunes_pruner (by decide) (by decide) hs hsteps
  exact ⟨hreturns rfl, hrest⟩

end Sample

end Arbor
