import Arbor.Proofs.Walk.Changes
import Arbor.Proofs.Walk.Editing

set_option autoImplicit false

/-! # The visit of a node

On entering and on leaving a node its slot is edited once each, as the callback asks, and between
that its children are visited. The two edits of the slot come to one edit (`Request.edit_edit`): what
stands in the slot on the way does not matter to what stands there at the end. With what is known
of the children it follows by induction on the number of steps that every visit follows the rules and
leaves what they tell (`visit_sound`). -/

namespace Arbor

variable {σ : Type}

/-! ## What stands in the place of a node on the way -/

/-- What has become of a node so far, when `current?` stands in its place. -/
def Outcome.standing : Option Layout → Outcome
  | none => .gone
  | some t => .inPlace t

@[simp] theorem Outcome.layout?_standing (current? : Option Layout) :
    (standing current?).layout? = current? := by
  cases current? <;> rfl

/-- What stands in the place of a node after entering is what a request on leaving would make of the
    node itself. -/
theorem Answer.left_some (a : Answer) (t : Layout) :
    a.left (some t) = .standing (a.entered t) := by
  unfold left entered
  by_cases hr : a.removed = true
  · simp only [hr, if_true, Outcome.standing]
  · simp only [hr, Bool.false_eq_true, if_false, Outcome.standing]
    cases a.replacement? <;> rfl

theorem Answer.layout?_left {a : Answer} {current? : Option Layout} {u : Layout}
    (h : (a.left current?).layout? = some u) : a.replacement? = some u ∨ current? = some u := by
  obtain ⟨removed, _, replacement?⟩ := a
  unfold left at h
  split at h
  · cases h
  · cases replacement? <;> cases current? <;> cases h
    · exact .inr rfl
    · exact .inl rfl
    · exact .inl rfl

/-- A node that is read back is read back from where it lies. -/
theorem Heap.datum_layout {h : Heap} {d : Datum} (hn : (h.layout d).isNode = true) :
    (h.layout d).datum = d := by
  unfold layout at hn ⊢
  cases d with
  | scalar s => cases h.cells.size <;> rfl
  | ref r =>
    cases hs : h.cells.size with
    | zero => rw [hs] at hn; cases hn
    | succ depth =>
      rw [hs] at hn
      rw [layoutWithin] at hn ⊢
      split at hn
      · cases hn
      · rfl
      · cases hn

/-! ## What a request makes of a slot -/

/-- A layout of which nothing is said but where it lies. -/
def Layout.bare : Datum → Layout
  | .scalar s => .scalar s
  | .ref r => .record r []

@[simp] theorem Layout.datum_bare (d : Datum) : (bare d).datum = d := by
  cases d <;> rfl

/-- What a request makes of what stands in the place of a node. Nothing is said of the replacement but where
    it lies. -/
def Request.outcome (q : Request) (current? : Option Layout) : Outcome :=
  if q.removed then .gone
  else match q.effective?, current? with
    | some d, some _ => .inPlace (.bare d)
    | some d, none => .putBack (.bare d)
    | none, _ => .standing current?

theorem Request.datum_outcome (q : Request) (current? : Option Layout) :
    (q.outcome current?).datum =
      if q.removed then .null else q.effective?.getD ((current?.map Layout.datum).getD .null) := by
  unfold outcome
  by_cases hr : q.removed = true
  · rw [if_pos hr, if_pos hr]
    rfl
  · rw [if_neg hr, if_neg hr]
    cases q.effective? with
    | none => cases current? <;> rfl
    | some d => cases current? <;> simp [Outcome.datum, Outcome.layout?]

/-- Outcomes that come to the same for the slot: what they bring into it lies in the same place. -/
inductive Outcome.Alike : Outcome → Outcome → Prop
  | gone : Alike .gone .gone
  | inPlace {t u : Layout} (h : t.datum = u.datum) : Alike (.inPlace t) (.inPlace u)
  | putBack {t u : Layout} (h : t.datum = u.datum) : Alike (.putBack t) (.putBack u)

theorem Outcome.Alike.datum {o o' : Outcome} (ho : o.Alike o') : o.datum = o'.datum := by
  cases ho with
  | gone => rfl
  | inPlace h => exact h
  | putBack h => exact h

theorem Outcome.Alike.edit {o o' : Outcome} (ho : o.Alike o') (slot : Heap.Slot) (h : Heap) :
    o.edit slot h = o'.edit slot h := by
  cases ho with
  | gone => rfl
  | inPlace hd => rw [Outcome.edit, Outcome.edit, hd]
  | putBack hd => rw [Outcome.edit, Outcome.edit, hd]

/-- A request makes of a slot what its answer tells. -/
theorem Request.outcome_alike {q : Request} {h : Heap} (current? : Option Layout)
    (hq : ∀ u, (q.answer h).replacement? = some u → u.isNode = true) :
    (q.outcome current?).Alike ((q.answer h).left current?) := by
  have hr : (q.answer h).removed = q.removed := rfl
  unfold outcome Answer.left
  rw [hr]
  split
  · exact .gone
  · rcases hd : q.effective? with _ | d
    · have ha : (q.answer h).replacement? = none := by rw [answer, hd]; rfl
      rw [ha]
      cases current? with
      | none => exact .gone
      | some c => exact .inPlace rfl
    · have ha : (q.answer h).replacement? = some (h.layout d) := by rw [answer, hd]; rfl
      have hdatum : (Layout.bare d).datum = (h.layout d).datum := by
        rw [Layout.datum_bare, Heap.datum_layout (hq _ ha)]
      rw [ha]
      cases current? with
      | none => exact .putBack hdatum
      | some c => exact .inPlace hdatum

/-! ## Two edits of a slot -/

section

variable {h h₁ h₂ : Heap} {slot : Heap.Slot} {q : Request} {current? : Option Layout}

/-- What stands in a slot on the way does not matter to what a request makes of it. -/
theorem Request.edit_standing (q : Request) (slot : Heap.Slot) (current? : Option Layout) (h : Heap) :
    q.edit slot current?.isNone ((Outcome.standing current?).edit slot h) =
      (q.outcome current?).edit slot h := by
  unfold edit outcome
  by_cases hr : q.removed = true
  · rw [if_pos hr, if_pos hr]
    cases current? with
    | none => rfl
    | some c => exact Heap.removeAt_replaceAt h slot c.datum
  · rw [if_neg hr, if_neg hr]
    cases q.effective? with
    | none => cases current? <;> rfl
    | some d =>
      cases current? with
      | none => simp [Outcome.edit, Outcome.standing]
      | some c => simp [Outcome.edit, Outcome.standing, Heap.replaceAt_replaceAt]

theorem Request.edit_edit
    (hq : ∀ u, (q.answer h₂).replacement? = some u → u.isNode = true) :
    q.edit slot current?.isNone ((Outcome.standing current?).edit slot h) =
      ((q.answer h₂).left current?).edit slot h := by
  rw [edit_standing, (outcome_alike current? hq).edit]

theorem Outcome.target?_edit (o : Outcome) : (o.edit slot h).target? slot = h.target? slot := by
  have hedit (h : Heap) (onFields : Fields Key Datum → Fields Key Datum)
      (onItems : Int → List Datum → List Datum) :
      (h.editSlot slot onFields onItems).target? slot = h.target? slot := by
    rcases ht : h.target? slot with _ | r
    · rw [Heap.editSlot_of_target?_eq_none _ _ ht, ht]
    · exact Heap.target?_editSlot _ _ ht
  cases o with
  | gone => exact hedit _ _ _
  | inPlace t => exact hedit _ _ _
  | putBack t => exact (hedit _ _ _).trans (hedit _ _ _)

/-! ## A request at a node -/

variable {t original : Layout} {area : List Ref}

theorem Hangs.target?_eq (hh : Hangs h slot t area) (o : Outcome)
    (ha : Heap.AgreeOn (fun x => x < h.cells.size ∧ x ∉ area) (o.edit slot h) h₂) :
    h₂.target? slot = (o.edit slot h).target? slot := by
  have hleads := hh.leads
  have htarget := hh.target
  have hparent := hh.parent
  rcases ht : h.target? slot with _ | r
  · cases hleads with
    | root => rfl
    | field hk hp hg => simp [Heap.target?_field hk hp] at ht
    | item hk hp hg hr => simp [Heap.target?_item _ hk hp hg hr] at ht
  · obtain ⟨parent, fields, hslot, -, hp, hr⟩ := Heap.target?_eq_some h slot ht
    have hlt : r < h.cells.size := by
      rcases hr with ⟨-, rfl⟩ | ⟨_, _, -, -, hr⟩
      · exact Heap.cell?_lt hp
      · exact Heap.cell?_lt hr
    have ht' : (o.edit slot h).target? slot = some r := o.target?_edit.trans ht
    rw [ht']
    refine ha.target? ht' ⟨hlt, htarget r ht⟩ fun p hp' => ?_
    rw [hslot, Option.some.injEq] at hp'
    exact hp' ▸ ⟨Heap.cell?_lt hp, hparent parent hslot⟩

/-- What a request at a node leaves, on entering as on leaving: what it makes of what has stood in the
    place of the node. -/
theorem Left.change (hl : Left h slot area ⟨.standing current?, original⟩ h₁)
    (hh : Hangs h slot t area) (hg : h₁.Grows h₂)
    (hq : ∀ u, (q.answer h₂).replacement? = some u →
      u.isNode = true ∧ h₂.Holds u ∧ u.refs ⊆ area) :
    Left h slot area ⟨(q.answer h₂).left current?, original⟩
      (q.edit slot current?.isNone h₂) := by
  have hagree : Heap.AgreeOn (fun x => x < h.cells.size ∧ x ∉ area)
      ((Outcome.standing current?).edit slot h) h₂ := by
    rintro x ⟨hx, hmem⟩
    rw [hg.cell? x (hx.trans_le hl.size_le), hl.frame x hx hmem]
  have htarget := hh.target?_eq _ hagree
  -- the slot is not in a cell that stands, stood or may come to stand in it
  have hothers {u : Layout} (hu : h₂.Holds u) (hsub : u.refs ⊆ area) :
      (q.edit slot current?.isNone h₂).Holds u := by
    refine hu.of_agree fun x hx => Request.cell?_edit_of_ne fun ht => ?_
    rw [htarget, Outcome.target?_edit] at ht
    exact hh.target x ht (hsub hx)
  have hnew {u : Layout} (hu : ((q.answer h₂).left current?).layout? = some u) :
      h₂.Holds u ∧ u.refs ⊆ area ∧ ∃ r, u.datum = .ref r := by
    rcases Answer.layout?_left hu with ha | hc
    · obtain ⟨hn, hu, hsub⟩ := hq u ha
      refine ⟨hu, hsub, ?_⟩
      cases u with
      | record r fields => exact ⟨r, rfl⟩
      | scalar _ => cases hn
      | list _ _ => cases hn
    · have hc := (Outcome.layout?_standing current?).trans hc
      exact ⟨(hl.holds u hc).grow hg, hl.refs u hc, hl.ref u hc⟩
  refine ⟨?_, ?_, fun u hu => hothers (hnew hu).1 (hnew hu).2.1, fun u hu => (hnew hu).2.1,
    fun u hu => (hnew hu).2.2, hothers (hl.original.grow hg) hl.original_refs, hl.original_refs⟩
  · rw [Request.size_edit]
    exact hl.size_le.trans hg.size_le
  · intro x hx hmem
    rw [Request.agreeOn_edit hagree htarget x ⟨hx, hmem⟩,
      Request.edit_edit fun u hu => (hq u hu).1]

/-- Before anything is done the node itself stands in its place. -/
theorem Left.start (ht : h.Holds t) (hh : Hangs h slot t area) (hr : ∃ r, t.datum = .ref r)
    (hsub : t.refs ⊆ area) : Left h slot area ⟨.standing (some t), t⟩ h := by
  refine ⟨le_rfl, ?_, ?_, ?_, ?_, ht, hsub⟩
  · intro x _ _
    rw [Outcome.standing, Outcome.edit, hh.leads.replaceAt_self]
  · rintro u ⟨⟩
    exact ht
  · rintro u ⟨⟩
    exact hsub
  · rintro u ⟨⟩
    exact hr

/-- The walk sees whether anything stands in the place of a node by what it goes on with. -/
theorem Left.isNull_current (hl : Left h slot area ⟨.standing current?, original⟩ h₁) :
    ((current?.map Layout.datum).getD .null).isNull = current?.isNone := by
  cases current? with
  | none => rfl
  | some c =>
    obtain ⟨r, hr⟩ := hl.ref c rfl
    simp [hr, Datum.isNull, Datum.null]

/-! ## The visits below a node -/

/-- What stands in the place of a node keeps its cell while its children are visited. -/
theorem Left.below {r : Ref} {fields fields' : List (Key × Layout)} {area' : List Ref}
    {outcomes : List Outcome} {original' : Layout}
    (hl : Left h slot area ⟨.standing (some (.record r fields)), original⟩ h₁)
    (hp : Parts r area' outcomes h₁ h₂) (hr : r ∈ area) (hsub : area' ⊆ area)
    (hu : h₂.Holds (.record r fields')) (hu' : (Layout.record r fields').refs ⊆ area)
    (ho : h₂.Holds original') (ho' : original'.refs ⊆ area) :
    Left h slot area ⟨.standing (some (.record r fields')), original'⟩ h₂ := by
  refine ⟨hl.size_le.trans hp.size_le, ?_, ?_, ?_, ?_, ho, ho'⟩
  · intro x hx hmem
    rw [hp.frame x (hx.trans_le hl.size_le) (fun e => hmem (e ▸ hr)) (fun h => hmem (hsub h)),
      hl.frame x hx hmem]
    rfl
  · rintro u ⟨⟩
    exact hu
  · rintro u ⟨⟩
    exact hu'
  · rintro u ⟨⟩
    exact ⟨r, rfl⟩

end

theorem Rewriting.mem_kept_append_moved {outcomes : List (Key × Outcome)} {f : Key × Layout}
    (hf : f ∈ kept outcomes ++ moved outcomes) :
    ∃ o ∈ outcomes.map Prod.snd, o.layout? = some f.2 := by
  rcases List.mem_append.1 hf with hf | hf <;> obtain ⟨⟨key, o⟩, ho, hf⟩ := List.mem_filterMap.1 hf <;>
    refine ⟨o, List.mem_map_of_mem ho, ?_⟩ <;> cases o <;> cases hf <;> rfl

/-- The record that is rebuilt lies where it lay, and otherwise in the area of its parts. -/
theorem Parts.refs_rebuilt {r own : Ref} {area : List Ref} {outcomes : List (Key × Outcome)}
    {h h' : Heap} (hp : Parts own area (outcomes.map Prod.snd) h h') :
    (Layout.record r (Rewriting.kept outcomes ++ Rewriting.moved outcomes)).refs ⊆ r :: area := by
  intro x hx
  rw [Layout.refs_record, List.mem_cons] at hx
  rcases hx with rfl | hx
  · exact List.mem_cons_self ..
  · obtain ⟨u, hu, hx⟩ := Layout.mem_refsOf.1 hx
    obtain ⟨field, hfield, rfl⟩ := List.mem_map.1 hu
    obtain ⟨o, ho, hu⟩ := Rewriting.mem_kept_append_moved hfield
    exact List.mem_cons_of_mem _ (hp.refs o ho _ hu hx)

section

variable {f : Ref → Heap.Slot → WalkM (σ × List Showing) Datum} {V : VisitRel (σ × List Showing)}
  {s s' : World (σ × List Showing)} {log : List Showing}
  (hext : ∀ r slot, (f r slot).Extends) (hf : VisitSound f V)

include hext hf

/-- The visits in the fields of a record leave it rebuilt from what has become of them. -/
theorem visitFields_rebuilds {r : Ref} {fields : List (Key × Layout)} {steps : Nat} {u : Unit}
    (hrun : Walker.visitFields f steps (.ref r) s = .ok u s')
    (hlog : s'.user.2 = s.user.2 ++ log) (ht : s.heap.Holds (.record r fields))
    (hu : (Layout.record r fields).Unaliased) (hproper : ∀ e ∈ log, e.Proper)
    (hnodup : (area [.record r fields] log).Nodup) :
    ∃ outcomes, VisitsFields V r fields s log outcomes s' ∧
      Parts r (area (fields.map Prod.snd) log) (outcomes.map Prod.snd) s.heap s'.heap ∧
      s'.heap.Holds (.record r (Rewriting.kept outcomes ++ Rewriting.moved outcomes)) := by
  obtain ⟨hc, hfields⟩ := (Heap.holds_record_iff _ _ _).1 ht
  rw [Walker.visitFields_eq ht.fields?, Layout.keys_data] at hrun
  obtain ⟨hkeys, hnull⟩ := hu.keys_record
  rw [area_record, List.nodup_cons] at hnodup
  have hready : Ready s.heap r (fields.map Prod.snd) log := by
    refine ⟨?_, ?_, hproper, hnodup.2, hnodup.1, ht.lt (by simp)⟩
    · intro t ht
      obtain ⟨field, hmem, rfl⟩ := List.mem_map.1 ht
      exact hfields field hmem
    · intro t ht
      obtain ⟨field, hmem, rfl⟩ := List.mem_map.1 ht
      exact hu.field hmem
  obtain ⟨outcomes, hv, hparts, hcell⟩ := visitFields_sound hext hf [] [] hrun
    hlog (by simpa using hc) hkeys
    (fun key hk => ⟨fun e => hnull (e ▸ hk), List.not_mem_nil, List.not_mem_nil⟩) hready
  refine ⟨outcomes, hv, hparts, (Heap.holds_record_iff _ _ _).2 ⟨?_, ?_⟩⟩
  · rw [hcell, Layout.data_append]
    rfl
  · intro field hmem
    obtain ⟨o, ho, hu⟩ := Rewriting.mem_kept_append_moved hmem
    exact hparts.holds o ho _ hu

/-- The visits below what stands in the place of `t` after entering. If that is another node
    (`replaced`), then `t` stays as it is. -/
theorem visitBelow_sound {h : Heap} {slot : Heap.Slot} {t : Layout} {area' : List Ref}
    {entered? : Option Layout} {skipped : Bool} (replaced : Bool) {steps : Nat} {u : Unit}
    (hrun : Walker.visitBelow f steps ⟨(entered?.map Layout.datum).getD .null, skipped⟩ s = .ok u s')
    (hlog : s'.user.2 = s.user.2 ++ log)
    (hl : Left h slot area' ⟨.standing entered?, t⟩ s.heap) (hproper : ∀ e ∈ log, e.Proper)
    (hnode : ∀ u, entered? = some u → u.isNode = true ∧ u.Unaliased ∧ (area [u] log).Nodup ∧
      area [u] log ⊆ area')
    (hsame : replaced = false → ∀ u, entered? = some u → u = t)
    (hother : replaced = true → ∀ u, entered? = some u → ∀ x ∈ t.refs, x ∉ area [u] log) :
    ∃ current?, VisitsBelow V skipped entered? s log current? s' ∧
      current?.map Layout.datum = entered?.map Layout.datum ∧
      Left h slot area' ⟨.standing current?, if replaced then t else current?.getD t⟩ s'.heap := by
  cases entered? with
  | none =>
    rw [Option.map_none, Option.getD_none, Walker.visitBelow_gone] at hrun
    cases hrun
    cases log_eq_nil hlog
    exact ⟨none, .gone, rfl, by simpa using hl⟩
  | some v =>
    obtain ⟨hv, hu, hnodup, hsub⟩ := hnode v rfl
    cases skipped with
    | true =>
      rw [Walker.visitBelow_skipped] at hrun
      cases hrun
      cases log_eq_nil hlog
      refine ⟨some v, .skipped, rfl, ?_⟩
      cases replaced with
      | true => exact hl
      | false => simpa [hsame rfl v rfl] using hl
    | false =>
      cases v with
      | scalar _ => cases hv
      | list _ _ => cases hv
      | record r fields =>
        rw [Option.map_some, Option.getD_some, Layout.datum_record, Walker.visitBelow_ref] at hrun
        obtain ⟨outcomes, hvisits, hparts, hholds⟩ := visitFields_rebuilds hext hf hrun hlog
          (hl.holds _ rfl) hu hproper hnodup
        rw [area_record] at hsub
        have hr : r ∈ area' := hsub (List.mem_cons_self ..)
        have hparts_sub : area (fields.map Prod.snd) log ⊆ area' := fun x hx =>
          hsub (List.mem_cons_of_mem _ hx)
        have hrefs := List.Subset.trans hparts.refs_rebuilt hsub
        refine ⟨_, .walked hvisits, rfl, ?_⟩
        cases replaced with
        | true =>
          refine hl.below hparts hr hparts_sub hholds hrefs ?_ hl.original_refs
          -- the node that was replaced lies outside all that is walked
          refine hl.original.of_agree fun x hx => ?_
          have hne := hother rfl _ rfl x hx
          rw [area_record, List.mem_cons, not_or] at hne
          exact hparts.frame x (hl.original.lt hx) hne.1 hne.2
        | false => exact hl.below hparts hr hparts_sub hholds hrefs hholds hrefs

end

/-! ## The visit of a node -/

/-- What a walk returns for what a request makes of a node. -/
theorem Request.datum_left {q : Request} {h : Heap} (current? : Option Layout)
    (hq : ∀ u, (q.answer h).replacement? = some u → u.isNode = true) :
    ((q.answer h).left current?).datum =
      if q.removed then .null
      else q.effective?.getD ((current?.map Layout.datum).getD .null) := by
  rw [← (outcome_alike current? hq).datum, datum_outcome]

/-- What a walk goes on with after entering is what then stands in the place of the node. -/
theorem Request.datum_entered {q : Request} {h : Heap} (t : Layout)
    (hq : ∀ u, (q.answer h).replacement? = some u → u.isNode = true) :
    (((q.answer h).entered t).map Layout.datum).getD .null =
      if q.removed then .null else q.effective?.getD t.datum := by
  have hdatum := Request.datum_left (some t) hq
  rw [Answer.left_some, Outcome.datum, Outcome.layout?_standing] at hdatum
  exact hdatum

section

variable {h h₁ : Heap} {slot : Heap.Slot} {t : Layout} {ts : List Layout} {e : Showing}
  {log : List Showing} {current? : Option Layout} {original : Layout}

/-- The replacement that a call asks for lies in the area of the visit. -/
theorem Showing.replacement (hproper : ∀ e ∈ log, e.Proper) (he : e ∈ log) (u : Layout)
    (hu : e.answer.replacement? = some u) :
    u.isNode = true ∧ e.heap.Holds u ∧ u.refs ⊆ area ts log := by
  obtain ⟨hn, -, hholds⟩ := hproper e he u hu
  refine ⟨hn, hholds, fun x hx => mem_area.2 (.inr (List.mem_flatMap.2 ⟨e, he, ?_⟩))⟩
  simpa [Showing.made, hu] using hx

/-- What a call at a node leaves. -/
theorem Left.call (hl : Left h slot (area ts log) ⟨.standing current?, original⟩ h₁)
    (hh : Hangs h slot t (area ts log)) (hproper : ∀ e ∈ log, e.Proper) (he : e ∈ log)
    (hg : h₁.Grows e.heap) :
    Left h slot (area ts log) ⟨e.answer.left current?, original⟩
      (e.request.edit slot current?.isNone e.heap) :=
  hl.change hh hg (Showing.replacement hproper he)

/-- What stands in the place of a node after entering is a node without sharing. -/
theorem Showing.Proper.entered (hproper : e.Proper) (hn : t.isNode = true) (ht : t.Unaliased)
    {u : Layout} (hu : e.answer.entered t = some u) : u.isNode = true ∧ u.Unaliased := by
  rcases Answer.entered_eq_some hu with ha | ⟨-, rfl⟩
  · exact ⟨(hproper u ha).1, (hproper u ha).2.1⟩
  · exact ⟨hn, ht⟩

end

/-- A visit that comes to an end, part by part. It notes down that the node is entered, what is noted below, and
    that the node is left. -/
theorem Walker.visit_recorded_eq_ok {w : Walker σ} {root d : Datum} {steps : Nat} {r : Ref} {slot : Heap.Slot}
    {s s' : World (σ × List Showing)} {log : List Showing}
    (hrun : w.recorded.visit root (steps + 1) r slot s = .ok d s') (hlog : s'.user.2 = s.user.2 ++ log) :
    ∃ s₁ q s₂ entered s₃ s₄ s₅ q' s₆ inner,
      (w.recorded.follow .enter r s = .ok () s₁ ∧ w.recorded.call .enter ⟨r, slot, root⟩ s₁ = .ok q s₂ ∧
        w.recorded.makeEnter ⟨r, slot, root⟩ q s₂ = .ok entered s₃) ∧
      Walker.visitBelow (w.recorded.visit root steps) steps entered s₃ = .ok () s₄ ∧
      (w.recorded.follow .leave r s₄ = .ok () s₅ ∧ w.recorded.call .leave ⟨r, slot, root⟩ s₅ = .ok q' s₆ ∧
        w.recorded.makeLeave ⟨r, slot, root⟩ entered q' s₆ = .ok d s') ∧
      s₄.user.2 = s₃.user.2 ++ inner ∧
      log = ⟨.enter, ⟨r, slot, root⟩, s₁.tracker, q, s₂.heap⟩ ::
        (inner ++ [⟨.leave, ⟨r, slot, root⟩, s₅.tracker, q', s₆.heap⟩]) := by
  rw [Walker.visit_eq] at hrun
  obtain ⟨_, s₁, hfollow, hrun⟩ := Actions.bind_eq_ok.1 hrun
  obtain ⟨q, s₂, hcall, hrun⟩ := Actions.bind_eq_ok.1 hrun
  obtain ⟨entered, s₃, hmake, hrun⟩ := Actions.bind_eq_ok.1 hrun
  obtain ⟨_, s₄, hbelow, hrun⟩ := Actions.bind_eq_ok.1 hrun
  obtain ⟨_, s₅, hfollow', hrun⟩ := Actions.bind_eq_ok.1 hrun
  obtain ⟨q', s₆, hcall', hmake'⟩ := Actions.bind_eq_ok.1 hrun
  obtain ⟨inner, hinner⟩ :=
    (Walker.visitBelow_extends (w.visit_recorded_extends root steps) _ _).exists_log hbelow
  have hbefore : s₅.user.2 = s.user.2 ++ (⟨.enter, ⟨r, slot, root⟩, s₁.tracker, q, s₂.heap⟩ :: inner) := by
    rw [(Walker.follow_eq_ok hfollow').2, hinner, (Walker.makeEnter_leaves hmake).1.user,
      (Walker.recorded_call_eq_ok hcall).2, (Walker.follow_eq_ok hfollow).2, List.append_assoc]
    rfl
  have hafter : s'.user.2 = s₅.user.2 ++ [⟨.leave, ⟨r, slot, root⟩, s₅.tracker, q', s₆.heap⟩] := by
    rw [(Walker.makeLeave_leaves hmake').1.user, (Walker.recorded_call_eq_ok hcall').2]
  exact ⟨s₁, q, s₂, entered, s₃, s₄, s₅, q', s₆, inner, ⟨hfollow, hcall, hmake⟩, hbelow,
    ⟨hfollow', hcall', hmake'⟩, hinner, log_eq_append hlog hbefore hafter⟩

/-- The visits of a walk whose callbacks change the tree only by requests follow the rules, and leave
    in the heap what these tell. -/
theorem visit_sound {w : Walker σ} (hw : w.OnlyAsks) (root : Datum) (steps : Nat) :
    VisitSound (w.recorded.visit root steps) (Visits w.recorded root steps) := by
  induction steps with
  | zero => exact fun _ _ _ _ _ _ _ h => absurd h Actions.throw_eq_ok
  | succ steps ih =>
    intro slot r fields s d s' log hrun hlog hnode hu hholds hproper hnodup hhangs
    obtain ⟨s₁, q, s₂, e, s₃, s₄, s₅, q', s₆, inner, ⟨hfollow, hcall, hmake⟩, hbelow,
      ⟨hfollow', hcall', hmake'⟩, hinner, rfl⟩ := Walker.visit_recorded_eq_ok hrun hlog
    obtain ⟨hask, -⟩ := Walker.recorded_call_eq_ok hcall
    obtain ⟨hask', -⟩ := Walker.recorded_call_eq_ok hcall'
    obtain ⟨hheap₁, -⟩ := Walker.follow_eq_ok hfollow
    obtain ⟨hheap₅, -⟩ := Walker.follow_eq_ok hfollow'
    obtain ⟨hleaves, he⟩ := Walker.makeEnter_leaves hmake
    obtain ⟨hleaves', hd⟩ := Walker.makeLeave_leaves hmake'
    have hgrow : s₁.heap.Grows s₂.heap := hw.call .enter _ _ _ _ hask
    have hgrow' : s₅.heap.Grows s₆.heap := hw.call .leave _ _ _ _ hask'
    have hmem := List.mem_cons_self (a := (⟨.enter, ⟨r, slot, root⟩, s₁.tracker, q, s₂.heap⟩ : Showing))
      (l := inner ++ [⟨.leave, ⟨r, slot, root⟩, s₅.tracker, q', s₆.heap⟩])
    -- entering
    have hstart := Left.start hholds hhangs ⟨r, rfl⟩
      (fun x hx => mem_area.2 (.inl (by simpa using hx)))
    have hentered := hstart.call hhangs hproper hmem (hheap₁ ▸ hgrow)
    rw [Answer.left_some] at hentered
    have hcurrent : e = ⟨((((q.answer s₂.heap).entered (.record r fields)).map Layout.datum).getD
        .null), q.skipped⟩ := by
      rw [he, Request.datum_entered _ fun u hu => (hproper _ hmem u hu).1]
      rfl
    -- below
    rw [hcurrent] at hbelow
    have hent := fun u hu' => Showing.entered_area (u := u) hu' hnodup
    obtain ⟨current?, hv, hdatum, hleft⟩ := visitBelow_sound (w.visit_recorded_extends root steps) ih
      (q.answer s₂.heap).replacement?.isSome hbelow hinner (hleaves.heap ▸ hentered)
      (fun e he => hproper e (List.mem_cons_of_mem _ (List.mem_append_left _ he)))
      (fun u hu' => and_assoc.1
        ⟨(hproper _ hmem).entered hnode hu hu', (hent u hu').nodup, (hent u hu').sub⟩)
      (fun h u hu' => (hent u hu').same h) (fun h u hu' => (hent u hu').apart h)
    -- leaving
    have hmem' := List.mem_append_right
      (⟨.enter, ⟨r, slot, root⟩, s₁.tracker, q, s₂.heap⟩ :: inner)
      (List.mem_singleton_self (⟨.leave, ⟨r, slot, root⟩, s₅.tracker, q', s₆.heap⟩ : Showing))
    have hend := hleft.call hhangs hproper hmem' (hheap₅ ▸ hgrow')
    have hgone : e.current.isNull = current?.isNone := by
      rw [hcurrent, ← hdatum, hleft.isNull_current]
    refine ⟨_, .node hfollow hcall hmake hv hfollow' hcall' hmake', ?_, ?_⟩
    · rw [hd, hcurrent, ← hdatum]
      exact (Request.datum_left _ fun u hu => (hproper _ hmem' u hu).1).symm
    · rw [hleaves'.heap, hgone]
      exact hend

end Arbor
