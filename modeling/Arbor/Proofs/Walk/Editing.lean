import Arbor.Proofs.Walk.Visits

set_option autoImplicit false

/-! # Edits of a tree in place

A walk edits lists and records in place while it goes through them. This module shows that on a tree
without sharing, and with callbacks that change the tree only by what they ask for, it follows the
rules of `Visits`, and that it leaves in the heap what these rules tell (`visit_sound`).

What carries the proof is a frame: outside the cells of a node, its visit changes nothing but the
slot that the node hangs in, and that by one edit (`Left`). The elements of a list and the fields of
a record are then visited one by one, each leaving the others as they were (`Parts`). -/

namespace Arbor

variable {σ : Type}

/-! ## Callbacks that change the tree only by requests -/

/-- A callback that leaves the cells that are there as they are. It may look at everything, make new
    cells, keep what it likes, and act on the tracker. -/
def Callback.OnlyAsks (c : Callback σ) : Prop :=
  ∀ v s q s', c v s = .ok q s' → s.heap.Grows s'.heap

/-- A walk whose callbacks change the tree only by requests. -/
def Walker.OnlyAsks (w : Walker σ) : Prop := ∀ phase c, w.callback? phase = some c → c.OnlyAsks

theorem Walker.OnlyAsks.call {w : Walker σ} (hw : w.OnlyAsks) (phase : Phase) :
    (w.call phase).OnlyAsks := by
  refine Walker.call_of ?_ (hw phase)
  intro v s q s' h
  obtain ⟨_, rfl⟩ := Actions.pure_eq_ok.1 h
  exact .refl _

/-! ## What a visit leaves -/

/-- The edit of a slot that brings in what becomes of the node in it. -/
def Outcome.edit (slot : Heap.Slot) (h : Heap) : Outcome → Heap
  | gone => h.removeAt slot
  | inPlace t => h.replaceAt slot t.datum
  | putBack t => (h.removeAt slot).insertAt slot t.datum

/-- What the visit of a node leaves. Outside its area, and but for new cells, the heap is as it was
    with one edit of the slot. -/
structure Left (h : Heap) (slot : Heap.Slot) (area : List Ref) (fate : Fate) (h' : Heap) : Prop where
  size_le : h.cells.size ≤ h'.cells.size
  frame : ∀ x < h.cells.size, x ∉ area → h'.cell? x = (fate.outcome.edit slot h).cell? x
  holds : ∀ u, fate.outcome.layout? = some u → h'.Holds u
  refs : ∀ u, fate.outcome.layout? = some u → u.refs ⊆ area
  ref : ∀ u, fate.outcome.layout? = some u → ∃ r, u.datum = .ref r
  original : h'.Holds fate.original
  original_refs : fate.original.refs ⊆ area

/-- A layout hangs in a slot: the slot holds it, and lies outside its area. -/
structure Hangs (h : Heap) (slot : Heap.Slot) (t : Layout) (area : List Ref) : Prop where
  leads : h.Leads t.datum slot
  parent : ∀ p, slot.parent? = some p → p ∉ area
  target : ∀ x, h.target? slot = some x → x ∉ area

/-- The slot of a root is in no cell. -/
theorem Hangs.root (h : Heap) (t : Layout) (area : List Ref) : Hangs h .root t area := by
  refine ⟨.root, ?_, ?_⟩
  · rintro p ⟨⟩
  · rintro x ⟨⟩

/-- It is enough that the cell which an edit of the slot changes, and the record that the slot is in,
    lie outside the area. -/
theorem Hangs.of_target {h : Heap} {slot : Heap.Slot} {t : Layout} {area : List Ref}
    {parent own : Ref} (hl : h.Leads t.datum slot) (hparent : slot.parent? = some parent)
    (htarget : h.target? slot = some own) (hp : parent ∉ area) (ho : own ∉ area) :
    Hangs h slot t area := by
  refine ⟨hl, ?_, ?_⟩
  · intro p hp'
    rw [hparent, Option.some.injEq] at hp'
    exact hp' ▸ hp
  · intro x hx
    rw [htarget, Option.some.injEq] at hx
    exact hx ▸ ho

/-- Visits by `f` follow the rules of `V` and leave what these tell. -/
def VisitSound (f : Ref → Heap.Slot → WalkM (σ × List Showing) Datum)
    (V : VisitRel (σ × List Showing)) : Prop :=
  ∀ slot r fields s d s' log, f r slot s = .ok d s' → s'.user.2 = s.user.2 ++ log →
    (Layout.record r fields).isNode = true → (Layout.record r fields).Unaliased →
    s.heap.Holds (.record r fields) → (∀ e ∈ log, e.Proper) →
    (area [.record r fields] log).Nodup →
    Hangs s.heap slot (.record r fields) (area [.record r fields] log) →
    ∃ fate, V slot (.record r fields) s log fate s' ∧ d = fate.outcome.datum ∧
      Left s.heap slot (area [.record r fields] log) fate s'.heap

/-! ## Parts visited one after the other -/

/-- The parts of a list or record that is laid out in the cell `own`, before they are visited. -/
structure Ready (h : Heap) (own : Ref) (ts : List Layout) (log : List Showing) : Prop where
  holds : ∀ t ∈ ts, h.Holds t
  unaliased : ∀ t ∈ ts, t.Unaliased
  proper : ∀ e ∈ log, e.Proper
  nodup : (area ts log).Nodup
  own_not_mem : own ∉ area ts log
  own_lt : own < h.cells.size

/-- What the visits of parts leave: what has become of the parts, and outside their area and the
    cell `own` all that was there. -/
structure Parts (own : Ref) (area : List Ref) (outcomes : List Outcome) (h h' : Heap) : Prop where
  size_le : h.cells.size ≤ h'.cells.size
  frame : ∀ x < h.cells.size, x ≠ own → x ∉ area → h'.cell? x = h.cell? x
  holds : ∀ o ∈ outcomes, ∀ u, o.layout? = some u → h'.Holds u
  refs : ∀ o ∈ outcomes, ∀ u, o.layout? = some u → u.refs ⊆ area

section

variable {h h₁ h₂ : Heap} {own : Ref} {t : Layout} {ts : List Layout} {log log' : List Showing}
  {o : Outcome} {outcomes : List Outcome}

theorem Ready.lt (hr : Ready h own ts log) {x : Ref} (hx : x ∈ Layout.refsOf ts) :
    x < h.cells.size := by
  obtain ⟨t, ht, hx⟩ := Layout.mem_refsOf.1 hx
  exact (hr.holds t ht).lt hx

/-- The areas of the first part and of the others lie apart, and apart from the cell of them all. -/
theorem Ready.apart (hr : Ready h own (t :: ts) (log ++ log')) :
    (area [t] log).Nodup ∧ (area ts log').Nodup ∧
      (∀ x ∈ area [t] log, x ∉ area ts log') ∧ own ∉ area [t] log ∧ own ∉ area ts log' := by
  obtain ⟨h₁, h₂, hdisjoint⟩ := area_apart hr.nodup
  exact ⟨h₁, h₂, hdisjoint, fun hx => hr.own_not_mem (mem_area_cons_append.2 (.inl hx)),
    fun hx => hr.own_not_mem (mem_area_cons_append.2 (.inr hx))⟩

theorem Ready.head (hr : Ready h own (t :: ts) (log ++ log')) : Ready h own [t] log where
  holds := fun u hu => hr.holds u (List.mem_singleton.1 hu ▸ List.mem_cons_self ..)
  unaliased := fun u hu => hr.unaliased u (List.mem_singleton.1 hu ▸ List.mem_cons_self ..)
  proper := fun e he => hr.proper e (List.mem_append_left _ he)
  nodup := hr.apart.1
  own_not_mem := hr.apart.2.2.2.1
  own_lt := hr.own_lt

/-- When the first part has been visited, the others are as they were. -/
theorem Ready.tail (hr : Ready h own (t :: ts) (log ++ log'))
    (hp : Parts own (area [t] log) outcomes h h₁) : Ready h₁ own ts log' := by
  obtain ⟨-, hnodup, hdisjoint, -, hown⟩ := hr.apart
  refine ⟨?_, fun u hu => hr.unaliased u (List.mem_cons_of_mem _ hu),
    fun e he => hr.proper e (List.mem_append_right _ he), hnodup, hown,
    hr.own_lt.trans_le hp.size_le⟩
  intro u hu
  refine (hr.holds u (List.mem_cons_of_mem _ hu)).of_agree fun x hx => ?_
  have hmem : x ∈ Layout.refsOf ts := Layout.mem_refsOf.2 ⟨u, hu, hx⟩
  have harea : x ∈ area ts log' := mem_area.2 (.inl hmem)
  exact hp.frame x (hr.lt (List.mem_append_right _ hmem)) (fun e => hown (e ▸ harea))
    (fun hx' => hdisjoint x hx' harea)

theorem Parts.nil (own : Ref) (h : Heap) (area : List Ref) : Parts own area [] h h :=
  ⟨le_rfl, fun _ _ _ _ => rfl, fun _ ho => absurd ho List.not_mem_nil,
    fun _ ho => absurd ho List.not_mem_nil⟩

/-- What the visit of a single part leaves. -/
theorem Parts.single {area : List Ref} (hsize : h.cells.size ≤ h₁.cells.size)
    (hframe : ∀ x < h.cells.size, x ≠ own → x ∉ area → h₁.cell? x = h.cell? x)
    (ho : ∀ u, o.layout? = some u → h₁.Holds u ∧ u.refs ⊆ area) : Parts own area [o] h h₁ := by
  refine ⟨hsize, hframe, ?_, ?_⟩
  · intro o' ho' u hu
    rw [List.mem_singleton] at ho'
    subst ho'
    exact (ho u hu).1
  · intro o' ho' u hu
    rw [List.mem_singleton] at ho'
    subst ho'
    exact (ho u hu).2

/-- A part that is no node stays as it is. -/
theorem Parts.data (ht : h.Holds t) : Parts own (area [t] log) [.inPlace t] h h := by
  refine .single le_rfl (fun _ _ _ _ => rfl) ?_
  rintro u ⟨⟩
  refine ⟨ht, ?_⟩
  intro x hx
  exact mem_area.2 (.inl (Layout.mem_refsOf.2 ⟨t, List.mem_singleton_self t, hx⟩))

/-- Visits of the first part and of the others are visits of them all: what has become of the first
    part lies in its own area, and so outlasts the visits of the others. -/
theorem Parts.cons (hr : Ready h own (t :: ts) (log ++ log'))
    (hp : Parts own (area [t] log) [o] h h₁) (hps : Parts own (area ts log') outcomes h₁ h₂) :
    Parts own (area (t :: ts) (log ++ log')) (o :: outcomes) h h₂ := by
  obtain ⟨-, -, hdisjoint, hown, -⟩ := hr.apart
  refine ⟨hp.size_le.trans hps.size_le, ?_, ?_, ?_⟩
  · intro x hx hne hx'
    rw [mem_area_cons_append, not_or] at hx'
    rw [hps.frame x (hx.trans_le hp.size_le) hne hx'.2, hp.frame x hx hne hx'.1]
  · intro o' ho' u hu
    rcases List.mem_cons.1 ho' with rfl | ho'
    · have hu₁ := hp.holds o' (List.mem_singleton_self o') u hu
      refine hu₁.of_agree fun x hx => ?_
      -- it lies in the area of the first part, which the other visits do not touch
      have hx' := hp.refs o' (List.mem_singleton_self o') u hu hx
      exact hps.frame x (hu₁.lt hx) (fun e => hown (e ▸ hx')) (hdisjoint x hx')
    · exact hps.holds o' ho' u hu
  · intro o' ho' u hu x hx
    rcases List.mem_cons.1 ho' with rfl | ho'
    · exact mem_area_cons_append.2 (.inl (hp.refs o' (List.mem_singleton_self o') u hu hx))
    · exact mem_area_cons_append.2 (.inr (hps.refs o' ho' u hu hx))

end

/-! ## The edit of a slot -/

section

variable {h : Heap} {slot : Heap.Slot} {own x : Ref}

theorem Outcome.cell?_edit_of_ne (ht : h.target? slot = some own) (hx : x ≠ own) (o : Outcome) :
    (o.edit slot h).cell? x = h.cell? x := by
  have hne : ¬ some own = some x := fun e => hx (Option.some.inj e).symm
  cases o with
  | gone => rw [edit, Heap.removeAt, Heap.cell?_editSlot, ht, if_neg hne]
  | inPlace t => rw [edit, Heap.replaceAt, Heap.cell?_editSlot, ht, if_neg hne]
  | putBack t =>
    rw [edit, Heap.insertAt, Heap.cell?_editSlot, Heap.removeAt, Heap.target?_editSlot _ _ ht,
      if_neg hne, Heap.cell?_editSlot, ht, if_neg hne]

variable {parent : Ref} {key : Key} {fields : Fields Key Datum}

/-- What becomes of an element stands in its place in the list. -/
theorem Outcome.cell?_edit_item {pre post : List Datum} {d : Datum} (hk : key ≠ .null)
    (hp : h.cell? parent = some (.record fields)) (hg : Fields.get? fields key = some (.ref own))
    (hr : h.cell? own = some (.list (pre ++ d :: post))) (o : Outcome) :
    (o.edit ⟨some parent, key, some pre.length⟩ h).cell? own =
      some (.list (pre ++ (o.layout?.toList.map Layout.datum ++ post))) := by
  have ht := Heap.target?_item pre.length hk hp hg hr
  have hin := Heap.inList_length pre d post
  cases o with
  | gone =>
    rw [edit, Heap.removeAt, Heap.cell?_editSlot, if_pos ht, hr]
    simp [Heap.Slot.editCell, hin, layout?, List.eraseIdx_append_of_length_le]
  | inPlace t =>
    rw [edit, Heap.replaceAt, Heap.cell?_editSlot, if_pos ht, hr]
    simp [Heap.Slot.editCell, hin, layout?]
  | putBack t =>
    rw [edit, Heap.insertAt, Heap.cell?_editSlot, Heap.removeAt, Heap.target?_editSlot _ _ ht,
      if_pos rfl, Heap.cell?_editSlot, if_pos ht, hr]
    simp [Heap.Slot.editCell, hin, layout?, List.eraseIdx_append_of_length_le,
      ← Heap.insertIdx_insertPosition pre post t.datum]

/-- What becomes of the node in a field keeps its place among the fields, or goes last. -/
theorem Outcome.cell?_edit_field {pre post : Fields Key Datum} {d : Datum} (hk : key ≠ .null)
    (hpre : key ∉ pre.keys) (hpost : key ∉ post.keys)
    (hp : h.cell? parent = some (.record (pre ++ (key, d) :: post))) (o : Outcome) :
    (o.edit ⟨some parent, key, none⟩ h).cell? parent =
      some (.record (pre ++ (Layout.data (Rewriting.kept [(key, o)]) ++
        (post ++ Layout.data (Rewriting.moved [(key, o)]))))) := by
  have ht := Heap.target?_field hk hp
  have herase : Fields.erase (pre ++ (key, d) :: post) key = pre ++ post := by
    rw [Fields.erase_append_of_not_mem hpre, Fields.erase, if_pos rfl]
  cases o with
  | gone =>
    rw [edit, Heap.removeAt, Heap.cell?_editSlot, if_pos ht, hp]
    simp [Heap.Slot.editCell, herase, Rewriting.kept, Rewriting.moved, Layout.data]
  | inPlace t =>
    rw [edit, Heap.replaceAt, Heap.cell?_editSlot, if_pos ht, hp]
    simp [Heap.Slot.editCell, Fields.set_append_of_not_mem hpre, Fields.set, Rewriting.kept,
      Rewriting.moved, Layout.data]
  | putBack t =>
    rw [edit, Heap.insertAt, Heap.cell?_editSlot, Heap.removeAt, Heap.target?_editSlot _ _ ht,
      if_pos rfl, Heap.cell?_editSlot, if_pos ht, hp]
    simp [Heap.Slot.editCell, herase, Fields.set_append_of_not_mem hpre,
      Fields.set_of_not_mem hpost, Rewriting.kept, Rewriting.moved, Layout.data]

end

/-- What the visit of a node leaves, seen from the list or record that holds the node. -/
theorem Left.parts {h h' : Heap} {slot : Heap.Slot} {own : Ref} {area : List Ref} {fate : Fate}
    (hl : Left h slot area fate h') (ht : h.target? slot = some own) :
    Parts own area [fate.outcome] h h' := by
  refine .single hl.size_le ?_ ?_
  · intro x hx hown hmem
    rw [hl.frame x hx hmem, Outcome.cell?_edit_of_ne ht hown]
  · intro u hu
    exact ⟨hl.holds u hu, hl.refs u hu⟩

/-! ## The elements of a list -/

/-- What the visit of an element leaves in the list, and in the record that holds the list. -/
theorem Left.item {h h' : Heap} {parent own : Ref} {key : Key} {fields : Fields Key Datum}
    {pre post : List Datum} {d : Datum} {area : List Ref} {fate : Fate}
    (hl : Left h ⟨some parent, key, some pre.length⟩ area fate h') (hk : key ≠ .null)
    (hp : h.cell? parent = some (.record fields)) (hg : Fields.get? fields key = some (.ref own))
    (hr : h.cell? own = some (.list (pre ++ d :: post))) (hparent : parent ∉ area)
    (hown : own ∉ area) :
    h'.cell? parent = some (.record fields) ∧
      h'.cell? own = some (.list (pre ++ fate.outcome.layout?.toList.map Layout.datum ++ post)) := by
  constructor
  · have hne : parent ≠ own := by
      rintro rfl
      simp [hp] at hr
    have ht := Heap.target?_item pre.length hk hp hg hr
    rw [hl.frame parent (Heap.cell?_lt hp) hparent, Outcome.cell?_edit_of_ne ht hne, hp]
  · rw [hl.frame own (Heap.cell?_lt hr) hown, Outcome.cell?_edit_item hk hp hg hr,
      List.append_assoc]

/-- A walk returns null for a node exactly when nothing stands in its place, so that the position
    goes on by the number of elements that now stand there. -/
theorem Left.next {h h' : Heap} {slot : Heap.Slot} {area : List Ref} {fate : Fate}
    (hl : Left h slot area fate h') (i : Nat) :
    (if fate.outcome.datum.isNull then i else i + 1) =
      i + (fate.outcome.layout?.toList).length := by
  rcases ho : fate.outcome.layout? with _ | u
  · simp [Outcome.datum, ho, Datum.isNull]
  · obtain ⟨r, hr⟩ := hl.ref u ho
    simp [Outcome.datum, ho, hr, Datum.isNull, Datum.null]

section

variable {f : Ref → Heap.Slot → WalkM (σ × List Showing) Datum} {V : VisitRel (σ × List Showing)}
  {s s' : World (σ × List Showing)} {log : List Showing}
  (hext : ∀ r slot, (f r slot).Extends) (hf : VisitSound f V)

/-- The log of two actions is that of the one and then that of the other. -/
theorem log_eq_append {s₁ : World (σ × List Showing)} {log₁ log₂ : List Showing}
    (hlog : s'.user.2 = s.user.2 ++ log) (h₁ : s₁.user.2 = s.user.2 ++ log₁)
    (h₂ : s'.user.2 = s₁.user.2 ++ log₂) : log = log₁ ++ log₂ := by
  rw [h₂, h₁, List.append_assoc] at hlog
  exact (List.append_cancel_left hlog).symm

theorem log_eq_nil (hlog : s.user.2 = s.user.2 ++ log) : log = [] :=
  List.self_eq_append_right.1 hlog

include hext hf

/-- Going through a list that is edited on the way visits each of its nodes once, and leaves in the
    list what has become of them. The elements before the position are done, and the induction is on
    those that are still to come: they are as they were. -/
theorem visitItems_sound (pre : List Datum) {parent list : Ref} {key : Key}
    {fields : Fields Key Datum} (hk : key ≠ .null)
    (hg : Fields.get? fields key = some (.ref list)) {ts : List Layout} {steps : Nat} {u : Unit}
    (hrun : Walker.visitItems f parent key list steps pre.length s = .ok u s')
    (hlog : s'.user.2 = s.user.2 ++ log)
    (hp : s.heap.cell? parent = some (.record fields)) (hparent : parent ∉ area ts log)
    (hlist : s.heap.cell? list = some (.list (pre ++ ts.map Layout.datum)))
    (hr : Ready s.heap list ts log) :
    ∃ outcomes, VisitsItems V parent key pre.length ts s log outcomes s' ∧
      Parts list (area ts log) outcomes s.heap s'.heap ∧
      s'.heap.cell? list =
        some (.list (pre ++ (outcomes.filterMap Outcome.layout?).map Layout.datum)) := by
  induction ts generalizing pre steps s log with
  | nil =>
    cases steps with
    | zero => exact absurd hrun Actions.throw_eq_ok
    | succ steps =>
      rw [Walker.visitItems_end ((Heap.items?_eq_some _).2 hlist) (by simp)] at hrun
      cases hrun
      cases log_eq_nil hlog
      exact ⟨[], .nil, .nil _ _ _, hlist⟩
  | cons t ts ih =>
    cases steps with
    | zero => exact absurd hrun Actions.throw_eq_ok
    | succ steps =>
      have hi := (Heap.items?_eq_some _).2 hlist
      have hat : (pre ++ (t :: ts).map Layout.datum)[pre.length]? = some t.datum := by simp
      have ht := hr.holds t (List.mem_cons_self ..)
      by_cases hn : t.isNode = true
      · -- a node: the list then holds, at its place, what has become of it
        cases t with
        | record r fs =>
          rw [Walker.visitItems_node hi hat (ht.isNode.trans hn)] at hrun
          obtain ⟨d, s₁, hvisit, hrun⟩ := Actions.bind_eq_ok.1 hrun
          obtain ⟨log₁, hlog₁⟩ := (hext _ _).exists_log hvisit
          obtain ⟨log₂, hlog₂⟩ := (Walker.visitItems_extends hext _ _ _ _ _).exists_log hrun
          obtain rfl := log_eq_append hlog hlog₁ hlog₂
          obtain ⟨hnodup, -, -, hown, -⟩ := hr.apart
          rw [mem_area_cons_append, not_or] at hparent
          have hlist' : s.heap.cell? list =
              some (.list (pre ++ .ref r :: ts.map Layout.datum)) := hlist
          have htarget := Heap.target?_item pre.length hk hp hg hlist'
          have hhangs : Hangs s.heap ⟨some parent, key, some pre.length⟩ (.record r fs)
              (area [.record r fs] log₁) :=
            .of_target (.item hk hp hg hlist') rfl htarget hparent.1 hown
          obtain ⟨fate, hv, rfl, hleft⟩ := hf _ _ _ _ _ _ _ hvisit hlog₁ hn
            (hr.unaliased _ (List.mem_cons_self ..)) ht hr.head.proper hnodup hhangs
          have hparts := hleft.parts htarget
          obtain ⟨hp₁, hlist₁⟩ := hleft.item hk hp hg hlist' hparent.1 hown
          rw [hleft.next, show pre.length + fate.outcome.layout?.toList.length =
            (pre ++ fate.outcome.layout?.toList.map Layout.datum).length by simp] at hrun
          obtain ⟨outcomes, hvs, hps, hend⟩ :=
            ih _ hrun hlog₂ hp₁ hparent.2 hlist₁ (hr.tail hparts)
          refine ⟨fate.outcome :: outcomes, .node hn hv ?_, hparts.cons hr hps, ?_⟩
          · rwa [List.length_append, List.length_map] at hvs
          · rw [hend, List.append_assoc]
            rcases ho : fate.outcome.layout? with _ | u <;> simp [ho]
        | scalar _ => cases hn
        | list _ _ => cases hn
      · -- anything else stays where it is
        rw [Bool.not_eq_true] at hn
        rw [Walker.visitItems_data hi hat (ht.isNode.trans hn),
          show pre.length + 1 = (pre ++ [t.datum]).length by simp] at hrun
        have hparts : Parts list (area [t] []) [.inPlace t] s.heap s.heap := .data ht
        have hlist₁ : s.heap.cell? list =
            some (.list ((pre ++ [t.datum]) ++ ts.map Layout.datum)) := by
          rw [hlist, List.append_assoc]
          rfl
        rw [← List.nil_append log, mem_area_cons_append, not_or] at hparent
        have hr₀ : Ready s.heap list (t :: ts) ([] ++ log) := hr
        obtain ⟨outcomes, hvs, hps, hend⟩ := ih _ hrun hlog hp hparent.2 hlist₁ (hr₀.tail hparts)
        refine ⟨.inPlace t :: outcomes, .data hn ?_, hparts.cons hr₀ hps, ?_⟩
        · rwa [List.length_append] at hvs
        · rw [hend, List.append_assoc]
          rfl

end

/-! ## The fields of a record -/

theorem Ready.items {h : Heap} {own r : Ref} {items : List Layout} {log : List Showing}
    (hr : Ready h own [.list r items] log) : Ready h r items log := by
  have ht := hr.holds _ (List.mem_singleton_self _)
  have hu := hr.unaliased _ (List.mem_singleton_self _)
  have hnodup := hr.nodup
  rw [area_list, List.nodup_cons] at hnodup
  exact ⟨((Heap.holds_list_iff _ _ _).1 ht).2, fun t ht => hu.item ht, hr.proper, hnodup.2,
    hnodup.1, ht.lt (by simp)⟩

/-- The visits of the elements of a list, seen from the record that holds the list. -/
theorem Parts.list {own r : Ref} {items : List Layout} {log : List Showing}
    {outcomes : List Outcome} {h h' : Heap} (hp : Parts r (area items log) outcomes h h')
    (hr : h'.cell? r = some (.list ((outcomes.filterMap Outcome.layout?).map Layout.datum))) :
    Parts own (area [.list r items] log)
      [.inPlace (.list r (outcomes.filterMap Outcome.layout?))] h h' := by
  rw [area_list]
  refine .single hp.size_le ?_ ?_
  · intro x hx _ hmem
    rw [List.mem_cons, not_or] at hmem
    exact hp.frame x hx hmem.1 hmem.2
  · rintro u ⟨⟩
    constructor
    · refine (Heap.holds_list_iff _ _ _).2 ⟨hr, ?_⟩
      intro t ht
      obtain ⟨o, ho, hu⟩ := List.mem_filterMap.1 ht
      exact hp.holds o ho t hu
    · intro x hx
      rw [Layout.refs_list, List.mem_cons] at hx
      rcases hx with rfl | hx
      · exact List.mem_cons_self ..
      · obtain ⟨u, hu, hx⟩ := Layout.mem_refsOf.1 hx
        obtain ⟨o, ho, hu⟩ := List.mem_filterMap.1 hu
        exact List.mem_cons_of_mem _ (hp.refs o ho u hu hx)

/-- When a field has been visited, the fields to come still have other keys than those before and behind them. -/
theorem Rewriting.others_next {key : Key} {o : Outcome} {fs : List (Key × Layout)} {pre post : Fields Key Datum}
    (hkey : key ∉ Fields.keys fs)
    (hothers : ∀ k ∈ Fields.keys fs, k ≠ .null ∧ k ∉ pre.keys ∧ k ∉ post.keys) :
    ∀ k ∈ Fields.keys fs, k ≠ .null ∧ k ∉ Fields.keys (pre ++ Layout.data (kept [(key, o)])) ∧
      k ∉ Fields.keys (post ++ Layout.data (moved [(key, o)])) := by
  intro k hmem
  obtain ⟨hnull, hkpre, hkpost⟩ := hothers k hmem
  have hne : k ≠ key := fun e => hkey (e ▸ hmem)
  simp only [Fields.keys_append, Layout.keys_data, List.mem_append, not_or]
  exact ⟨hnull, ⟨hkpre, fun h => hne (mem_keys_kept h)⟩, ⟨hkpost, fun h => hne (mem_keys_moved h)⟩⟩

section

variable {f : Ref → Heap.Slot → WalkM (σ × List Showing) Datum} {V : VisitRel (σ × List Showing)}
  {s s' : World (σ × List Showing)} {log : List Showing}
  (hext : ∀ r slot, (f r slot).Extends) (hf : VisitSound f V)

include hext hf

/-- Visiting one field leaves in it what has become of its content, and leaves the other fields as
    they were. A field that is filled again goes behind them. -/
theorem visitField_sound {parent : Ref} {key : Key} (hk : key ≠ .null) {t : Layout}
    {pre post : Fields Key Datum} (hpre : key ∉ pre.keys) (hpost : key ∉ post.keys) {steps : Nat}
    {u : Unit} (hrun : Walker.visitField f parent steps key t.datum s = .ok u s')
    (hlog : s'.user.2 = s.user.2 ++ log)
    (hp : s.heap.cell? parent = some (.record (pre ++ (key, t.datum) :: post)))
    (hr : Ready s.heap parent [t] log) :
    ∃ o, VisitsField V parent key t s log o s' ∧ Parts parent (area [t] log) [o] s.heap s'.heap ∧
      s'.heap.cell? parent = some (.record (pre ++ (Layout.data (Rewriting.kept [(key, o)]) ++
        (post ++ Layout.data (Rewriting.moved [(key, o)]))))) := by
  have ht := hr.holds t (List.mem_singleton_self t)
  have hg : Fields.get? (pre ++ (key, t.datum) :: post) key = some t.datum :=
    Fields.get?_append_cons hpre _ _
  have hkept : ∀ u : Layout, u.datum = t.datum →
      pre ++ (Layout.data (Rewriting.kept [(key, .inPlace u)]) ++
        (post ++ Layout.data (Rewriting.moved [(key, .inPlace u)]))) =
      pre ++ (key, t.datum) :: post := by
    intro u hu
    simp [Rewriting.kept, Rewriting.moved, Layout.data, hu]
  cases t with
  | scalar c =>
    cases hrun
    cases log_eq_nil hlog
    exact ⟨.inPlace (.scalar c), .data rfl (by simp), .data ht, by rw [hkept _ rfl]; exact hp⟩
  | list r items =>
    have hlist := ((Heap.holds_list_iff _ _ _).1 ht).1
    rw [Layout.datum_list, Walker.visitField_list hlist] at hrun
    have hparent : parent ∉ area items log := fun hmem =>
      hr.own_not_mem (area_list r items log ▸ List.mem_cons_of_mem _ hmem)
    obtain ⟨outcomes, hvs, hps, hend⟩ :=
      visitItems_sound hext hf [] hk hg hrun hlog hp hparent hlist hr.items
    refine ⟨_, .list hvs, hps.list hend, ?_⟩
    -- the list is edited in its own cell, so that the field goes on holding it
    rw [hkept (.list r (outcomes.filterMap Outcome.layout?)) rfl, ← hp]
    refine hps.frame parent (Heap.cell?_lt hp) ?_ hparent
    rintro rfl
    simp [hp] at hlist
  | record r fields =>
    have hc := ((Heap.holds_record_iff _ _ _).1 ht).1
    by_cases hn : (Layout.record r fields).isNode = true
    · rw [Layout.datum_record, Walker.visitField_node hc (ht.isNode.trans hn)] at hrun
      obtain ⟨d, s₁, hvisit, hrun⟩ := Actions.bind_eq_ok.1 hrun
      obtain ⟨-, rfl⟩ := Actions.pure_eq_ok.1 hrun
      have htarget := Heap.target?_field hk hp
      have hhangs : Hangs s.heap ⟨some parent, key, none⟩ (.record r fields)
          (area [.record r fields] log) :=
        .of_target (.field hk hp hg) rfl htarget hr.own_not_mem hr.own_not_mem
      obtain ⟨fate, hv, -, hleft⟩ := hf _ _ _ _ _ _ _ hvisit hlog hn
        (hr.unaliased _ (List.mem_singleton_self _)) ht hr.proper hr.nodup hhangs
      refine ⟨fate.outcome, .node hn hv, hleft.parts htarget, ?_⟩
      rw [hleft.frame parent hr.own_lt hr.own_not_mem,
        Outcome.cell?_edit_field hk hpre hpost hp]
    · rw [Bool.not_eq_true] at hn
      rw [Layout.datum_record, Walker.visitField_data hc (ht.isNode.trans hn)] at hrun
      cases hrun
      cases log_eq_nil hlog
      exact ⟨.inPlace _, .data hn (by simp), .data ht, by rw [hkept _ rfl]; exact hp⟩

/-- Going through the fields of a record visits each of them once. The induction is on the fields that
    are still to come: they stand between those that have kept their places and those that have gone
    behind, and are as they were. -/
theorem visitFields_sound (pre post : Fields Key Datum) {parent : Ref} {steps : Nat}
    {fs : List (Key × Layout)} {u : Unit}
    (hrun : Fields.forPresent
      (fun key => WalkM.look fun h => (h.fields? parent).bind (Fields.get? · key))
      (Walker.visitField f parent steps) (Fields.keys fs) s = .ok u s')
    (hlog : s'.user.2 = s.user.2 ++ log)
    (hp : s.heap.cell? parent = some (.record (pre ++ (Layout.data fs ++ post))))
    (hkeys : (Fields.keys fs).Nodup)
    (hothers : ∀ key ∈ Fields.keys fs, key ≠ .null ∧ key ∉ pre.keys ∧ key ∉ post.keys)
    (hr : Ready s.heap parent (fs.map Prod.snd) log) :
    ∃ outcomes, VisitsFields V parent fs s log outcomes s' ∧
      Parts parent (area (fs.map Prod.snd) log) (outcomes.map Prod.snd) s.heap s'.heap ∧
      s'.heap.cell? parent = some (.record (pre ++ (Layout.data (Rewriting.kept outcomes) ++
        (post ++ Layout.data (Rewriting.moved outcomes))))) := by
  induction fs generalizing pre post s log with
  | nil =>
    cases hrun
    cases log_eq_nil hlog
    exact ⟨[], .nil, .nil _ _ _, by simpa [Rewriting.kept, Rewriting.moved, Layout.data] using hp⟩
  | cons field fs ih =>
    obtain ⟨key, t⟩ := field
    rw [Fields.keys, List.map_cons, ← Fields.keys, List.nodup_cons] at hkeys
    obtain ⟨hk, hpre, hpost⟩ := hothers key (List.mem_cons_self ..)
    have hg : (s.heap.fields? parent).bind (Fields.get? · key) = some t.datum := by
      rw [(Heap.fields?_eq_some _).2 hp, Option.bind_some]
      exact Fields.get?_append_cons hpre _ _
    rw [Fields.keys, List.map_cons, ← Fields.keys, Walker.forPresent_cons hg] at hrun
    obtain ⟨_, s₁, hfield, hrun⟩ := Actions.bind_eq_ok.1 hrun
    obtain ⟨log₁, hlog₁⟩ := (Walker.visitField_extends hext _ _ _ _).exists_log hfield
    obtain ⟨log₂, hlog₂⟩ := (Walker.forPresent_extends hext _ _ _).exists_log hrun
    obtain rfl := log_eq_append hlog hlog₁ hlog₂
    have hpost' : key ∉ Fields.keys (Layout.data fs ++ post) := by
      simp only [Fields.keys_append, Layout.keys_data, List.mem_append, not_or]
      exact ⟨hkeys.1, hpost⟩
    obtain ⟨o, hv, hparts, hcell⟩ :=
      visitField_sound hext hf hk hpre hpost' hfield hlog₁ hp hr.head
    have hp₁ : s₁.heap.cell? parent = some (.record
        ((pre ++ Layout.data (Rewriting.kept [(key, o)])) ++
          (Layout.data fs ++ (post ++ Layout.data (Rewriting.moved [(key, o)]))))) := by
      rw [hcell]
      simp only [List.append_assoc]
    have hothers₁ := Rewriting.others_next (o := o) hkeys.1 fun k hmem => hothers k (List.mem_cons_of_mem _ hmem)
    obtain ⟨outcomes, hvs, hps, hend⟩ := ih _ _ hrun hlog₂ hp₁ hkeys.2 hothers₁ (hr.tail hparts)
    refine ⟨(key, o) :: outcomes, .cons hv hvs, hparts.cons hr hps, ?_⟩
    rw [hend, Rewriting.kept_cons key o outcomes, Rewriting.moved_cons key o outcomes,
      Layout.data_append, Layout.data_append]
    simp only [List.append_assoc]

end

end Arbor
