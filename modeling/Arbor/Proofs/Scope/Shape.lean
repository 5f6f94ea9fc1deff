import Arbor.Proofs.Outcomes
import Arbor.Proofs.Scope.Counters
import Mathlib.Logic.Relation

set_option autoImplicit false

/-! # Nodes that a tracker can enter

A tracker looks for lists in a few fields. What is not given counts as empty there, and texts and records
have no nodes as elements; only another scalar makes the tracker fail. So a node is entered without a fault
for which the lists of the node and of the nodes that it holds can be gone through
(`Scope.ofNode_failsBy`), whatever else they hold, and well-shaped nodes are such nodes
(`Scope.ofNode_sound`). -/

namespace Arbor

/-- Whether a scalar may stand where a list is looked for. -/
def Scalar.isIterable : Scalar → Bool
  | .text _ => true
  | s => !s.isTruthy

/-- Whether a datum may stand where a list is looked for. -/
def Datum.isIterable : Datum → Bool
  | .scalar s => s.isIterable
  | .ref _ => true

namespace Heap

theorem elements_scalar (h : Heap) (s : Scalar) :
    h.elements (.scalar s) = if s.isIterable then .ok [] else .error .notIterable := by
  cases s with
  | text t => cases ht : t.isEmpty <;> simp [elements, isTruthy, Scalar.isTruthy, Scalar.isIterable, ht]
  | null => rfl
  | bool b => cases b <;> rfl
  | int n => cases hn : (Scalar.int n).isTruthy <;> simp [elements, isTruthy, Scalar.isIterable, hn]
  | float x => cases hx : (Scalar.float x).isTruthy <;> simp [elements, isTruthy, Scalar.isIterable, hx]

theorem elements_ref (h : Heap) (r : Ref) :
    h.elements (.ref r) = .ok ((h.items? r).getD []) := by
  cases hc : h.cell? r with
  | none => simp [elements, isTruthy, items?, hc]
  | some c =>
    cases c with
    | record fields => simp [elements, isTruthy, items?, hc]
    | list items => cases items <;> simp [elements, isTruthy, items?, hc]

/-- The elements are missing only of a scalar that may not stand for a list. -/
theorem elements_eq_error {h : Heap} {d : Datum} {f : Fault} (hf : h.elements d = .error f) :
    f = .notIterable ∧ d.isIterable = false := by
  cases d with
  | scalar s =>
    rw [elements_scalar] at hf
    split at hf
    · cases hf
    · next hs => exact ⟨(Except.error.inj hf).symm, by simpa [Datum.isIterable] using hs⟩
  | ref r =>
    rw [elements_ref] at hf
    cases hf

/-- One record or list holds another. -/
def Links (h : Heap) (r x : Ref) : Prop :=
  (∃ fields key, h.fields? r = some fields ∧ (key, .ref x) ∈ fields) ∨
    ∃ items, h.items? r = some items ∧ .ref x ∈ items

/-- One record or list holds another one at some depth, or is the same. -/
abbrev Reaches (h : Heap) : Ref → Ref → Prop := Relation.ReflTransGen h.Links

/-- The fields in which a tracker looks for lists. -/
def listFields : List Text := ["params", "declarations", "specifiers", "elements", "properties"]

/-- What may be in such a field: a list, or nothing. -/
def Listed (h : Heap) (d : Datum) : Prop :=
  d = .null ∨ ∃ l items, d = .ref l ∧ h.items? l = some items

/-- In a node and all nodes that it holds, the fields in which a tracker looks for lists hold lists,
    if they hold anything. -/
def WellShaped (h : Heap) (r : Ref) : Prop :=
  ∀ x, h.Reaches r x → h.isNode (.ref x) = true → ∀ name ∈ listFields, h.Listed (h.field x name)

/-- In a node and all nodes that it holds, the fields in which a tracker looks for lists can be gone through,
    unless for one of the faults `F`. -/
def FailsBy (h : Heap) (F : Fault → Prop) (r : Ref) : Prop :=
  ∀ x, h.Reaches r x → h.isNode (.ref x) = true → ∀ name ∈ listFields, ∀ f,
    h.elements (h.field x name) = .error f → F f

instance (h : Heap) (d : Datum) : Decidable (h.Listed d) :=
  match d with
  | .scalar s => decidable_of_iff (s = .null) (by simp [Listed, Datum.null])
  | .ref l => decidable_of_iff ((h.items? l).isSome = true) (by
      simp [Listed, Datum.null, Option.isSome_iff_exists])

variable {h : Heap} {F : Fault → Prop} {r x : Ref}

theorem isNode_of_type {d : Datum} {type : Text} (ht : h.nodeType? d = some type) : h.isNode d = true := by
  rw [isNode, ht]
  rfl

/-- A node is a cell of the heap. -/
theorem lt_of_isNode (hr : h.isNode (.ref r) = true) : r < h.cells.size := by
  rcases Nat.lt_or_ge r h.cells.size with hlt | hle
  · exact hlt
  · have hcell : h.cell? r = none := Array.getElem?_eq_none hle
    simp [isNode, nodeType?, field, fields?, hcell, Datum.null] at hr

/-- Whether the nodes of a heap are well shaped can be told cell by cell. -/
theorem wellShaped_of_cells (hc : ∀ x < h.cells.size, h.isNode (.ref x) = true →
    ∀ name ∈ listFields, h.Listed (h.field x name)) (r : Ref) : h.WellShaped r :=
  fun x _ hnode => hc x (lt_of_isNode hnode) hnode

theorem reaches_field {name : Text} (hx : h.field r name = .ref x) : h.Reaches r x := by
  refine .single (.inl ?_)
  unfold field at hx
  split at hx
  · next fields hf =>
    rcases hg : Fields.get? fields (.text name) with _ | d
    · simp [hg, Datum.null] at hx
    · rw [hg, Option.getD_some] at hx
      exact ⟨fields, .text name, hf, hx ▸ Fields.mem_of_get? hg⟩
  · cases hx

theorem WellShaped.failsBy (hw : h.WellShaped r) : h.FailsBy (fun _ => False) r := by
  intro x hx hnode name hn f hf
  obtain ⟨-, hscalar⟩ := elements_eq_error hf
  rcases hw x hx hnode name hn with hnull | ⟨l, items, hlist, -⟩
  · rw [hnull] at hscalar
    cases hscalar
  · rw [hlist] at hscalar
    cases hscalar

theorem FailsBy.of_reaches (hr : h.FailsBy F r) (hx : h.Reaches r x) : h.FailsBy F x :=
  fun y hy => hr y (hx.trans hy)

theorem reaches_of_mem_elements {name : Text} {items : List Datum}
    (he : h.elements (h.field r name) = .ok items) (hx : .ref x ∈ items) : h.Reaches r x := by
  cases hfield : h.field r name with
  | scalar s =>
    rw [hfield, elements_scalar] at he
    split at he <;> cases he
    cases hx
  | ref l =>
    rw [hfield, elements_ref] at he
    cases he
    cases hi : h.items? l with
    | none =>
      rw [hi] at hx
      cases hx
    | some items =>
      rw [hi] at hx
      exact (reaches_field hfield).tail (.inr ⟨items, hi, hx⟩)

/-- What is reached from cells that hold no others than themselves is one of them. -/
theorem mem_of_reaches {S : Ref → Prop} (hlinks : ∀ x y, S x → h.Links x y → S y) (hr : S r)
    (hx : h.Reaches r x) : S x := by
  induction hx with
  | refl => exact hr
  | tail _ hlink ih => exact hlinks _ _ ih hlink

/-- The elements of a field in which a tracker looks for a list. -/
theorem FailsBy.elements (hr : h.FailsBy F r) (hnode : h.isNode (.ref r) = true) {name : Text}
    (hn : name ∈ listFields) :
    Yields F (fun items => ∀ x, .ref x ∈ items → h.FailsBy F x) (h.elements (h.field r name)) := by
  cases he : h.elements (h.field r name) with
  | error f => exact hr r .refl hnode name hn f he
  | ok items => exact fun x hx => hr.of_reaches (reaches_of_mem_elements he hx)

end Heap

namespace Scope

variable {h : Heap} {F : Fault → Prop} {r : Ref}

/-- What a datum refers to fails only by the faults `F`, if it refers to anything. -/
def DatumFailsBy (h : Heap) (F : Fault → Prop) (d : Datum) : Prop := ∀ x, d = .ref x → h.FailsBy F x

theorem failsBy_field (hr : h.FailsBy F r) (name : Text) : DatumFailsBy h F (h.field r name) :=
  fun _ hx => hr.of_reaches (Heap.reaches_field hx)

/-- The identifiers that a pattern binds are reached from it, and there are any unless a list cannot be
    gone through. -/
theorem boundWithin_yields {S : Ref → Prop} (hlinks : ∀ x y, S x → h.Links x y → S y)
    (hlist : ∀ x, S x → h.isNode (.ref x) = true → ∀ name ∈ Heap.listFields, ∀ f,
      h.elements (h.field x name) = .error f → F f) (depth : Nat) {d : Datum}
    (hd : ∀ x, d = .ref x → S x) :
    Yields F (fun refs => ∀ x ∈ refs, S x) (boundWithin h depth d) := by
  have none : Yields F (fun refs : List Ref => ∀ x ∈ refs, S x) (.ok []) :=
    fun _ hx => absurd hx List.not_mem_nil
  induction depth generalizing d with
  | zero => exact none
  | succ depth ih =>
    have field {x : Ref} (hx : S x) (name : Text) :
        Yields F (fun refs => ∀ x ∈ refs, S x) (boundWithin h depth (h.field x name)) :=
      ih fun _ hy => Heap.mem_of_reaches hlinks hx (Heap.reaches_field hy)
    -- the patterns in a list bind what its elements bind
    have list {x : Ref} (hx : S x) (hnode : h.isNode (.ref x) = true) {name : Text}
        (hn : name ∈ Heap.listFields) {f : Datum → Except Fault (List Ref)}
        (hf : ∀ d, (∀ y, d = .ref y → S y) → Yields F (fun refs => ∀ x ∈ refs, S x) (f d)) :
        Yields F (fun refs => ∀ x ∈ refs, S x) (do
          let items ← h.elements (h.field x name)
          pure (← items.mapM f).flatten) := by
      cases he : h.elements (h.field x name) with
      | error e => exact hlist x hx hnode name hn e he
      | ok items =>
        refine (Yields.mapM fun d hd => hf d fun y hy => ?_).bind fun refs hrefs y hy => ?_
        · subst hy
          exact Heap.mem_of_reaches hlinks hx (Heap.reaches_of_mem_elements he hd)
        · obtain ⟨ys, hys, hy⟩ := List.mem_flatten.1 hy
          exact hrefs ys hys y hy
    unfold boundWithin
    split
    · next r type htype =>
      have hr := hd r rfl
      have hnode := Heap.isNode_of_type htype
      split
      · split
        · exact List.forall_mem_singleton.2 hr
        · exact none
      split
      · exact field hr _
      split
      · exact field hr _
      split
      · exact list hr hnode (by decide) fun d hd => ih hd
      split
      · refine list hr hnode (by decide) fun property hp => ?_
        split
        · next p _ _ => exact field (hp p rfl) _
        · exact none
      · exact none
    · exact none

/-! ## Steps that fail only by some faults -/

/-- A step that does not fail, and declares what it has to declare, unless for one of the faults `F`. -/
def Effect.FailsBy (F : Fault → Prop) : Effect → Prop
  | .push => True
  | .declare entries? => Yields F (fun _ => True) entries?
  | .fail f => F f

/-- Steps each of which fails only by the faults `F`. -/
def AllFailBy (F : Fault → Prop) (effects : List Effect) : Prop := ∀ e ∈ effects, e.FailsBy F

theorem AllFailBy.nil : AllFailBy F [] := fun _ he => absurd he List.not_mem_nil

theorem AllFailBy.singleton {e : Effect} (he : e.FailsBy F) : AllFailBy F [e] :=
  List.forall_mem_singleton.2 he

theorem AllFailBy.append {effects effects' : List Effect} (he : AllFailBy F effects)
    (he' : AllFailBy F effects') : AllFailBy F (effects ++ effects') :=
  List.forall_mem_append.2 ⟨he, he'⟩

theorem AllFailBy.push : AllFailBy F [.push] := .singleton trivial

theorem pattern_failsBy (kind : BindingKind) (owner : Ref) {d : Datum} (hd : DatumFailsBy h F d) :
    (Effect.pattern h kind owner d).FailsBy F :=
  (boundWithin_yields (fun _ _ hx hlink => hx.of_reaches (.single hlink)) (fun x hx => hx x .refl)
    (h.cells.size + 1) hd).map fun _ _ => trivial

theorem named_failsBy (kind : BindingKind) (holder : Datum) :
    AllFailBy F (Effect.named h kind holder r) := by
  unfold Effect.named
  split
  · exact .singleton trivial
  · exact .nil

theorem forNodes_failsBy (hr : h.FailsBy F r) (hnode : h.isNode (.ref r) = true) {name : Text}
    (hn : name ∈ Heap.listFields) {effects : Ref → List Effect}
    (he : ∀ x, h.FailsBy F x → AllFailBy F (effects x)) :
    AllFailBy F (Effect.forNodes h r name effects) := by
  have helements := hr.elements hnode hn
  unfold Effect.forNodes
  cases hitems : h.elements (h.field r name) with
  | error f =>
    rw [hitems] at helements
    exact .singleton helements
  | ok items =>
    rw [hitems] at helements
    refine List.forall_mem_flatMap.2 ?_
    intro d hd
    cases d with
    | scalar s => exact AllFailBy.nil
    | ref x =>
      simp only
      split
      · exact he x (helements x hd)
      · exact AllFailBy.nil

theorem params_failsBy (hr : h.FailsBy F r) (hnode : h.isNode (.ref r) = true) :
    AllFailBy F (Effect.params h r) :=
  forNodes_failsBy hr hnode (by decide) fun _ hx =>
    .singleton (pattern_failsBy _ _ fun _ hy => by cases hy; exact hx)

theorem declarators_failsBy (hr : h.FailsBy F r) (hnode : h.isNode (.ref r) = true) :
    AllFailBy F (Effect.declarators h r) :=
  forNodes_failsBy hr hnode (by decide) fun _ hx =>
    .singleton (pattern_failsBy _ _ (failsBy_field hx _))

theorem className_failsBy : AllFailBy F (Effect.className h r) := by
  unfold Effect.className
  split
  · exact named_failsBy _ _
  · exact .nil

theorem loopHead_failsBy (hr : h.FailsBy F r) (field : Text) :
    AllFailBy F (Effect.loopHead h r field) := by
  unfold Effect.loopHead
  split
  · next x hx =>
    split
    · next htype =>
      have hnode := Heap.isNode_of_type htype
      exact declarators_failsBy (hr.of_reaches (Heap.reaches_field hx)) hnode
    · exact .nil
  · exact .nil

theorem ofRole_failsBy (hr : h.FailsBy F r) (hnode : h.isNode (.ref r) = true) (role : Role) :
    AllFailBy F (Effect.ofRole h r role) := by
  cases role with
  | block => exact .push
  | functionDeclaration => exact ((named_failsBy _ _).append .push).append (params_failsBy hr hnode)
  | functionExpression =>
    exact ((AllFailBy.push.append (named_failsBy _ _)).append .push).append (params_failsBy hr hnode)
  | arrowFunction => exact AllFailBy.push.append (params_failsBy hr hnode)
  | variableDeclaration => exact declarators_failsBy hr hnode
  | classDeclaration => exact className_failsBy
  | classExpression => exact AllFailBy.push.append className_failsBy
  | importDeclaration =>
    refine forNodes_failsBy hr hnode (by decide) fun x _ => ?_
    split
    · exact .singleton trivial
    · exact .nil
  | catchClause =>
    refine AllFailBy.push.append ?_
    split
    · exact .singleton (pattern_failsBy _ _ (failsBy_field hr _))
    · exact .nil
  | loop head => exact AllFailBy.push.append (loopHead_failsBy hr _)
  | other => exact .nil

/-- What a node does when it is entered fails only where a list of the node, or of a node that it holds,
    cannot be gone through. -/
theorem ofNode_failsBy (hr : h.FailsBy F r) : AllFailBy F (Effect.ofNode h r) := by
  unfold Effect.ofNode
  split
  · next type htype =>
    have hnode : h.isNode (.ref r) = true := by simp only [Heap.isNode, Heap.nodeType?, htype]; rfl
    exact ofRole_failsBy hr hnode _
  · exact .nil

/-- Steps that fail only by the faults `F` are carried out by a tracker, unless it stops with one of
    them. -/
theorem AllFailBy.applyAll {effects : List Effect} (he : AllFailBy F effects) (t : Tracker) :
    (∃ t', Tracker.applyAll effects t = .ok () t') ∨
      ∃ f t', Tracker.applyAll effects t = .error f t' ∧ F f := by
  induction effects generalizing t with
  | nil => exact .inl ⟨t, rfl⟩
  | cons e effects ih =>
    obtain ⟨he, heffects⟩ := List.forall_mem_cons.1 he
    have hone : (∃ t', Tracker.apply e t = .ok () t') ∨ ∃ f t', Tracker.apply e t = .error f t' ∧ F f := by
      cases e with
      | push => exact .inl ⟨t.push, rfl⟩
      | fail f => exact .inr ⟨f, t, rfl, he⟩
      | declare entries? =>
        by_cases hfrozen : t.frozen = true
        · exact .inl ⟨t, by rw [Tracker.apply_declare_eq_ok, if_pos hfrozen]⟩
        · cases entries? with
          | ok entries =>
            refine .inl ⟨t.declareAll entries, ?_⟩
            rw [Tracker.apply_declare_eq_ok, if_neg hfrozen]
            exact ⟨entries, rfl, rfl⟩
          | error f =>
            refine .inr ⟨f, t, ?_, he⟩
            simp [Tracker.apply, Actions.get_bind, hfrozen]
            rfl
    rcases hone with ⟨t₁, happly⟩ | ⟨f, t₁, happly, hf⟩
    · rw [Tracker.applyAll, Actions.bind_of_eq_ok happly]
      exact ih heffects t₁
    · refine .inr ⟨f, t₁, ?_, hf⟩
      simp only [Tracker.applyAll, bind, EStateM.bind, happly]

/-! ## Nodes of a type -/

theorem opens_of_type {h : Heap} {r : Ref} {type : Text} (ht : h.nodeType? (.ref r) = some type) :
    h.opens r = (Role.ofType type).opens := by
  rw [Heap.opens_eq, ht]

theorem nodeType?_eq_some {h : Heap} {r : Ref} {type : Text} :
    h.nodeType? (.ref r) = some type ↔ h.field r "type" = .scalar (.text type) := by
  simp only [Heap.nodeType?]
  generalize h.field r "type" = d
  rcases d with (_ | _ | _ | _ | name) | _
  case scalar.text => simp
  all_goals simp

theorem field_of_type {h : Heap} {r : Ref} {type : Text} (ht : h.nodeType? (.ref r) = some type) :
    h.field r "type" = .scalar (.text type) := nodeType?_eq_some.1 ht

/-- The pattern of a construct declares what the type of the construct tells. -/
theorem patternOf_of_type {h : Heap} {r : Ref} {type : Text} (ht : h.nodeType? (.ref r) = some type)
    (d : Datum) : Effect.patternOf h r d = Effect.pattern h (.ofConstruct (.scalar (.text type))) r d := by
  rw [Effect.patternOf, field_of_type ht]

/-- The types that play a part are those of the table. -/
theorem mem_roles {type : Text} {role : Role} (h : Role.ofType type = role) (hother : role ≠ .other) :
    (type, role) ∈ roles := by
  unfold Role.ofType at h
  cases hlookup : roles.lookup type with
  | none => exact absurd (by simpa [hlookup] using h.symm) hother
  | some found =>
    obtain ⟨l, l', hroles, -⟩ := List.lookup_eq_some_iff.1 hlookup
    obtain rfl : found = role := by simpa [hlookup] using h
    rw [hroles]
    exact List.mem_append_right l List.mem_cons_self

/-- A part that only one type plays tells the type. -/
theorem type_of_role {type only : Text} {role : Role} (h : Role.ofType type = role) (hother : role ≠ .other)
    (honly : ∀ entry ∈ roles, entry.2 = role → entry.1 = only) : type = only :=
  honly _ (mem_roles h hother) rfl

theorem ofNode_of_type {h : Heap} {r : Ref} {type : Text} (ht : h.nodeType? (.ref r) = some type) :
    Effect.ofNode h r = Effect.ofRole h r (.ofType type) := by
  rw [Effect.ofNode, field_of_type ht]

theorem asRecord_of_type {h : Heap} {r : Ref} {type : Text}
    (ht : h.nodeType? (.ref r) = some type) : h.asRecord (.ref r) = .ok r := by
  rw [Heap.asRecord_ref]
  cases hf : h.fields? r with
  | some fields => rfl
  | none => simp [Heap.nodeType?, Heap.field, hf, Datum.null] at ht

theorem enter_of_type {h : Heap} {r : Ref} {type : Text} (ht : h.nodeType? (.ref r) = some type) :
    Tracker.enter h (.ref r) = Tracker.applyAll (Effect.ofNode h r) := by
  rw [Tracker.enter, asRecord_of_type ht]

theorem scopesOf_of_type {h : Heap} {r : Ref} {type : Text} (ht : h.nodeType? (.ref r) = some type) :
    Tracker.scopesOf h (.ref r) = .ok (h.opens r) := by
  rw [opens_of_type ht, Tracker.scopesOf, asRecord_of_type ht]
  simp only [bind, Except.bind]
  rw [field_of_type ht]
  rfl

theorem leave_of_type {h : Heap} {r : Ref} {type : Text} (ht : h.nodeType? (.ref r) = some type)
    (t : Tracker) : Tracker.leave h (.ref r) t = .ok () (t.popMany (h.opens r)) := by
  rw [Tracker.leave, scopesOf_of_type ht]
  rfl

/-! ## Steps without faults -/

/-- A step that does not fail, and declares what it has to declare. -/
def Effect.Sound : Effect → Prop
  | .push => True
  | .declare entries? => ∃ entries, entries? = .ok entries
  | .fail _ => False

/-- Steps none of which fails. -/
def AllSound (effects : List Effect) : Prop := ∀ e ∈ effects, e.Sound

/-- What a well-shaped node does when it is entered does not fail. -/
theorem ofNode_sound (hw : h.WellShaped r) : AllSound (Effect.ofNode h r) := by
  intro e he
  have hfails := ofNode_failsBy hw.failsBy e he
  cases e with
  | push => trivial
  | declare entries? =>
    obtain ⟨entries, hentries, -⟩ := hfails.exists_ok
    exact ⟨entries, hentries⟩
  | fail f => exact hfails

end Scope

end Arbor
