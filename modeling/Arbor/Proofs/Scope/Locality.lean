import Arbor.Proofs.Heap.Slot
import Arbor.Proofs.Scope.Shape

set_option autoImplicit false

/-! # What a tracker reads

All that is read of a datum, by a tracker that is told of it or to show it in a message, is read from
the records and lists that it reaches. Heaps of one size that look the same from a datum give the same
(`Scope.ofNode_congr`, `Heap.read_congr`); the size counts because a walk through the heap goes on for
no more steps than there are cells. -/

namespace Arbor

namespace Heap

/-- Two heaps of one size look the same from a cell: all that it reaches is the same in both. -/
structure SameFrom (h h' : Heap) (r : Ref) : Prop where
  size : h'.cells.size = h.cells.size
  cell? : ∀ x, h.Reaches r x → h'.cell? x = h.cell? x

/-- Two heaps look the same from a datum. -/
def DatumSame (h h' : Heap) (d : Datum) : Prop := ∀ r, d = .ref r → h.SameFrom h' r

variable {h h' : Heap} {r x : Ref} {d : Datum}

theorem SameFrom.of_reaches (hs : h.SameFrom h' r) (hx : h.Reaches r x) : h.SameFrom h' x :=
  ⟨hs.size, fun y hy => hs.cell? y (hx.trans hy)⟩

theorem SameFrom.fields? (hs : h.SameFrom h' r) : h'.fields? r = h.fields? r := by
  rw [Heap.fields?, Heap.fields?, hs.cell? r .refl]

theorem SameFrom.items? (hs : h.SameFrom h' r) : h'.items? r = h.items? r := by
  rw [Heap.items?, Heap.items?, hs.cell? r .refl]

theorem SameFrom.field (hs : h.SameFrom h' r) (name : Text) : h'.field r name = h.field r name := by
  rw [Heap.field, Heap.field, hs.fields?]

theorem SameFrom.asRecord (hs : h.SameFrom h' r) : h'.asRecord (.ref r) = h.asRecord (.ref r) := by
  rw [Heap.asRecord, Heap.asRecord, hs.fields?]

theorem SameFrom.datum_field (hs : h.SameFrom h' r) (name : Text) :
    h.DatumSame h' (h.field r name) := fun _ hx => hs.of_reaches (reaches_field hx)

theorem SameFrom.datum_item (hs : h.SameFrom h' r) {items : List Datum}
    (hi : h.items? r = some items) (hd : d ∈ items) : h.DatumSame h' d := by
  rintro x rfl
  exact hs.of_reaches (.single (.inr ⟨items, hi, hd⟩))

/-- The elements of a field look the same if the record does. -/
theorem SameFrom.datum_element (hs : h.SameFrom h' r) {name : Text} {items : List Datum}
    (he : h.elements (h.field r name) = .ok items) (hd : d ∈ items) : h.DatumSame h' d := by
  rintro x rfl
  exact hs.of_reaches (reaches_of_mem_elements he hd)

theorem DatumSame.nodeType? (hd : h.DatumSame h' d) : h'.nodeType? d = h.nodeType? d := by
  cases d with
  | scalar _ => rfl
  | ref r => rw [Heap.nodeType?, Heap.nodeType?, (hd r rfl).field]

theorem DatumSame.isNode (hd : h.DatumSame h' d) : h'.isNode d = h.isNode d := by
  rw [Heap.isNode, Heap.isNode, hd.nodeType?]

theorem DatumSame.name? (hd : h.DatumSame h' d) : h'.name? d = h.name? d := by
  cases d with
  | scalar _ => rfl
  | ref r =>
    unfold Heap.name?
    rw [hd.nodeType?]
    cases h.nodeType? (.ref r) with
    | none => rfl
    | some _ =>
      dsimp only
      rw [(hd r rfl).field]

theorem DatumSame.elements (hd : h.DatumSame h' d) : h'.elements d = h.elements d := by
  cases d with
  | scalar s => rw [elements_scalar, elements_scalar]
  | ref r => rw [elements_ref, elements_ref, (hd r rfl).items?]

end Heap

namespace Scope

open Heap

variable {h h' : Heap} {r : Ref}

theorem mapM_congr {ε α β : Type} {f g : α → Except ε β} {l : List α} (hfg : ∀ a ∈ l, f a = g a) :
    l.mapM f = l.mapM g := by
  induction l with
  | nil => rfl
  | cons a l ih =>
    obtain ⟨ha, hl⟩ := List.forall_mem_cons.1 hfg
    rw [List.mapM_cons, List.mapM_cons, ha, ih hl]

/-- What is done with the elements of a field looks the same if it does for elements that look the
    same. -/
theorem elements_bind_congr {β : Type} (hr : h.SameFrom h' r) (name : Text)
    {f f' : List Datum → Except Fault β}
    (hf : ∀ items, (∀ d ∈ items, h.DatumSame h' d) → f' items = f items) :
    (h'.elements (h'.field r name) >>= f') = (h.elements (h.field r name) >>= f) := by
  rw [hr.field, (hr.datum_field name).elements]
  cases he : h.elements (h.field r name) with
  | error _ => rfl
  | ok items => exact hf items fun d hd => hr.datum_element he hd

theorem boundWithin_congr (depth : Nat) {d : Datum} (hd : h.DatumSame h' d) :
    boundWithin h' depth d = boundWithin h depth d := by
  induction depth generalizing d with
  | zero => rfl
  | succ depth ih =>
    have field {x : Ref} (hx : h.SameFrom h' x) (name : Text) :
        boundWithin h' depth (h'.field x name) = boundWithin h depth (h.field x name) := by
      rw [hx.field, ih (hx.datum_field name)]
    -- the patterns in a list bind what its elements bind
    have list {x : Ref} (hx : h.SameFrom h' x) (name : Text)
        {f f' : Datum → Except Fault (List Ref)} (hf : ∀ d, h.DatumSame h' d → f' d = f d) :
        (do
          let items ← h'.elements (h'.field x name)
          pure (← items.mapM f').flatten) = (do
          let items ← h.elements (h.field x name)
          pure (← items.mapM f).flatten) :=
      elements_bind_congr hx name fun items hitems => by
        rw [mapM_congr fun d hd => hf d (hitems d hd)]
    cases d with
    | scalar _ => rfl
    | ref r =>
      have hr := hd r rfl
      unfold boundWithin
      rw [hd.nodeType?]
      cases h.nodeType? (.ref r) with
      | none => rfl
      | some type =>
        dsimp only
        rw [hd.name?, field hr, field hr, list hr "elements" fun d hd => ih hd,
          list hr "properties" fun property hp => ?_]
        cases property with
        | scalar _ => rfl
        | ref p =>
          rw [hp.nodeType?]
          cases h.nodeType? (.ref p) with
          | none => rfl
          | some kind => exact field (hp p rfl) _

theorem boundIdentifiers_congr {d : Datum} (hs : h'.cells.size = h.cells.size)
    (hd : h.DatumSame h' d) : boundIdentifiers h' d = boundIdentifiers h d := by
  rw [boundIdentifiers, boundIdentifiers, hs, boundWithin_congr _ hd]

/-! ## What a node does -/

theorem named_congr (kind : BindingKind) {d : Datum} (hd : h.DatumSame h' d) (node : Ref) :
    Effect.named h' kind d node = Effect.named h kind d node := by
  rw [Effect.named, Effect.named, hd.name?]

theorem pattern_congr (kind : BindingKind) (owner : Ref) {d : Datum} (hs : h'.cells.size = h.cells.size)
    (hd : h.DatumSame h' d) : Effect.pattern h' kind owner d = Effect.pattern h kind owner d := by
  have hbound : Yields (fun _ => True) (fun refs => ∀ x ∈ refs, h.SameFrom h' x)
      (boundWithin h (h.cells.size + 1) d) :=
    boundWithin_yields (fun _ _ hx hlink => hx.of_reaches (.single hlink))
      (fun _ _ _ _ _ _ _ => trivial) _ hd
  rw [Effect.pattern, Effect.pattern, boundIdentifiers_congr hs hd, boundIdentifiers]
  cases hb : boundWithin h (h.cells.size + 1) d with
  | error _ => rfl
  | ok refs =>
    rw [hb] at hbound
    refine congrArg (Effect.declare ∘ Except.ok) (List.filterMap_congr fun x hx => ?_)
    have hsame : h.DatumSame h' (.ref x) := by
      rintro _ ⟨⟩
      exact hbound x hx
    rw [hsame.name?]

theorem patternOf_congr {owner : Ref} (ho : h.SameFrom h' owner) {d : Datum} (hd : h.DatumSame h' d) :
    Effect.patternOf h' owner d = Effect.patternOf h owner d := by
  rw [Effect.patternOf, Effect.patternOf, ho.field, pattern_congr _ _ ho.size hd]

theorem forNodes_congr (hr : h.SameFrom h' r) (name : Text) {effects effects' : Ref → List Effect}
    (he : ∀ x, h.SameFrom h' x → effects' x = effects x) :
    Effect.forNodes h' r name effects' = Effect.forNodes h r name effects := by
  rw [Effect.forNodes, Effect.forNodes, hr.field, (hr.datum_field name).elements]
  cases hitems : h.elements (h.field r name) with
  | error _ => rfl
  | ok items =>
    refine List.flatMap_congr fun d hd => ?_
    have hsame := hr.datum_element hitems hd
    cases d with
    | scalar _ => rfl
    | ref x => 
      dsimp only
      rw [hsame.isNode, he x (hsame x rfl)]

theorem params_congr (hr : h.SameFrom h' r) : Effect.params h' r = Effect.params h r :=
  forNodes_congr hr _ fun x hx => by
    rw [pattern_congr _ _ hr.size]
    rintro _ ⟨⟩
    exact hx

theorem declarators_congr (hr : h.SameFrom h' r) : Effect.declarators h' r = Effect.declarators h r :=
  forNodes_congr hr _ fun x hx => by rw [hx.field, patternOf_congr hr (hx.datum_field _)]

theorem className_congr (hr : h.SameFrom h' r) : Effect.className h' r = Effect.className h r := by
  have hid := hr.datum_field "id"
  rw [Effect.className, Effect.className, hr.field]
  cases hd : h.field r "id" with
  | scalar _ => rfl
  | ref id => exact named_congr _ (hd ▸ hid) id

theorem loopHead_congr (hr : h.SameFrom h' r) (field : Text) :
    Effect.loopHead h' r field = Effect.loopHead h r field := by
  have hhead := hr.datum_field field
  rw [Effect.loopHead, Effect.loopHead, hr.field]
  cases hd : h.field r field with
  | scalar _ => rfl
  | ref head =>
    rw [hd] at hhead
    dsimp only
    rw [hhead.nodeType?, declarators_congr (hhead head rfl)]

theorem ofRole_congr (hr : h.SameFrom h' r) (role : Role) :
    Effect.ofRole h' r role = Effect.ofRole h r role := by
  have hfield (name : Text) : h'.field r name = h.field r name := hr.field name
  cases role with
  | block => rfl
  | functionDeclaration =>
    rw [Effect.ofRole, Effect.ofRole, hfield, named_congr _ (hr.datum_field _), params_congr hr]
  | functionExpression =>
    rw [Effect.ofRole, Effect.ofRole, hfield, named_congr _ (hr.datum_field _), params_congr hr]
  | arrowFunction => rw [Effect.ofRole, Effect.ofRole, params_congr hr]
  | variableDeclaration => exact declarators_congr hr
  | classDeclaration => exact className_congr hr
  | classExpression => rw [Effect.ofRole, Effect.ofRole, className_congr hr]
  | importDeclaration =>
    refine forNodes_congr hr _ fun x hx => ?_
    rw [hx.field, (hx.datum_field _).name?]
  | catchClause =>
    rw [Effect.ofRole, Effect.ofRole, hfield, (hr.datum_field _).isNode,
      patternOf_congr hr (hr.datum_field _)]
  | loop head => rw [Effect.ofRole, Effect.ofRole, loopHead_congr hr]
  | other => rfl

/-- What a node does when it is entered is told by what it reaches. -/
theorem ofNode_congr (hr : h.SameFrom h' r) : Effect.ofNode h' r = Effect.ofNode h r := by
  rw [Effect.ofNode, Effect.ofNode, hr.field]
  split
  · exact ofRole_congr hr _
  · rfl

theorem scopesOf_congr (hr : h.SameFrom h' r) :
    Tracker.scopesOf h' (.ref r) = Tracker.scopesOf h (.ref r) := by
  unfold Tracker.scopesOf
  rw [hr.asRecord, Heap.asRecord_ref]
  split
  · simp only [Bind.bind, Except.bind, hr.field]
  · rfl

/-- A tracker follows a walk into a node and out of it as it is told by what the node reaches. -/
theorem Call.run_congr (hr : h.SameFrom h' r) (phase : Phase) :
    Call.run ⟨phase, h', r⟩ = Call.run ⟨phase, h, r⟩ := by
  cases phase with
  | enter =>
    show Tracker.enter h' (.ref r) = Tracker.enter h (.ref r)
    rw [Tracker.enter, Tracker.enter, hr.asRecord, Heap.asRecord_ref]
    by_cases hf : (h.fields? r).isSome = true
    · rw [if_pos hf]
      exact congrArg Tracker.applyAll (ofNode_congr hr)
    · rw [if_neg hf]
  | leave =>
    show Tracker.leave h' (.ref r) = Tracker.leave h (.ref r)
    rw [Tracker.leave, Tracker.leave, scopesOf_congr hr]

end Scope

namespace Heap

variable {h h' : Heap}

theorem readWithin_congr (depth : Nat) {d : Datum} (hd : h.DatumSame h' d) :
    h'.readWithin depth d = h.readWithin depth d := by
  induction depth generalizing d with
  | zero => cases d <;> rfl
  | succ depth ih =>
    cases d with
    | scalar _ => rfl
    | ref r =>
      have hr := hd r rfl
      rw [readWithin, readWithin, hr.cell? r .refl]
      rcases hc : h.cell? r with _ | (items | fields)
      · rfl
      · refine congrArg Value.list (List.map_congr_left fun d hd => ih ?_)
        exact hr.datum_item ((items?_eq_some h).2 hc) hd
      · refine congrArg Value.record (List.map_congr_left fun f hf => ?_)
        obtain ⟨key, d⟩ := f
        refine congrArg (Prod.mk key) (ih ?_)
        rintro x rfl
        exact hr.of_reaches (.single (.inl ⟨fields, key, (fields?_eq_some h).2 hc, hf⟩))

/-- The value of a datum is told by what it reaches. -/
theorem read_congr {d : Datum} (hs : h'.cells.size = h.cells.size) (hd : h.DatumSame h' d) :
    h'.read d = h.read d := by
  rw [read, read, hs, readWithin_congr _ hd]

end Heap

end Arbor
