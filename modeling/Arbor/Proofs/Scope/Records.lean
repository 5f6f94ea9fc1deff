import Arbor.Proofs.Heap.Slot
import Arbor.Proofs.Scope.Runs
import Arbor.Scope.Binding

set_option autoImplicit false

/-! # The records of a tracker

A tracker writes down what a node declares as the node is entered. What it writes down tells a name, one of
six kinds and, for the kinds that have one, the construct around the declaration, which is of the type that
goes with the kind (`made_ofNode`). So the type of a construct always tells what its pattern declares. And
whatever a tracker is told, each of its records is filed under the scope whose key it bears, and its range can
be told as long as the nodes are there (`records_usable`). -/

namespace Arbor

/-- What is a record in one heap is a record in another one. -/
def Heap.KeepsRecords (h h' : Heap) : Prop :=
  ∀ r, (h.fields? r).isSome = true → (h'.fields? r).isSome = true

theorem Heap.isSome_fields?_of_isNode {h : Heap} {r : Ref} (hn : h.isNode (.ref r) = true) :
    (h.fields? r).isSome = true := by
  obtain ⟨type, htype⟩ := Option.isSome_iff_exists.1 hn
  have hrecord := Scope.asRecord_of_type htype
  rw [Heap.asRecord_ref] at hrecord
  by_contra hf
  rw [if_neg hf] at hrecord
  cases hrecord

/-- What has a name is a node, and the name is not empty. -/
theorem Heap.of_name? {h : Heap} {d : Datum} {name : Text} (hname : h.name? d = some name) :
    name.isEmpty = false ∧ h.isNode d = true := by
  unfold name? at hname
  split at hname
  · next htype =>
    refine ⟨?_, Heap.isNode_of_type htype⟩
    split at hname
    · split at hname
      · cases hname
      · next hempty =>
        rw [← Option.some.inj hname]
        exact Bool.eq_false_iff.2 hempty
    · cases hname
  · cases hname

namespace Scope

/-- The kinds of the declarations that a tracker makes. -/
def BindingKind.known : List BindingKind := [.param, .function, .var, .identifier, .imported, .catchParam]

/-- The types of the constructs around the declarations of a kind, if there are such constructs. -/
def BindingKind.ownerTypes : BindingKind → List Text
  | .param => functionTypes
  | .var => ["VariableDeclaration"]
  | .imported => ["ImportDeclaration"]
  | .catchParam => ["CatchClause"]
  | .function | .identifier | .other _ => []

/-- A declaration as a node makes it: of a name, by a node and with the construct that goes with its kind. -/
structure Entry.Made (h : Heap) (e : Entry) : Prop where
  name : e.name.isEmpty = false
  kind : e.kind ∈ BindingKind.known
  node : h.isNode (.ref e.node) = true
  owner : e.kind.ownerTypes ≠ [] →
    ∃ o type, e.owner? = some o ∧ h.nodeType? (.ref o) = some type ∧ type ∈ e.kind.ownerTypes

variable {h : Heap} {r : Ref}

/-! ## What a node declares -/

/-- Steps that make declarations as nodes do. -/
def AllMade (h : Heap) (effects : List Effect) : Prop := ∀ e ∈ entriesOf effects, e.Made h

theorem AllMade.nil : AllMade h [] := fun _ he => absurd he List.not_mem_nil

theorem AllMade.push : AllMade h [.push] := fun _ he => absurd he List.not_mem_nil

theorem AllMade.append {effects effects' : List Effect} (he : AllMade h effects)
    (he' : AllMade h effects') : AllMade h (effects ++ effects') := by
  intro e hmem
  rw [entriesOf, List.flatMap_append, List.mem_append] at hmem
  exact hmem.elim (he e) (he' e)

theorem AllMade.declare {entries : List Entry} (he : ∀ e ∈ entries, e.Made h) :
    AllMade h [.declare (.ok entries)] := by
  intro e hmem
  rw [entriesOf_cons, List.mem_append] at hmem
  exact hmem.elim (he e) fun hmem => absurd hmem List.not_mem_nil

theorem made_named {kind : BindingKind} (hkind : kind ∈ BindingKind.known) (hnone : kind.ownerTypes = [])
    {holder : Datum} (hr : (h.name? holder).isSome = true → h.isNode (.ref r) = true) :
    AllMade h (Effect.named h kind holder r) := by
  unfold Effect.named
  cases hname : h.name? holder with
  | none => exact .nil
  | some name =>
    refine AllMade.declare (List.forall_mem_singleton.2 ?_)
    exact ⟨(Heap.of_name? hname).1, hkind, hr (by rw [hname]; rfl), fun howned => absurd hnone howned⟩

theorem made_pattern {kind : BindingKind} (hkind : kind ∈ BindingKind.known) {type : Text}
    (ht : h.nodeType? (.ref r) = some type) (htype : type ∈ kind.ownerTypes) (d : Datum) :
    AllMade h [Effect.pattern h kind r d] := by
  unfold Effect.pattern
  cases boundIdentifiers h d with
  | error f => exact AllMade.nil
  | ok refs =>
    refine AllMade.declare fun e he => ?_
    obtain ⟨x, -, hx⟩ := List.mem_filterMap.1 he
    obtain ⟨name, hname, rfl⟩ := Option.map_eq_some_iff.1 hx
    obtain ⟨hempty, hnode⟩ := Heap.of_name? hname
    exact ⟨hempty, hkind, hnode, fun _ => ⟨r, type, rfl, ht, htype⟩⟩

/-- The type of a construct tells what its pattern declares, if the construct is a declaration of variables
    or a catch clause. -/
theorem made_patternOf {type : Text} (ht : h.nodeType? (.ref r) = some type)
    (htype : type = "VariableDeclaration" ∨ type = "CatchClause") (d : Datum) :
    AllMade h [Effect.patternOf h r d] := by
  rw [patternOf_of_type ht]
  rcases htype with rfl | rfl
  · exact made_pattern (by decide) ht (by decide) d
  · exact made_pattern (by decide) ht (by decide) d

theorem made_forNodes (name : Text) {effects : Ref → List Effect}
    (he : ∀ x, h.isNode (.ref x) = true → AllMade h (effects x)) :
    AllMade h (Effect.forNodes h r name effects) := by
  unfold Effect.forNodes
  cases h.elements (h.field r name) with
  | error f => exact .nil
  | ok items =>
    simp only [AllMade, entriesOf, List.flatMap_assoc]
    refine List.forall_mem_flatMap.2 fun d _ => ?_
    cases d with
    | scalar s => exact AllMade.nil
    | ref x =>
      simp only
      split
      · next hnode => exact he x hnode
      · exact AllMade.nil

theorem made_params {type : Text} (ht : h.nodeType? (.ref r) = some type) (htype : type ∈ functionTypes) :
    AllMade h (Effect.params h r) := by
  have howner : type ∈ BindingKind.param.ownerTypes := htype
  exact made_forNodes _ fun x _ => made_pattern (by decide) ht howner (.ref x)

theorem made_declarators (ht : h.nodeType? (.ref r) = some "VariableDeclaration") :
    AllMade h (Effect.declarators h r) :=
  made_forNodes _ fun _ _ => made_patternOf ht (.inl rfl) _

theorem made_className : AllMade h (Effect.className h r) := by
  unfold Effect.className
  split
  · next id _ =>
    refine made_named (by decide) rfl fun hname => ?_
    obtain ⟨name, hname⟩ := Option.isSome_iff_exists.1 hname
    exact (Heap.of_name? hname).2
  · exact .nil

theorem made_loopHead (head : Text) : AllMade h (Effect.loopHead h r head) := by
  unfold Effect.loopHead
  split
  · split
    · next htype => exact made_declarators htype
    · exact .nil
  · exact .nil

theorem made_imports (ht : h.nodeType? (.ref r) = some "ImportDeclaration") :
    AllMade h (Effect.ofRole h r .importDeclaration) := by
  refine made_forNodes _ fun x hnode => ?_
  cases hname : h.name? (h.field x "local") with
  | none => exact .nil
  | some name =>
    have hkind : BindingKind.imported ∈ BindingKind.known := by decide
    refine AllMade.declare (List.forall_mem_singleton.2 ?_)
    exact ⟨(Heap.of_name? hname).1, hkind, hnode, fun _ => ⟨r, _, rfl, ht, List.mem_singleton.2 rfl⟩⟩

/-- What a node declares as it is entered, whatever it holds. -/
theorem made_ofNode (h : Heap) (r : Ref) : AllMade h (Effect.ofNode h r) := by
  unfold Effect.ofNode
  split
  · next type hfield =>
    have ht : h.nodeType? (.ref r) = some type := by rw [Heap.nodeType?, hfield]
    have hnode := Heap.isNode_of_type ht
    have hname : AllMade h (Effect.named h .function (h.field r "id") r) :=
      made_named (by decide) rfl fun _ => hnode
    cases hrole : Role.ofType type with
    | block => exact .push
    | functionDeclaration =>
      obtain rfl : type = "FunctionDeclaration" := type_of_role hrole (by decide) (by decide)
      exact (hname.append .push).append (made_params ht (by decide))
    | functionExpression =>
      obtain rfl : type = "FunctionExpression" := type_of_role hrole (by decide) (by decide)
      exact ((AllMade.push.append hname).append .push).append (made_params ht (by decide))
    | arrowFunction =>
      obtain rfl : type = "ArrowFunctionExpression" := type_of_role hrole (by decide) (by decide)
      exact AllMade.push.append (made_params ht (by decide))
    | variableDeclaration =>
      obtain rfl : type = "VariableDeclaration" := type_of_role hrole (by decide) (by decide)
      exact made_declarators ht
    | classDeclaration => exact made_className
    | classExpression => exact AllMade.push.append made_className
    | importDeclaration =>
      obtain rfl : type = "ImportDeclaration" := type_of_role hrole (by decide) (by decide)
      exact made_imports ht
    | catchClause =>
      obtain rfl : type = "CatchClause" := type_of_role hrole (by decide) (by decide)
      refine AllMade.push.append ?_
      split
      · exact made_patternOf ht (.inr rfl) _
      · exact .nil
    | loop head => exact AllMade.push.append (made_loopHead head)
    | other => exact .nil
  · exact .nil

/-! ## What a tracker stores -/

/-- All that is stored is one of some declarations, filed under the scope that it was made in. -/
def FiledFrom (entries : List Entry) (t : Tracker) : Prop :=
  ∀ path bindings, (path, bindings) ∈ t.scopes → ∀ name d, (name, d) ∈ bindings →
    ∃ e ∈ entries, e.name = name ∧ e.declaration path = d

/-- What a tracker stores is filed where it is made, by the path and by the key alike. -/
theorem steady_filedFrom {entries made : List Entry} (h : entries ⊆ made) :
    Steady entries (FiledFrom made) where
  push _ ht := ht
  pop t ht := by
    unfold Tracker.pop
    split
    · exact ht
    · intro path bindings hmem
      dsimp only at hmem
      split at hmem
      · exact ht path bindings hmem
      · exact ht path bindings (Fields.mem_of_mem_erase hmem)
  declare t ht _ e he := by
    intro path bindings hmem name d hd
    rcases Fields.mem_set hmem with heq | hmem
    · obtain ⟨rfl, rfl⟩ := Prod.mk.inj heq
      -- the declaration is the new one, or has been stored for this scope before
      rcases Fields.mem_set hd with heq | hd
      · obtain ⟨rfl, rfl⟩ := Prod.mk.inj heq
        exact ⟨e, h he, rfl, rfl⟩
      · rw [Tracker.bindings] at hd
        cases hget : Fields.get? t.scopes t.path with
        | none => simp [hget] at hd
        | some stored =>
          rw [hget, Option.getD_some] at hd
          exact ht _ _ (Fields.mem_of_get? hget) name d hd
    · exact ht path bindings hmem name d hd

/-- The declarations that nodes make as they are entered. -/
def Message.entries : Message → List Entry
  | call c => c.entries
  | freeze => []

theorem filedFrom_told (preserves : Bool) (messages : List Message) :
    FiledFrom (messages.flatMap Message.entries) ((Tracker.fresh preserves).told messages) := by
  refine Steady.told (fun c hc => steady_filedFrom fun e he => ?_) (fun _ _ ht => ht) ?_
  · exact List.mem_flatMap.2 ⟨.call c, hc, he⟩
  · intro path bindings hmem
    cases hmem

/-- The range of a declaration can be told as long as the records that were there when it was made are still
    records. -/
theorem Entry.Made.position {e : Entry} (he : e.Made h) {h' : Heap} (hkeeps : h.KeepsRecords h')
    (path : ScopePath) (field : Text) : ∃ x, (e.declaration path).position h' field = .ok x := by
  have hknown : ∃ r, (e.declaration path).positionNode? = .ok (some r) ∧ h.isNode (.ref r) = true := by
    have hkind := he.kind
    have howner := he.owner
    unfold Declaration.positionNode? Entry.declaration
    cases hk : e.kind with
    | function => exact ⟨_, rfl, he.node⟩
    | identifier => exact ⟨_, rfl, he.node⟩
    | other name => simp [hk, BindingKind.known] at hkind
    | _ =>
      obtain ⟨o, type, ho, htype, -⟩ := howner (by rw [hk]; exact List.cons_ne_nil _ _)
      exact ⟨o, by rw [← ho], Heap.isNode_of_type htype⟩
  obtain ⟨r, hr, hnode⟩ := hknown
  obtain ⟨fields, hfields⟩ := Option.isSome_iff_exists.1 (hkeeps r (Heap.isSome_fields?_of_isNode hnode))
  simp only [Declaration.position, hr, hfields, bind, Except.bind]
  exact ⟨_, rfl⟩

/-- Whatever a tracker is told, in any order:

    - Each declaration that a node makes as it is entered is of a name that is not empty and of one of the six
      kinds, and the construct around it is of the type that goes with the kind. So a pattern declares
      parameters for functions alone.
    - Each record that is stored was made by a node that was entered, and is filed under the name and in the
      scope that it was made for. It has a construct around it if its kind goes with one. Its start and end
      can be told as long as the records that were there are still records. -/
theorem records_usable (preserves : Bool) (messages : List Message) :
    (∀ h r, ∀ e ∈ entriesOf (Effect.ofNode h r), e.Made h) ∧
    ∀ path bindings, (path, bindings) ∈ ((Tracker.fresh preserves).told messages).scopes →
      ∀ name d, (name, d) ∈ bindings →
        d.scope = path.key ∧ name.isEmpty = false ∧ d.kind ∈ BindingKind.known ∧
        (d.kind.ownerTypes ≠ [] → d.owner?.isSome = true) ∧
        ∃ c, .call c ∈ messages ∧ (∃ e ∈ c.entries, e.name = name ∧ e.declaration path = d) ∧
          ∀ h', c.heap.KeepsRecords h' → (∃ x, d.start h' = .ok x) ∧ ∃ x, d.stop h' = .ok x := by
  refine ⟨made_ofNode, fun path bindings hmem name d hd => ?_⟩
  obtain ⟨e, he, rfl, rfl⟩ := filedFrom_told preserves messages path bindings hmem name d hd
  obtain ⟨_ | ⟨⟩, hm, he⟩ := List.mem_flatMap.1 he
  · next c =>
    have hmade : e.Made c.heap := by
      obtain ⟨_ | _, h, r⟩ := c
      · exact made_ofNode h r e he
      · cases he
    refine ⟨rfl, hmade.name, hmade.kind, fun howned => ?_, c, hm, ⟨e, he, rfl, rfl⟩, fun h' hkeeps => ?_⟩
    · obtain ⟨o, _, ho, -⟩ := hmade.owner howned
      exact Option.isSome_iff_exists.2 ⟨o, ho⟩
    · exact ⟨hmade.position hkeeps path "start", hmade.position hkeeps path "end"⟩
  · cases he

namespace Sample

/-- A program is left before it is entered; then a function is entered in it, and recording ends. -/
def unbalanced : List Message :=
  [.call ⟨.leave, nodes, 0⟩, .call ⟨.enter, nodes, 0⟩, .call ⟨.enter, nodes, 2⟩, .freeze,
    .call ⟨.leave, nodes, 6⟩]

/-- What is stored for the scope of the parameters. -/
def parameters : Bindings := [("a", ⟨.param, 5, "0-0", some 2⟩)]

/-- The record of the parameter bears the key of its scope, and its range can be told. -/
theorem records_usable_unbalanced :
    ([0, 0], parameters) ∈ ((Tracker.fresh false).told unbalanced).scopes ∧
      ∀ name d, (name, d) ∈ parameters →
        d.scope = "0-0" ∧ (d.kind.ownerTypes ≠ [] → d.owner?.isSome = true) ∧
        ∃ x, d.start nodes = .ok x := by
  have hmem : ([0, 0], parameters) ∈ ((Tracker.fresh false).told unbalanced).scopes := by decide
  refine ⟨hmem, fun name d hd => ?_⟩
  obtain ⟨hscope, -, -, howner, c, hc, -, hrange⟩ := (records_usable false unbalanced).2 _ _ hmem name d hd
  have hheap : c.heap = nodes := by
    simp only [unbalanced, List.mem_cons, Message.call.injEq, reduceCtorEq, List.not_mem_nil, or_false,
      false_or] at hc
    rcases hc with rfl | rfl | rfl | rfl <;> rfl
  exact ⟨hscope, howner, (hrange nodes (hheap ▸ fun _ hr => hr)).1⟩

end Sample

end Scope

end Arbor
