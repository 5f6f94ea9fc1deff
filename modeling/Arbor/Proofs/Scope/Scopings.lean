import Arbor.Proofs.Scope.Shape

set_option autoImplicit false

/-! # What a node declares, and in which scope

Each type of nodes opens scopes and declares names in its own way: a function declares its parameters in
the scope that it opens, a function expression its own name in one more scope around that one, a
declaration of variables declares them where it stands. All this is told here from the types and the
fields of the nodes alone (`Heap.scoping`). A tracker that enters a node whose lists can be gone through
opens just these scopes and declares just these names in them (`ofSteps_ofNode`). -/

namespace Arbor

open Scope

namespace Heap

/-! ## Names -/

/-- The elements of the list in a field; none if the field holds no list. -/
def listed (h : Heap) (r : Ref) (name : Text) : List Datum :=
  match h.field r name with
  | .ref l => (h.items? l).getD []
  | .scalar _ => []

/-- The syntax nodes among the elements of the list in a field. -/
def nodesIn (h : Heap) (r : Ref) (name : Text) : List Ref :=
  (h.listed r name).filterMap fun d =>
    match d with
    | .ref x => if h.isNode d then some x else none
    | .scalar _ => none

/-- What the name of a node declares. A name is a text that is not empty. -/
def nameEntries (h : Heap) (kind : BindingKind) (holder : Datum) (node : Ref) (owner? : Option Ref) :
    List Entry :=
  match holder with
  | .scalar _ => []
  | .ref r =>
    match h.nodeType? (.ref r), h.field r "name" with
    | some _, .scalar (.text name) => if name.isEmpty then [] else [⟨name, kind, node, owner?⟩]
    | _, _ => []

/-- The patterns that a pattern of a given type is made of, from left to right. -/
def subpatterns (h : Heap) (r : Ref) (type : Text) : List Datum :=
  if type = "AssignmentPattern" then [h.field r "left"]
  else if type = "RestElement" then [h.field r "argument"]
  else if type = "ArrayPattern" then h.listed r "elements"
  else if type = "ObjectPattern" then
    (h.nodesIn r "properties").map fun p =>
      h.field p (if h.field p "type" = .text "RestElement" then "argument" else "value")
  else []

/-- What the identifiers of a pattern declare that lie at most so many nodes deep in it. -/
def entriesWithin (h : Heap) (kind : BindingKind) (owner : Ref) : Nat → Datum → List Entry
  | 0, _ => []
  | depth + 1, d =>
    match d, h.nodeType? d with
    | .ref r, some type =>
      if type = "Identifier" then h.nameEntries kind d r (some owner)
      else (h.subpatterns r type).flatMap (h.entriesWithin kind owner depth)
    | _, _ => []

/-- What the identifiers of a pattern declare. A pattern that does not lie in itself is no deeper than
    there are cells. -/
def patternEntries (h : Heap) (kind : BindingKind) (owner : Ref) (d : Datum) : List Entry :=
  h.entriesWithin kind owner (h.cells.size + 1) d

/-- The parameters of a function. -/
def paramEntries (h : Heap) (r : Ref) : List Entry :=
  (h.nodesIn r "params").flatMap fun param => h.patternEntries .param r (.ref param)

/-- The variables of a declaration. -/
def variableEntries (h : Heap) (r : Ref) : List Entry :=
  (h.nodesIn r "declarations").flatMap fun declarator =>
    h.patternEntries .var r (h.field declarator "id")

/-- The variables that the head of a loop declares. -/
def headEntries (h : Heap) (r : Ref) (head : Text) : List Entry :=
  match h.field r head with
  | .ref x => if h.field x "type" = .text "VariableDeclaration" then h.variableEntries x else []
  | .scalar _ => []

/-- The name of a function. -/
def functionEntries (h : Heap) (r : Ref) : List Entry :=
  h.nameEntries .function (h.field r "id") r none

/-- The name of a class. -/
def classEntries (h : Heap) (r : Ref) : List Entry :=
  match h.field r "id" with
  | .ref id => h.nameEntries .identifier (.ref id) id none
  | .scalar _ => []

/-- The local names of an import. -/
def importEntries (h : Heap) (r : Ref) : List Entry :=
  (h.nodesIn r "specifiers").flatMap fun specifier =>
    h.nameEntries .imported (h.field specifier "local") specifier (some r)

/-- What is declared by the parameter of a catch clause. -/
def catchEntries (h : Heap) (r : Ref) : List Entry := h.patternEntries .catchParam r (h.field r "param")

end Heap

/-! ## Scopes -/

namespace Scope

/-- What a node declares in the scope that it lies in, and then what it declares in each of the scopes
    that it opens, the outermost first. -/
structure Scoping where
  here : List Entry := []
  opened : List (List Entry) := []

/-- The types of nodes that open scopes or declare names. -/
def scopings (h : Heap) (r : Ref) : List (Text × Scoping) := [
  ("Program", ⟨[], [[]]⟩), ("BlockStatement", ⟨[], [[]]⟩), ("StaticBlock", ⟨[], [[]]⟩),
  ("FunctionDeclaration", ⟨h.functionEntries r, [h.paramEntries r]⟩),
  ("FunctionExpression", ⟨[], [h.functionEntries r, h.paramEntries r]⟩),
  ("ArrowFunctionExpression", ⟨[], [h.paramEntries r]⟩),
  ("VariableDeclaration", ⟨h.variableEntries r, []⟩),
  ("ClassDeclaration", ⟨h.classEntries r, []⟩),
  ("ClassExpression", ⟨[], [h.classEntries r]⟩),
  ("ImportDeclaration", ⟨h.importEntries r, []⟩),
  ("CatchClause", ⟨[], [h.catchEntries r]⟩),
  ("ForStatement", ⟨[], [h.headEntries r "init"]⟩),
  ("ForOfStatement", ⟨[], [h.headEntries r "left"]⟩),
  ("ForInStatement", ⟨[], [h.headEntries r "left"]⟩)]

end Scope

/-- The scopes that a node opens, and the names that it declares. -/
def Heap.scoping (h : Heap) (r : Ref) : Scoping :=
  match h.nodeType? (.ref r) with
  | some type => ((scopings h r).lookup type).getD {}
  | none => {}

/-! ## What the steps of a node declare -/

namespace Scope

/-- What a table holds for a key stays there when all that it holds is mapped. -/
theorem lookup_map_snd {α β γ : Type} [BEq α] (f : β → γ) (table : List (α × β)) (key : α) :
    (table.map fun e => (e.1, f e.2)).lookup key = (table.lookup key).map f := by
  induction table with
  | nil => rfl
  | cons e table ih =>
    rw [List.map_cons, List.lookup_cons, List.lookup_cons, ih]
    cases key == e.1 <;> rfl

/-- The declarations that a step makes. -/
def Effect.entries : Effect → List Entry
  | .declare (.ok entries) => entries
  | _ => []

/-- The declarations that several steps make. -/
def entriesOf (effects : List Effect) : List Entry := effects.flatMap Effect.entries

theorem entriesOf_cons (e : Effect) (effects : List Effect) :
    entriesOf (e :: effects) = e.entries ++ entriesOf effects := List.flatMap_cons

namespace Scoping

/-- What steps declare, scope by scope. -/
def ofSteps : List Effect → Scoping
  | [] => {}
  | .push :: rest => ⟨[], (ofSteps rest).here :: (ofSteps rest).opened⟩
  | e :: rest => ⟨e.entries ++ (ofSteps rest).here, (ofSteps rest).opened⟩

theorem ofSteps_push (effects : List Effect) :
    ofSteps (.push :: effects) = ⟨[], (ofSteps effects).here :: (ofSteps effects).opened⟩ := rfl

/-- Before the next scope is opened all is declared in the current one. -/
theorem ofSteps_append {effects : List Effect} (hp : pushes effects = 0) (effects' : List Effect) :
    ofSteps (effects ++ effects') =
      ⟨entriesOf effects ++ (ofSteps effects').here, (ofSteps effects').opened⟩ := by
  rw [pushes_eq_zero] at hp
  induction effects with
  | nil => rfl
  | cons e effects ih =>
    obtain ⟨he, heffects⟩ := List.forall_mem_cons.1 hp
    cases e with
    | push => cases he
    | declare entries? =>
      rw [List.cons_append, ofSteps, ih heffects, entriesOf_cons, List.append_assoc]
      simp
    | fail f =>
      rw [List.cons_append, ofSteps, ih heffects, entriesOf_cons, List.append_assoc]
      simp

theorem ofSteps_of_pushes {effects : List Effect} (hp : pushes effects = 0) :
    ofSteps effects = ⟨entriesOf effects, []⟩ := by
  have happend := ofSteps_append hp []
  rw [List.append_nil] at happend
  simpa [ofSteps] using happend

end Scoping

open Scoping

variable {h : Heap} {r : Ref}

section

variable (hr : h.FailsBy (fun _ => False) r) (hnode : h.isNode (.ref r) = true)

include hr hnode

/-- A list that can be gone through has the elements that the field lists. -/
theorem elements_listed {name : Text} (hn : name ∈ Heap.listFields) :
    h.elements (h.field r name) = .ok (h.listed r name) := by
  obtain ⟨items, hitems, -⟩ := (hr.elements hnode hn).exists_ok
  rw [hitems, Heap.listed]
  cases hfield : h.field r name with
  | scalar s =>
    rw [hfield, Heap.elements_scalar] at hitems
    split at hitems <;> cases hitems
    rfl
  | ref l =>
    rw [hfield, Heap.elements_ref] at hitems
    exact hitems.symm

theorem failsBy_listed {name : Text} (hn : name ∈ Heap.listFields) {d : Datum}
    (hd : d ∈ h.listed r name) : DatumFailsBy h (fun _ => False) d := by
  rintro x rfl
  exact hr.of_reaches (Heap.reaches_of_mem_elements (elements_listed hr hnode hn) hd)

end

theorem nameEntries_eq (kind : BindingKind) (holder : Datum) (node : Ref) (owner? : Option Ref) :
    h.nameEntries kind holder node owner? =
      ((h.name? holder).map fun name => ⟨name, kind, node, owner?⟩).toList := by
  cases holder with
  | scalar s => rfl
  | ref x =>
    cases htype : h.nodeType? (.ref x) with
    | none => simp [Heap.nameEntries, Heap.name?, htype]
    | some type =>
      simp only [Heap.nameEntries, Heap.name?, htype]
      generalize h.field x "name" = d
      rcases d with (_ | _ | _ | _ | name) | _
      case scalar.text => cases hname : name.isEmpty <;> simp [hname]
      all_goals rfl

theorem entriesOf_named (kind : BindingKind) (holder : Datum) (node : Ref) :
    entriesOf (Effect.named h kind holder node) = h.nameEntries kind holder node none := by
  rw [nameEntries_eq, Effect.named]
  cases h.name? holder <;> rfl

/-! ## Patterns -/

/-- What an identifier declares that a pattern binds. -/
def entryOf? (h : Heap) (kind : BindingKind) (owner r : Ref) : Option Entry :=
  (h.name? (.ref r)).map fun name => ⟨name, kind, r, some owner⟩

/-- The patterns in a list declare together what each of them declares. -/
theorem filterMap_flatten {items : List Datum} {refss : List (List Ref)} {f : Ref → Option Entry}
    {e : Datum → List Entry} (he : List.Forall₂ (fun d refs => refs.filterMap f = e d) items refss) :
    refss.flatten.filterMap f = items.flatMap e := by
  induction he with
  | nil => rfl
  | cons hd _ ih => rw [List.flatten_cons, List.filterMap_append, hd, ih, List.flatMap_cons]

/-- Of the elements of a list only the nodes count. -/
theorem flatMap_nodesIn (name : Text) (e : Ref → List Entry) :
    (h.nodesIn r name).flatMap e = (h.listed r name).flatMap fun d =>
      match d with
      | .ref x => if h.isNode d then e x else []
      | .scalar _ => [] := by
  rw [Heap.nodesIn]
  induction h.listed r name with
  | nil => rfl
  | cons d items ih =>
    rw [List.flatMap_cons, ← ih]
    cases d with
    | scalar s => rfl
    | ref x => cases hx : h.isNode (.ref x) <;> simp [hx]

/-- The identifiers that a pattern binds declare what its fields tell. -/
theorem boundWithin_entries (kind : BindingKind) (owner : Ref) (depth : Nat) {d : Datum}
    (hd : DatumFailsBy h (fun _ => False) d) :
    Yields (fun _ => False)
      (fun refs => refs.filterMap (entryOf? h kind owner) = h.entriesWithin kind owner depth d)
      (boundWithin h depth d) := by
  induction depth generalizing d with
  | zero => exact rfl
  | succ depth ih =>
    cases d with
    | scalar s => exact rfl
    | ref r =>
      have hr := hd r rfl
      cases htype : h.nodeType? (.ref r) with
      | none => simp [boundWithin, Heap.entriesWithin, htype]
      | some type =>
        have hnode := Heap.isNode_of_type htype
        have field (name : Text) := ih (failsBy_field hr name)
        simp only [boundWithin, Heap.entriesWithin, Heap.subpatterns, htype]
        split_ifs with hidentifier hname hassignment hrest harray hobject
        · rw [nameEntries_eq, Yields.ok]
          obtain ⟨name, hname⟩ := Option.isSome_iff_exists.1 hname
          simp [entryOf?, hname]
        · rw [nameEntries_eq, Yields.ok]
          simp [Option.not_isSome_iff_eq_none.1 hname]
        · simpa using field "left"
        · simpa using field "argument"
        · rw [elements_listed hr hnode (by decide)]
          refine (Yields.mapM_forall₂ fun d hd => ?_).bind fun _ hrefss => filterMap_flatten hrefss
          exact ih (failsBy_listed hr hnode (by decide) hd)
        · rw [elements_listed hr hnode (by decide), List.flatMap_map, flatMap_nodesIn]
          refine (Yields.mapM_forall₂ fun d hd => ?_).bind fun _ hrefss => filterMap_flatten hrefss
          cases d with
          | scalar s => exact rfl
          | ref p =>
            have hp := failsBy_listed hr hnode (by decide) hd p rfl
            cases hkind : h.nodeType? (.ref p) with
            | none => simp [Heap.isNode, hkind]
            | some kind =>
              have hfield := ih (failsBy_field hp (if kind = "RestElement" then "argument" else "value"))
              simpa [Heap.isNode, hkind, field_of_type hkind, Datum.text] using hfield
        · exact rfl

theorem entriesOf_pattern (kind : BindingKind) (owner : Ref) {d : Datum}
    (hd : DatumFailsBy h (fun _ => False) d) :
    entriesOf [Effect.pattern h kind owner d] = h.patternEntries kind owner d := by
  obtain ⟨refs, hrefs, hentries⟩ := (boundWithin_entries kind owner _ hd).exists_ok
  rw [Effect.pattern, boundIdentifiers, hrefs, Heap.patternEntries, ← hentries]
  exact List.append_nil _

/-! ## The parts that nodes play -/

theorem entriesOf_className : entriesOf (Effect.className h r) = h.classEntries r := by
  rw [Effect.className, Heap.classEntries]
  cases h.field r "id" with
  | scalar s => rfl
  | ref id => exact entriesOf_named ..

section

variable (hr : h.FailsBy (fun _ => False) r)

include hr

theorem entriesOf_forNodes (hnode : h.isNode (.ref r) = true) {name : Text}
    (hn : name ∈ Heap.listFields) {effects : Ref → List Effect} {e : Ref → List Entry}
    (he : ∀ x, h.FailsBy (fun _ => False) x → entriesOf (effects x) = e x) :
    entriesOf (Effect.forNodes h r name effects) = (h.nodesIn r name).flatMap e := by
  rw [Effect.forNodes, elements_listed hr hnode hn, flatMap_nodesIn]
  simp only [entriesOf, List.flatMap_assoc]
  refine List.flatMap_congr fun d hd => ?_
  cases d with
  | scalar s => rfl
  | ref x =>
    simp only
    split
    · exact he x (failsBy_listed hr hnode hn hd x rfl)
    · rfl

theorem entriesOf_params (hnode : h.isNode (.ref r) = true) :
    entriesOf (Effect.params h r) = h.paramEntries r := by
  refine entriesOf_forNodes hr hnode (by decide) fun x hx => entriesOf_pattern _ _ ?_
  rintro _ ⟨⟩
  exact hx

theorem entriesOf_declarators (htype : h.nodeType? (.ref r) = some "VariableDeclaration") :
    entriesOf (Effect.declarators h r) = h.variableEntries r := by
  refine entriesOf_forNodes hr (Heap.isNode_of_type htype) (by decide) fun x hx => ?_
  rw [patternOf_of_type htype]
  exact entriesOf_pattern _ _ (failsBy_field hx _)

theorem entriesOf_loopHead (head : Text) :
    entriesOf (Effect.loopHead h r head) = h.headEntries r head := by
  have hfield := failsBy_field hr head
  rw [Effect.loopHead, Heap.headEntries]
  generalize h.field r head = d at hfield
  cases d with
  | scalar s => rfl
  | ref x =>
    have htype : h.nodeType? (.ref x) = some "VariableDeclaration" ↔
        h.field x "type" = .text "VariableDeclaration" := nodeType?_eq_some
    simp only [← htype]
    split
    · next hdeclaration => exact entriesOf_declarators (hfield x rfl) hdeclaration
    · rfl

theorem entriesOf_imports (hnode : h.isNode (.ref r) = true) :
    entriesOf (Effect.ofRole h r .importDeclaration) = h.importEntries r := by
  refine entriesOf_forNodes hr hnode (by decide) fun x _ => ?_
  rw [nameEntries_eq]
  cases h.name? (h.field x "local") <;> rfl

theorem entriesOf_catch (htype : h.nodeType? (.ref r) = some "CatchClause") :
    entriesOf (if h.isNode (h.field r "param") then [Effect.patternOf h r (h.field r "param")] else []) =
      h.catchEntries r := by
  have hfield := failsBy_field hr "param"
  rw [patternOf_of_type htype, Heap.catchEntries]
  split
  · exact entriesOf_pattern _ _ hfield
  · next hnode =>
    cases hparam : h.field r "param" with
    | scalar s => rfl
    | ref x =>
      rw [hparam, Heap.isNode, Bool.not_eq_true, Option.isSome_eq_false_iff,
        Option.isNone_iff_eq_none] at hnode
      simp [Heap.patternEntries, Heap.entriesWithin, hnode, entriesOf]

end

/-! ## What a node does -/

/-- What a node with a given role opens and declares. -/
def scopingAs (h : Heap) (r : Ref) : Role → Scoping
  | .block => ⟨[], [[]]⟩
  | .functionDeclaration => ⟨h.functionEntries r, [h.paramEntries r]⟩
  | .functionExpression => ⟨[], [h.functionEntries r, h.paramEntries r]⟩
  | .arrowFunction => ⟨[], [h.paramEntries r]⟩
  | .variableDeclaration => ⟨h.variableEntries r, []⟩
  | .classDeclaration => ⟨h.classEntries r, []⟩
  | .classExpression => ⟨[], [h.classEntries r]⟩
  | .importDeclaration => ⟨h.importEntries r, []⟩
  | .catchClause => ⟨[], [h.catchEntries r]⟩
  | .loop head => ⟨[], [h.headEntries r head]⟩
  | .other => {}

theorem scoping_of_type {type : Text} (htype : h.nodeType? (.ref r) = some type) :
    h.scoping r = scopingAs h r (.ofType type) := by
  have hscopings : scopings h r = roles.map fun e => (e.1, scopingAs h r e.2) := rfl
  rw [Heap.scoping, htype]
  simp only
  rw [hscopings, lookup_map_snd, Role.ofType]
  cases roles.lookup type <;> rfl

/-- A node opens as many scopes as its type tells. -/
theorem length_opened {type : Text} (htype : h.nodeType? (.ref r) = some type) :
    (h.scoping r).opened.length = (Role.ofType type).opens := by
  rw [scoping_of_type htype]
  cases Role.ofType type <;> rfl

theorem ofSteps_ofRole (hr : h.FailsBy (fun _ => False) r) {type : Text}
    (htype : h.nodeType? (.ref r) = some type) {role : Role} (hrole : Role.ofType type = role) :
    ofSteps (Effect.ofRole h r role) = scopingAs h r role := by
  have hnode := Heap.isNode_of_type htype
  have hparams : ofSteps (Effect.params h r) = ⟨h.paramEntries r, []⟩ := by
    rw [ofSteps_of_pushes (pushes_params h r), entriesOf_params hr hnode]
  cases role with
  | block => rfl
  | other => rfl
  | functionDeclaration =>
    rw [Effect.ofRole, List.append_assoc, ofSteps_append (pushes_named ..), entriesOf_named,
      List.singleton_append, ofSteps_push, hparams]
    simp [scopingAs, Heap.functionEntries]
  | functionExpression =>
    rw [Effect.ofRole, List.append_assoc, List.append_assoc, List.singleton_append, ofSteps_push,
      ofSteps_append (pushes_named ..), entriesOf_named, List.singleton_append, ofSteps_push, hparams]
    simp [scopingAs, Heap.functionEntries]
  | arrowFunction =>
    rw [Effect.ofRole, List.singleton_append, ofSteps_push, hparams]
    rfl
  | variableDeclaration =>
    obtain rfl : type = "VariableDeclaration" := type_of_role hrole (by decide) (by decide)
    rw [Effect.ofRole, ofSteps_of_pushes (pushes_declarators h r), entriesOf_declarators hr htype]
    rfl
  | classDeclaration =>
    rw [Effect.ofRole, ofSteps_of_pushes (pushes_className h r), entriesOf_className]
    rfl
  | classExpression =>
    rw [Effect.ofRole, List.singleton_append, ofSteps_push, ofSteps_of_pushes (pushes_className h r),
      entriesOf_className]
    rfl
  | importDeclaration =>
    rw [ofSteps_of_pushes (pushes_ofRole h r .importDeclaration), entriesOf_imports hr hnode]
    rfl
  | catchClause =>
    obtain rfl : type = "CatchClause" := type_of_role hrole (by decide) (by decide)
    have hpushes : pushes (if h.isNode (h.field r "param") then
        [Effect.patternOf h r (h.field r "param")] else []) = 0 := by
      split <;> rfl
    rw [Effect.ofRole, List.singleton_append, ofSteps_push, ofSteps_of_pushes hpushes,
      entriesOf_catch hr htype]
    rfl
  | loop head =>
    rw [Effect.ofRole, List.singleton_append, ofSteps_push, ofSteps_of_pushes (pushes_loopHead h r _),
      entriesOf_loopHead hr]
    rfl

/-- A node whose lists can be gone through opens the scopes and declares the names that its type and its
    fields tell. -/
theorem ofSteps_ofNode (hr : h.FailsBy (fun _ => False) r) {type : Text}
    (htype : h.nodeType? (.ref r) = some type) : ofSteps (Effect.ofNode h r) = h.scoping r := by
  rw [ofNode_of_type htype, scoping_of_type htype, ofSteps_ofRole hr htype rfl]

end Scope

end Arbor
