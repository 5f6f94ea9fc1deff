import Arbor.Scope.Path
import Arbor.Scope.Pattern
import Arbor.Scope.Role

set_option autoImplicit false

/-! # The scope tracker

The tracker follows a walk and keeps the declarations of the scopes it has met. Each scope is stored
under its path, and the path comes from counters: each open scope counts the scopes that have been
closed directly inside it, so that no path is used twice while the scope around it is open. The root
is special: the first open scope counts for the outside, and so has the empty path itself.

Scopes that have been left are forgotten unless the tracker preserves them. A frozen tracker goes on
following the walk but records nothing. -/

namespace Arbor.Scope

/-! ## Declarations -/

/-- What kind of binding a declaration makes. -/
inductive BindingKind where
  | param
  | function
  | var
  | identifier
  | imported
  | catchParam
  /-- A kind that no declaration made by a tracker has. -/
  | other (name : Text)
  deriving DecidableEq

namespace BindingKind

def name : BindingKind → Text
  | param => "FunctionParam"
  | function => "Function"
  | var => "Variable"
  | identifier => "Identifier"
  | imported => "Import"
  | catchParam => "CatchParam"
  | other name => name

/-- The kind with a given name. -/
def ofName (t : Text) : BindingKind :=
  ([param, function, var, identifier, imported, catchParam].find? fun k => k.name = t).getD
    (other t)

/-- The kind of binding that a construct makes by a pattern, by the type of the construct. -/
def ofConstruct (type : Datum) : BindingKind :=
  if type = Datum.text "VariableDeclaration" then var
  else if type = Datum.text "CatchClause" then catchParam
  else param

end BindingKind

/-- A declaration: the node that declares, the key of the scope it was made in, and the construct
    around it, which some kinds have. -/
structure Declaration where
  kind : BindingKind
  node : Ref
  scope : Text
  owner? : Option Ref
  deriving DecidableEq

namespace Declaration

/-- The node whose range counts as the range of a declaration. -/
def positionNode? (d : Declaration) : Except Fault (Option Ref) :=
  match d.kind with
  | .param | .var | .imported | .catchParam => .ok d.owner?
  | .function | .identifier => .ok (some d.node)
  | .other name => .error (.unknownDeclaration name)

/-- A field of the range, as it is now; zero if the node has no such field. -/
def position (h : Heap) (d : Declaration) (field : Text) : Except Fault Datum := do
  match ← d.positionNode? with
  | none => throw .notARecord
  | some r =>
    match h.fields? r with
    | some fields => pure ((Fields.get? fields (.text field)).getD (.scalar (.int 0)))
    | none => throw .notARecord

def start (h : Heap) (d : Declaration) : Except Fault Datum := d.position h "start"

def stop (h : Heap) (d : Declaration) : Except Fault Datum := d.position h "end"

/-- Whether a declaration was made inside the scope with a given key. -/
def isUnder (d : Declaration) (key : Text) : Except Fault Bool :=
  ScopePath.keyIsUnder d.scope key

end Declaration

/-! ## Tracker -/

/-- The declarations of one scope, in the order in which their names were first declared. -/
abbrev Bindings := Fields Text Declaration

/-- The state of a scope tracker. -/
structure Tracker where
  /-- Whether the scopes that have been left are kept. -/
  preserves : Bool
  /-- For each open scope the number of scopes closed directly inside it, the innermost first. -/
  counters : List Nat
  scopes : Fields ScopePath Bindings
  frozen : Bool
  deriving DecidableEq, Inhabited

namespace Tracker

/-- A tracker that has met nothing yet. -/
def fresh (preserves : Bool) : Tracker := ⟨preserves, [], [], false⟩

/-- The path of the current scope. -/
def path (t : Tracker) : ScopePath := t.counters.tail.reverse

/-- The key of the current scope. -/
def key (t : Tracker) : Text := t.path.key

/-- Open a scope. -/
def push (t : Tracker) : Tracker := { t with counters := 0 :: t.counters }

/-- Close the current scope, if any is open. -/
def pop (t : Tracker) : Tracker :=
  match t.counters with
  | [] => t
  | _ :: outer =>
    { t with
      counters := match outer with
        | [] => []
        | n :: more => (n + 1) :: more
      scopes := if t.preserves then t.scopes else Fields.erase t.scopes t.path }

/-- The declarations made directly in a scope. -/
def bindings (t : Tracker) (path : ScopePath) : Bindings := (Fields.get? t.scopes path).getD []

/-- Record a declaration in the current scope. -/
def declare (t : Tracker) (name : Text) (d : Declaration) : Tracker :=
  { t with scopes := Fields.set t.scopes t.path (Fields.set (t.bindings t.path) name d) }

/-- Record no more, and start again at the root. -/
def freeze (t : Tracker) : Tracker := { t with frozen := true, counters := [] }

/-- Opening a scope goes one ordinal further: the number of scopes closed here so far. -/
theorem path_push (t : Tracker) {n : Nat} {outer : List Nat} (h : t.counters = n :: outer) :
    t.push.path = t.path ++ [n] := by
  simp [push, path, h]

/-- Closing a scope goes back to the scope around it. -/
theorem path_pop (t : Tracker) : t.pop.path = t.path.dropLast := by
  rcases h : t.counters with _ | ⟨n, _ | ⟨m, outer⟩⟩ <;> simp [pop, path, h]

@[simp] theorem path_declare (t : Tracker) (name : Text) (d : Declaration) :
    (t.declare name d).path = t.path := rfl

theorem bindings_declare (t : Tracker) (name : Text) (d : Declaration) (path : ScopePath) :
    (t.declare name d).bindings path =
      if t.path = path then Fields.set (t.bindings path) name d else t.bindings path := by
  simp only [declare, bindings, Fields.get?_set]
  split
  · next h => subst h; rfl
  · rfl

/-! ## Questions -/

/-- The nearest declaration of a name among the scopes with the given paths. -/
def lookupIn (t : Tracker) (name : Text) : List ScopePath → Option Declaration
  | [] => none
  | path :: rest =>
    match Fields.get? (t.bindings path) name with
    | some d => some d
    | none => lookupIn t name rest

/-- The paths of a scope and of the scopes around it, the innermost first. -/
def enclosing (path : ScopePath) : List ScopePath :=
  (List.range (path.length + 1)).reverse.map path.take

/-- The nearest visible declaration of a name. -/
def lookup (t : Tracker) (name : Text) : Option Declaration := t.lookupIn name (enclosing t.path)

def isDeclared (t : Tracker) (name : Text) : Bool := (t.lookup name).isSome

/-- The nearest visible declaration of a name given as a value. Only texts are declared; a list or
    record cannot be looked up in any scope. -/
def lookupValue (t : Tracker) (name : Value) : Except Fault (Option Declaration) :=
  match name with
  | .scalar (.text name) => .ok (t.lookup name)
  | .scalar _ => .ok none
  | _ =>
    if (enclosing t.path).any fun path => (Fields.get? t.scopes path).isSome then
      .error .unhashable
    else .ok none

/-- Whether the current scope lies inside the scope with a given key. -/
def isUnder (t : Tracker) (key : Text) : Except Fault Bool := ScopePath.keyIsUnder t.key key

/-- The declarations made directly in the scope with a given key. -/
def bindingsOfKey (t : Tracker) (key : Text) : Except Fault Bindings :=
  (ScopePath.ofKey key).map t.bindings

end Tracker

/-! ## What a node does to a tracker -/

/-- A name to declare, and what declares it. -/
structure Entry where
  name : Text
  kind : BindingKind
  node : Ref
  owner? : Option Ref
  deriving DecidableEq

/-- One step of what a node does when it is entered. -/
inductive Effect where
  | push
  /-- Declare names. A tracker that records nothing does not even ask for them. -/
  | declare (entries : Except Fault (List Entry))
  /-- The node is malformed. -/
  | fail (fault : Fault)

namespace Effect

/-- Declare the name of a node, if it has one, for the declaring node `node`. -/
def named (h : Heap) (kind : BindingKind) (holder : Datum) (node : Ref) : List Effect :=
  match h.name? holder with
  | some name => [declare (.ok [⟨name, kind, node, none⟩])]
  | none => []

/-- Declare the identifiers of a pattern. -/
def pattern (h : Heap) (kind : BindingKind) (owner : Ref) (d : Datum) : Effect :=
  declare ((boundIdentifiers h d).map fun refs =>
    refs.filterMap fun r => (h.name? (.ref r)).map fun name => ⟨name, kind, r, some owner⟩)

/-- Declare the identifiers of a pattern, as a construct of its type does. -/
def patternOf (h : Heap) (owner : Ref) (d : Datum) : Effect :=
  pattern h (.ofConstruct (h.field owner "type")) owner d

/-- Do something for each syntax node in a field of `r` that should hold a list. -/
def forNodes (h : Heap) (r : Ref) (field : Text) (effects : Ref → List Effect) : List Effect :=
  match h.elements (h.field r field) with
  | .error f => [fail f]
  | .ok items => items.flatMap fun d =>
    match d with
    | .ref child => if h.isNode d then effects child else []
    | .scalar _ => []

/-- Declare the parameters of a function. -/
def params (h : Heap) (fn : Ref) : List Effect :=
  forNodes h fn "params" fun param => [pattern h .param fn (.ref param)]

/-- Declare the variables of a declaration. -/
def declarators (h : Heap) (declaration : Ref) : List Effect :=
  forNodes h declaration "declarations" fun declarator =>
    [patternOf h declaration (h.field declarator "id")]

/-- Declare the class that `r` names. -/
def className (h : Heap) (r : Ref) : List Effect :=
  match h.field r "id" with
  | .ref id => named h .identifier (.ref id) id
  | .scalar _ => []

/-- Declare what a loop head declares. -/
def loopHead (h : Heap) (r : Ref) (field : Text) : List Effect :=
  match h.field r field with
  | .ref head =>
    if h.nodeType? (.ref head) = some "VariableDeclaration" then declarators h head else []
  | .scalar _ => []

/-- What a node with a given role does when it is entered. -/
def ofRole (h : Heap) (r : Ref) : Role → List Effect
  | .block => [push]
  | .functionDeclaration => named h .function (h.field r "id") r ++ [push] ++ params h r
  | .functionExpression =>
    [push] ++ named h .function (h.field r "id") r ++ [push] ++ params h r
  | .arrowFunction => [push] ++ params h r
  | .variableDeclaration => declarators h r
  | .classDeclaration => className h r
  | .classExpression => [push] ++ className h r
  | .importDeclaration => forNodes h r "specifiers" fun specifier =>
    match h.name? (h.field specifier "local") with
    | some name => [declare (.ok [⟨name, .imported, specifier, some r⟩])]
    | none => []
  | .catchClause =>
    [push] ++ (if h.isNode (h.field r "param") then [patternOf h r (h.field r "param")]
      else [])
  | .loop head => [push] ++ loopHead h r head
  | .other => []

/-- What a node does when it is entered. -/
def ofNode (h : Heap) (r : Ref) : List Effect :=
  match h.field r "type" with
  | .scalar (.text type) => ofRole h r (.ofType type)
  | _ => []

end Effect

namespace Tracker

/-- Record entries in the current scope. -/
def declareAll (t : Tracker) (entries : List Entry) : Tracker :=
  entries.foldl (fun t e => t.declare e.name ⟨e.kind, e.node, t.key, e.owner?⟩) t

/-- Carry out a step. What has been done stays done when a later step fails. -/
def apply : Effect → EStateM Fault Tracker Unit
  | .push => modify push
  | .fail f => throw f
  | .declare entries => do
    if !(← get).frozen then
      match entries with
      | .ok entries => modify fun t => t.declareAll entries
      | .error f => throw f

/-- Carry out several steps. -/
def applyAll : List Effect → EStateM Fault Tracker Unit
  | [] => pure ()
  | e :: rest => do
    apply e
    applyAll rest

/-- Follow a walk into a node. -/
def enter (h : Heap) (d : Datum) : EStateM Fault Tracker Unit :=
  match h.asRecord d with
  | .error f => throw f
  | .ok r => applyAll (Effect.ofNode h r)

/-- How many scopes a node opens, by its type as it is now. A list or record is no type. -/
def scopesOf (h : Heap) (d : Datum) : Except Fault Nat := do
  match h.field (← h.asRecord d) "type" with
  | .scalar (.text type) => pure (Role.ofType type).opens
  | .scalar _ => pure 0
  | .ref _ => throw .unhashable

/-- Whether a node opens a scope. -/
def isScopeNode (h : Heap) (d : Datum) : Except Fault Bool := (scopesOf h d).map (0 < ·)

/-- Close several scopes. -/
def popMany (t : Tracker) : Nat → Tracker
  | 0 => t
  | n + 1 => t.pop.popMany n

/-- Follow a walk out of a node. -/
def leave (h : Heap) (d : Datum) : EStateM Fault Tracker Unit :=
  match scopesOf h d with
  | .error f => throw f
  | .ok n => modify fun t => t.popMany n

end Tracker

end Arbor.Scope
