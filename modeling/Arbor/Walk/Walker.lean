import Arbor.Scope.Tracker
import Arbor.Value.Display
import Arbor.Walk.Request

set_option autoImplicit false

/-! # Walking and editing a tree

A walk goes through a tree depth first. Every node is shown to the enter callback before its
children are visited and to the leave callback after, and both may ask for changes, which are made
at once: the children of a replacement are visited in place of those of the node, and when an
element has left its list the next one is not passed over. Callbacks may also edit the heap
themselves; the walk always goes on with the tree as it is.

A walk may never end, when every replacement brings new nodes. It is therefore given a number of
steps, and stops without an answer when they are used up. -/

namespace Arbor

open Scope (Tracker)

/-! ## Warnings -/

/-- What is done to a node. -/
inductive Change where
  | replacement
  | removal
  deriving DecidableEq

/-- A change to a node that opens a scope, which the tracker cannot follow. The positions are held as
    they are shown. -/
structure Warning where
  change : Change
  type : Text
  start : Text
  stop : Text
  deriving DecidableEq

namespace Warning

/-- The wording of a warning. -/
def message (w : Warning) : Text :=
  (match w.change with
    | .replacement => "Replacement"
    | .removal => "Removal" : Text) ++
  " of scope-introducing node " ++ w.type ++ " at " ++ w.start ++ ":" ++ w.stop ++
  " is not supported by the scope tracker"

end Warning

/-! ## The state of a walk -/

/-- What a walk works on: the heap, a scope tracker, the warnings so far in order, and what the
    callbacks keep for themselves. -/
structure World (σ : Type) where
  heap : Heap
  tracker : Tracker
  warnings : List Warning
  user : σ

/-- Why a walk stops without an answer. -/
inductive Stop where
  | fault (f : Fault)
  | outOfSteps
  deriving DecidableEq

/-- An action on the state of a walk. What has been changed stays changed when it stops. -/
abbrev WalkM (σ : Type) := EStateM Stop (World σ)

namespace WalkM

variable {σ α : Type}

/-- Look something up in the heap. -/
def look (f : Heap → α) : WalkM σ α := do return f (← get).heap

/-- Change the heap. -/
def edit (f : Heap → Heap) : WalkM σ Unit := modify fun w => { w with heap := f w.heap }

/-- Lay a value out on the heap. -/
def load (v : Value) : WalkM σ Datum :=
  modifyGet fun w => let (d, h) := w.heap.load v; (d, { w with heap := h })

/-- An answer or a fault. -/
def ofExcept (r : Except Fault α) : WalkM σ α :=
  match r with
  | .ok a => pure a
  | .error f => throw (.fault f)

/-- An action of the tracker. -/
def track (f : Heap → EStateM Fault Tracker α) : WalkM σ α := fun w =>
  match (f w.heap).run w.tracker with
  | .ok a t => .ok a { w with tracker := t }
  | .error e t => .error (.fault e) { w with tracker := t }

/-- An action with a tracker of its own, which it gives back, such as a walk that a callback starts
    in the course of another one. -/
def withTracker (t : Tracker) (act : WalkM σ α) : WalkM σ (α × Tracker) := fun w =>
  match act { w with tracker := t } with
  | .ok a w' => .ok (a, w'.tracker) { w' with tracker := w.tracker }
  | .error e w' => .error e { w' with tracker := w.tracker }

end WalkM

/-! ## Callbacks -/

/-- A node as it is shown to a callback: where it hangs, and the root that the walk started from. -/
structure Visit where
  node : Ref
  slot : Heap.Slot
  root : Datum

/-- What is done when a node is shown. -/
abbrev Callback (σ : Type) := Visit → WalkM σ Request

/-- What a walk does at each node, and whether a tracker follows it. -/
structure Walker (σ : Type) where
  enter? : Option (Callback σ)
  leave? : Option (Callback σ)
  tracked : Bool

namespace Walker

variable {σ : Type}

/-- Warn of a change to a node that opens a scope, if a tracker follows the walk. -/
def warn (w : Walker σ) (node : Ref) (change : Change) : WalkM σ Unit := do
  if w.tracked then
    let h := (← get).heap
    if ← WalkM.ofExcept (Tracker.isScopeNode h (.ref node)) then
      let shown (name : Text) : WalkM σ Text :=
        WalkM.ofExcept (h.read (h.field node name)).plain
      let warning : Warning := {
        change
        type := (h.nodeType? (.ref node)).getD ""
        start := ← shown "start"
        stop := ← shown "end" }
      modify fun s => { s with warnings := s.warnings ++ [warning] }

/-- What is known of a node after entering it: what stands in its place, null if it has been
    removed, and whether its children are to be skipped. -/
structure Entered where
  current : Datum
  skipped : Bool

/-- Show a node to the enter callback and make the changes that it asks for. -/
def onEnter (w : Walker σ) (v : Visit) : WalkM σ Entered := do
  match w.enter? with
  | none => pure ⟨.ref v.node, false⟩
  | some callback =>
    let q ← callback v
    match q.effective? with
    | some d => do
      WalkM.edit fun h => h.replaceAt v.slot d
      w.warn v.node .replacement
    | none => pure ()
    if q.removed then
      WalkM.edit fun h => h.removeAt v.slot
      w.warn v.node .removal
    pure ⟨if q.removed then .null else q.effective?.getD (.ref v.node), q.skipped⟩

/-- Show a node to the leave callback and make the changes that it asks for. The result is what
    stands in the node's place at the end, null if nothing does. A node that was removed on entering
    is put back by a replacement, and is not removed again. -/
def onLeave (w : Walker σ) (v : Visit) (entered : Entered) : WalkM σ Datum := do
  match w.leave? with
  | none => pure entered.current
  | some callback =>
    let gone := entered.current.isNull
    let q ← callback v
    match q.effective? with
    | some d => do
      WalkM.edit fun h => if gone then h.insertAt v.slot d else h.replaceAt v.slot d
      w.warn v.node .replacement
    | none => pure ()
    if q.removed then
      if !gone then
        WalkM.edit fun h => h.removeAt v.slot
        w.warn v.node .removal
      pure .null
    else pure (q.effective?.getD entered.current)

/-- Visit the nodes of a list from position `i` on. The list is looked at anew at each step: a node
    that has left the list makes room for the next one. -/
def visitItems (visit : Ref → Heap.Slot → WalkM σ Datum) (parent : Ref) (key : Key) (list : Ref) :
    Nat → Nat → WalkM σ Unit
  | 0, _ => throw .outOfSteps
  | steps + 1, i => do
    match ← WalkM.look fun h => ((h.items? list).getD [])[i]?.map fun d => (d, h.isNode d) with
    | none => pure ()
    | some (.ref child, true) =>
      let result ← visit child ⟨some parent, key, some i⟩
      visitItems visit parent key list steps (if result.isNull then i else i + 1)
    | some _ => visitItems visit parent key list steps (i + 1)

/-- Visit the nodes in a field. -/
def visitField (visit : Ref → Heap.Slot → WalkM σ Datum) (parent : Ref) (steps : Nat) (key : Key)
    (d : Datum) : WalkM σ Unit := do
  match d with
  | .scalar _ => pure ()
  | .ref r =>
    match ← WalkM.look fun h => (h.cell? r, h.isNode d) with
    | (some (.list _), _) => visitItems visit parent key r steps 0
    | (_, true) => do
      let _ ← visit r ⟨some parent, key, none⟩
    | _ => pure ()

/-- Visit the nodes in the fields of a record. -/
def visitFields (visit : Ref → Heap.Slot → WalkM σ Datum) (steps : Nat) (d : Datum) :
    WalkM σ Unit := do
  let parent ← WalkM.ofExcept ((← get).heap.asRecord d)
  let keys ← WalkM.look fun h => Fields.keys ((h.fields? parent).getD [])
  Fields.forPresent (fun key => WalkM.look fun h => (h.fields? parent).bind (Fields.get? · key))
    (visitField visit parent steps) keys

/-- Visit a node and everything below it. The result is what stands in its place at the end. -/
def visit (w : Walker σ) (root : Datum) : Nat → Ref → Heap.Slot → WalkM σ Datum
  | 0, _, _ => throw .outOfSteps
  | steps + 1, node, slot => do
    let v : Visit := ⟨node, slot, root⟩
    if w.tracked then WalkM.track fun h => Tracker.enter h (.ref node)
    let entered ← w.onEnter v
    if !entered.skipped && !entered.current.isNull then
      visitFields (visit w root steps) steps entered.current
    if w.tracked then WalkM.track fun h => Tracker.leave h (.ref node)
    w.onLeave v entered

/-- Walk the tree below `root`. The result is the root after all changes, null if it was removed or
    is not a syntax node. -/
def walk (w : Walker σ) (steps : Nat) (root : Datum) : WalkM σ Datum := do
  match root, ← WalkM.look (·.isNode root) with
  | .ref r, true => visit w root steps r .root
  | _, _ => pure .null

end Walker

end Arbor
