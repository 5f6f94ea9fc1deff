import Arbor.Heap.Basic

set_option autoImplicit false

/-! # What a callback asks for

A callback may ask, any number of times and in any order, for the node to be removed or replaced,
and on entering for its children to be skipped; it may also return one such directive. The requests
are gathered in the order in which they are made. The last replacement counts, and none if the node
is to be removed. -/

namespace Arbor

/-- The two moments at which a node is shown to a callback. -/
inductive Phase where
  | enter
  | leave
  deriving DecidableEq

/-- A request that a callback returns. -/
inductive Directive where
  | skip
  | remove
  | replace (d : Datum)
  deriving DecidableEq

/-- What a callback has asked for. A null replacement is none. -/
structure Request where
  removed : Bool := false
  skipped : Bool := false
  replacement : Datum := .null
  deriving DecidableEq, Inhabited

namespace Request

/-- Nothing asked for. -/
def empty : Request := {}

def remove (q : Request) : Request := { q with removed := true }

def replace (q : Request) (d : Datum) : Request := { q with replacement := d }

/-- Children can be skipped only before they are visited. -/
def skip (phase : Phase) (q : Request) : Except Fault Request :=
  match phase with
  | .enter => .ok { q with skipped := true }
  | .leave => .error .onlyOnEnter

/-- Take a returned directive in. A skip that is returned on leaving means nothing. -/
def accept (phase : Phase) (q : Request) : Option Directive → Request
  | some .remove => q.remove
  | some (.replace d) => q.replace d
  | some .skip =>
    match phase with
    | .enter => { q with skipped := true }
    | .leave => q
  | none => q

/-- The replacement to make, if there is one. -/
def effective? (q : Request) : Option Datum :=
  if q.removed || q.replacement.isNull then none else some q.replacement

@[simp] theorem effective?_remove (q : Request) : q.remove.effective? = none := by
  simp [effective?, remove]

end Request

end Arbor
