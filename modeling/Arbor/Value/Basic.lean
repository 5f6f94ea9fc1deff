import Arbor.Fields
import Arbor.Number.Binary64

set_option autoImplicit false

/-! # Values

The data of syntax trees, options and settings: scalars, lists and records. A record keeps its
fields in the order in which they were added: storing under a key that is present keeps the key's
place, and a new key goes last. -/

namespace Arbor

/-- A value without parts. -/
inductive Scalar where
  | null
  | bool (b : Bool)
  | int (n : Int)
  | float (x : Binary64)
  | text (t : Text)
  deriving DecidableEq, Inhabited

instance : Coe Text Scalar := ⟨Scalar.text⟩

/-- The name of a field. Syntax trees name their fields by texts. -/
abbrev Key := Scalar

/-! ## Values -/

/-- A scalar, a list or a record. -/
inductive Value where
  | scalar (s : Scalar)
  | list (items : List Value)
  | record (fields : List (Key × Value))
  deriving Inhabited

namespace Value

def null : Value := .scalar .null

def bool (b : Bool) : Value := .scalar (.bool b)

def int (n : Int) : Value := .scalar (.int n)

def text (t : Text) : Value := .scalar (.text t)

instance : Coe Scalar Value := ⟨Value.scalar⟩

instance : Coe Text Value := ⟨Value.text⟩

def isNull : Value → Bool
  | .scalar .null => true
  | _ => false

end Value

/-- Whether a scalar counts as given: neither null nor false, nor zero, nor empty. -/
def Scalar.isTruthy : Scalar → Bool
  | .null => false
  | .bool b => b
  | .int n => n ≠ 0
  | .float x => !x.isZero
  | .text t => !t.isEmpty

/-- Whether a value counts as given. -/
def Value.isTruthy : Value → Bool
  | .scalar s => s.isTruthy
  | .list items => !items.isEmpty
  | .record fields => !fields.isEmpty

/-- The field of a record that is named by a text. -/
def Value.field? : Value → Text → Option Value
  | .record fields, name => Fields.get? fields (Scalar.text name)
  | _, _ => none

/-- Whether a value is a syntax node: a record whose `type` is a text. -/
def Value.isNode (v : Value) : Bool :=
  match v.field? "type" with
  | some (.scalar (.text _)) => true
  | _ => false

/-! ## Keys that are equal as numbers -/

/-- The integer that a number is, truth values included. -/
def Scalar.integer? : Scalar → Option Int
  | .bool b => some (if b then 1 else 0)
  | .int n => some n
  | .float x =>
    if x.isInfinite || x.isNaN then none
    else
      let (m, q) := x.parts
      if m * Nat.pow 2 q % Nat.pow 2 1074 = 0 then
        let n : Int := (m * Nat.pow 2 q / Nat.pow 2 1074 : Nat)
        some (if x.isNegative then -n else n)
      else none
  | _ => none

/-- Whether two keys name the same field: they are the same scalar, or equal as numbers. -/
def Scalar.sameKey (a b : Scalar) : Bool :=
  a = b || (match a.integer?, b.integer? with
    | some m, some n => m = n
    | _, _ => false)

/-- The record that holds these entries: of entries with the same key the first gives the spelling
    and the place, the last gives the value. -/
def Value.ofEntries (entries : List (Key × Value)) : Value :=
  .record (entries.foldl (fun fields (key, value) =>
    let spelling := ((Fields.keys fields).find? (Scalar.sameKey key)).getD key
    Fields.set fields spelling value) [])

end Arbor
