import Arbor.Number.Integer
import Arbor.Number.Shortest
import Arbor.Text.Quoted
import Arbor.Value.Basic

set_option autoImplicit false

/-! # Values inside messages

How a value is shown in a warning: texts are quoted, a list stands between brackets, a record
between braces with a colon after each key, and the constants are written `None`, `True` and
`False`. A value that holds an integer of too many digits cannot be shown. -/

namespace Arbor

/-- A scalar as shown inside a message. -/
def Scalar.shown : Scalar → Except Fault Text
  | .null => .ok "None"
  | .bool b => .ok (if b then "True" else "False")
  | .int n => Integer.written n
  | .float x => .ok x.toText
  | .text t => .ok t.quoted

namespace Value

mutual

/-- A value as shown inside a message. -/
def shown : Value → Except Fault Text
  | .scalar s => s.shown
  | .list items => do return "[" ++ Text.join ", " (← shownItems items) ++ "]"
  | .record fields => do return "\x7b" ++ Text.join ", " (← shownFields fields) ++ "\x7d"

/-- The items of a list as shown inside a message. -/
def shownItems : List Value → Except Fault (List Text)
  | [] => .ok []
  | v :: rest => do return (← shown v) :: (← shownItems rest)

/-- The fields of a record as shown inside a message. -/
def shownFields : List (Key × Value) → Except Fault (List Text)
  | [] => .ok []
  | (k, v) :: rest => do return ((← k.shown) ++ ": " ++ (← shown v)) :: (← shownFields rest)

end

/-- A value as part of a sentence: a text stands for itself, all else is shown. -/
def plain : Value → Except Fault Text
  | .scalar (.text t) => .ok t
  | v => v.shown

end Value

end Arbor
