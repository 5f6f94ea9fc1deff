import Arbor.Fault
import Arbor.Value.Basic

set_option autoImplicit false

/-! # Trees in memory

A tree that is walked and edited lives on a heap: every list and every record is a cell of its own,
and fields and elements refer to cells. Whatever is changed through one reference is seen through
every other reference to the same cell, and two references are to the same node exactly when they
are equal. -/

namespace Arbor

/-- A reference to a cell. -/
abbrev Ref := Nat

/-- What a field or an element holds: a scalar, or a reference to a list or record. -/
inductive Datum where
  | scalar (s : Scalar)
  | ref (r : Ref)
  deriving DecidableEq, Inhabited

/-- A list or a record. -/
inductive Cell where
  | list (items : List Datum)
  | record (fields : Fields Key Datum)
  deriving DecidableEq, Inhabited

/-- The cells in the order in which they were made. -/
structure Heap where
  cells : Array Cell
  deriving Inhabited

namespace Datum

def null : Datum := .scalar .null

def text (t : Text) : Datum := .scalar (.text t)

def isNull (d : Datum) : Bool := d = null

end Datum

namespace Heap

def empty : Heap := ⟨#[]⟩

/-- The cell that a reference leads to. -/
def cell? (h : Heap) (r : Ref) : Option Cell := h.cells[r]?

/-- Make a new cell. -/
def alloc (h : Heap) (c : Cell) : Datum × Heap := (.ref h.cells.size, ⟨h.cells.push c⟩)

/-- Change the content of a cell. -/
def put (h : Heap) (r : Ref) (c : Cell) : Heap := ⟨h.cells.setIfInBounds r c⟩

theorem cell?_alloc (h : Heap) (c : Cell) (r : Ref) :
    (h.alloc c).2.cell? r = if r = h.cells.size then some c else h.cell? r := by
  simp only [alloc, cell?, Array.getElem?_push]

theorem cell?_put (h : Heap) (r other : Ref) (c : Cell) :
    (h.put r c).cell? other = if r = other ∧ r < h.cells.size then some c else h.cell? other := by
  simp only [put, cell?, Array.getElem?_setIfInBounds]
  grind

/-! ## Looking at data -/

/-- The fields of a record. -/
def fields? (h : Heap) (r : Ref) : Option (Fields Key Datum) :=
  match h.cell? r with
  | some (.record fields) => some fields
  | _ => none

/-- The elements of a list. -/
def items? (h : Heap) (r : Ref) : Option (List Datum) :=
  match h.cell? r with
  | some (.list items) => some items
  | _ => none

/-- The field of a record, null if it is absent. -/
def field (h : Heap) (r : Ref) (name : Text) : Datum :=
  match h.fields? r with
  | some fields => (Fields.get? fields (.text name)).getD .null
  | none => .null

/-- The record that a datum refers to, or the fault that it is none. -/
def asRecord (h : Heap) (d : Datum) : Except Fault Ref :=
  match d with
  | .ref r => if (h.fields? r).isSome then .ok r else .error .notARecord
  | .scalar _ => .error .notARecord

/-- The type of a syntax node: of a record whose `type` is a text. -/
def nodeType? (h : Heap) (d : Datum) : Option Text :=
  match d with
  | .ref r =>
    match h.field r "type" with
    | .scalar (.text t) => some t
    | _ => none
  | .scalar _ => none

/-- Whether a datum refers to a syntax node. -/
def isNode (h : Heap) (d : Datum) : Bool := (h.nodeType? d).isSome

/-- The name of a syntax node, if it is a text that is not empty. -/
def name? (h : Heap) (d : Datum) : Option Text :=
  match d, h.nodeType? d with
  | .ref r, some _ =>
    match h.field r "name" with
    | .scalar (.text t) => if t.isEmpty then none else some t
    | _ => none
  | _, _ => none

/-- Whether a datum counts as given: it is not null, false, zero or empty. -/
def isTruthy (h : Heap) : Datum → Bool
  | .scalar s => s.isTruthy
  | .ref r =>
    match h.cell? r with
    | some (.list items) => !items.isEmpty
    | some (.record fields) => !fields.isEmpty
    | none => false

/-- The elements of a field that should hold a list. A field that is not given has none; the
    characters of a text and the keys of a record are no nodes and count as none. -/
def elements (h : Heap) (d : Datum) : Except Fault (List Datum) :=
  if !h.isTruthy d then .ok []
  else match d with
    | .scalar (.text _) => .ok []
    | .scalar _ => .error .notIterable
    | .ref r => .ok ((h.items? r).getD [])

/-! ## Values -/

mutual

/-- Lay a value out in new cells. -/
def load (h : Heap) : Value → Datum × Heap
  | .scalar s => (.scalar s, h)
  | .list items =>
    let (data, h) := loadItems h items
    h.alloc (.list data)
  | .record fields =>
    let (data, h) := loadFields h fields
    h.alloc (.record data)

/-- Lay the elements of a list out in new cells. -/
def loadItems (h : Heap) : List Value → List Datum × Heap
  | [] => ([], h)
  | v :: rest =>
    let (d, h) := load h v
    let (more, h) := loadItems h rest
    (d :: more, h)

/-- Lay the fields of a record out in new cells. -/
def loadFields (h : Heap) : List (Key × Value) → Fields Key Datum × Heap
  | [] => ([], h)
  | (k, v) :: rest =>
    let (d, h) := load h v
    let (more, h) := loadFields h rest
    ((k, d) :: more, h)

end

/-- The value of a datum, followed through at most `depth` references. -/
def readWithin (h : Heap) : Nat → Datum → Value
  | _, .scalar s => .scalar s
  | 0, .ref _ => .null
  | depth + 1, .ref r =>
    match h.cell? r with
    | some (.list items) => .list (items.map (readWithin h depth))
    | some (.record fields) => .record (fields.map fun (k, d) => (k, readWithin h depth d))
    | none => .null

/-- The value of a datum. Without cycles no way through the heap is longer than its size. -/
def read (h : Heap) (d : Datum) : Value := h.readWithin h.cells.size d

/-! ## Slots -/

/-- A place that can hold a node: a field of a record, or an element of a list in a field. The root
    of a tree has no parent, and a null key names no field. -/
structure Slot where
  parent? : Option Ref
  key : Key
  index? : Option Int
  deriving DecidableEq, Inhabited

/-- The slot of a root. -/
def Slot.root : Slot := ⟨none, .null, none⟩

/-- The position in a list of length `size` that an index to insert at means: positions beyond the
    ends are moved to the ends, and negative ones count from the end. -/
def insertPosition (size : Nat) (index : Int) : Nat :=
  if index < 0 then (size + index).toNat else min index.toNat size

/-- Change the record at a slot, or the list in its field. -/
def editSlot (h : Heap) (slot : Slot) (onFields : Fields Key Datum → Fields Key Datum)
    (onItems : Int → List Datum → List Datum) : Heap :=
  match slot.parent? with
  | none => h
  | some parent =>
    if slot.key = .null then h
    else match h.fields? parent, slot.index? with
      | none, _ => h
      | some fields, none => h.put parent (.record (onFields fields))
      | some fields, some index =>
        match Fields.get? fields slot.key with
        | some (.ref r) =>
          match h.items? r with
          | some items => h.put r (.list (onItems index items))
          | none => h
        | _ => h

/-- Whether an index names an element of a list. -/
def inList (index : Int) (items : List Datum) : Bool := 0 ≤ index && index < items.length

/-- Put a datum in the place of what a slot holds. -/
def replaceAt (h : Heap) (slot : Slot) (d : Datum) : Heap :=
  h.editSlot slot (Fields.set · slot.key d)
    fun index items => if inList index items then items.set index.toNat d else items

/-- Put a datum in a slot; what a list holds from there on moves up. -/
def insertAt (h : Heap) (slot : Slot) (d : Datum) : Heap :=
  h.editSlot slot (Fields.set · slot.key d)
    fun index items => items.insertIdx (insertPosition items.length index) d

/-- Take out what a slot holds; what a list holds after it moves down. -/
def removeAt (h : Heap) (slot : Slot) : Heap :=
  h.editSlot slot (Fields.erase · slot.key)
    fun index items => if inList index items then items.eraseIdx index.toNat else items

end Heap

end Arbor
