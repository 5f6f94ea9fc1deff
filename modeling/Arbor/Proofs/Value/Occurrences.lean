import Arbor.Lowering.Site
import Arbor.Proofs.Heap.Slot
import Mathlib.Data.List.Flatten

set_option autoImplicit false

/-! # The records in a value

A value is gone through in order: a record comes before what its fields hold, and fields and elements come in
the order in which they stand (`Value.records`). Each record comes with the field that holds it, if a node does
so directly and not through a list. A record whose first fields are its type and its range, and whose other
fields have other names, is written `Value.nodeFields`; all nodes that are built are of this form. -/

namespace Arbor

/-- A field of the nodes of a type. -/
structure Holder where
  type : Text
  key : Key
  deriving DecidableEq

/-- A record in a value, and the field that holds it, if it is held by a node and not by a list. -/
structure Occurrence where
  holder? : Option Holder
  fields : List (Key × Value)

/-- A stretch of a source. -/
structure Span where
  start : Int
  stop : Int
  deriving DecidableEq

namespace Span

/-- One stretch ends before another starts. -/
def Before (a b : Span) : Prop := a.stop ≤ b.start

/-- One stretch lies inside another. -/
def Inside (a b : Span) : Prop := b.start ≤ a.start ∧ a.stop ≤ b.stop

theorem Inside.trans {a b c : Span} (h : a.Inside b) (h' : b.Inside c) : a.Inside c :=
  ⟨Int.le_trans h'.1 h.1, Int.le_trans h.2 h'.2⟩

end Span

/-- A field that is stored stands between fields that were there before, and last if its key is new. -/
theorem Fields.exists_set_eq {K V : Type} [DecidableEq K] (fields : Fields K V) (key : K) (value : V) :
    ∃ pre post, fields.set key value = pre ++ (key, value) :: post ∧ (pre ++ post).Sublist fields ∧
      (key ∉ fields.keys → pre = fields ∧ post = []) := by
  induction fields with
  | nil => exact ⟨[], [], rfl, .slnil, fun _ => ⟨rfl, rfl⟩⟩
  | cons entry rest ih =>
    obtain ⟨k, v⟩ := entry
    by_cases hk : k = key
    · subst hk
      refine ⟨[], rest, by simp [Fields.set], List.sublist_cons_self _ _, fun h => ?_⟩
      simp [Fields.keys] at h
    · obtain ⟨pre, post, hset, hsub, hnew⟩ := ih
      refine ⟨(k, v) :: pre, post, by simp [Fields.set, hk, hset], hsub.cons_cons _, fun h => ?_⟩
      simp only [Fields.keys, List.map_cons, List.mem_cons, not_or] at h
      obtain ⟨rfl, rfl⟩ := hnew h.2
      exact ⟨rfl, rfl⟩

namespace Value

/-- The type that a record gives itself. -/
def typeOf? (fields : List (Key × Value)) : Option Text :=
  match Fields.get? fields (.text "type") with
  | some (.scalar (.text type)) => some type
  | _ => none

mutual

/-- The records in a value that is held by `holder?`. -/
def records (holder? : Option Holder) : Value → List Occurrence
  | .scalar _ => []
  | .list items => recordsOfItems items
  | .record fields => ⟨holder?, fields⟩ :: recordsOfFields (typeOf? fields) fields

/-- The records in the elements of a list. -/
def recordsOfItems : List Value → List Occurrence
  | [] => []
  | v :: rest => records none v ++ recordsOfItems rest

/-- The records in the fields of a node of a type. -/
def recordsOfFields (type? : Option Text) : List (Key × Value) → List Occurrence
  | [] => []
  | (key, v) :: rest =>
    records (type?.map fun type => ⟨type, key⟩) v ++ recordsOfFields type? rest

end

section

variable (holder? : Option Holder) (type? : Option Text)

@[simp] theorem records_null : records holder? .null = [] := rfl

theorem records_list (items : List Value) : records holder? (.list items) = recordsOfItems items := rfl

theorem records_record (fields : List (Key × Value)) :
    records holder? (.record fields) = ⟨holder?, fields⟩ :: recordsOfFields (typeOf? fields) fields := rfl

theorem recordsOfItems_eq (items : List Value) : recordsOfItems items = items.flatMap (records none) := by
  induction items with
  | nil => rfl
  | cons v rest ih => rw [recordsOfItems, ih, List.flatMap_cons]

theorem recordsOfFields_eq (fields : List (Key × Value)) :
    recordsOfFields type? fields =
      fields.flatMap fun f => records (type?.map fun type => ⟨type, f.1⟩) f.2 := by
  induction fields with
  | nil => rfl
  | cons f rest ih => rw [recordsOfFields, ih, List.flatMap_cons]

@[simp] theorem recordsOfItems_nil : recordsOfItems [] = [] := rfl

@[simp] theorem recordsOfFields_nil : recordsOfFields type? [] = [] := rfl

theorem recordsOfFields_cons (key : Key) (v : Value) (rest : List (Key × Value)) :
    recordsOfFields type? ((key, v) :: rest) =
      records (type?.map fun type => ⟨type, key⟩) v ++ recordsOfFields type? rest := rfl

theorem recordsOfItems_append (items items' : List Value) :
    recordsOfItems (items ++ items') = recordsOfItems items ++ recordsOfItems items' := by
  simp only [recordsOfItems_eq, List.flatMap_append]

theorem recordsOfItems_flatten (lists : List (List Value)) :
    recordsOfItems lists.flatten = lists.flatMap recordsOfItems := by
  induction lists with
  | nil => rfl
  | cons items rest ih => rw [List.flatten_cons, recordsOfItems_append, ih, List.flatMap_cons]

theorem recordsOfFields_append (fields fields' : List (Key × Value)) :
    recordsOfFields type? (fields ++ fields') =
      recordsOfFields type? fields ++ recordsOfFields type? fields' := by
  simp only [recordsOfFields_eq, List.flatMap_append]

/-- There is no record in what is null, so nothing is lost when nulls are left out. -/
theorem recordsOfItems_filter (items : List Value) :
    recordsOfItems (items.filter fun v => !v.isNull) = recordsOfItems items := by
  induction items with
  | nil => rfl
  | cons v rest ih =>
    rw [List.filter_cons]
    split
    · rw [recordsOfItems, ih, recordsOfItems]
    · next hnull =>
      have hrecords : records none v = [] := by
        cases v with
        | scalar s => rfl
        | _ => exact absurd rfl hnull
      rw [ih, recordsOfItems, hrecords, List.nil_append]

end

/-! ## Holders -/

section

variable (holder? : Option Holder) (type? : Option Text)

/-- What a value holds is told without looking at what holds the value. -/
theorem map_fields_records (v : Value) :
    (records holder? v).map Occurrence.fields = (records none v).map Occurrence.fields := by
  cases v <;> rfl

theorem map_fields_recordsOfFields (fields : List (Key × Value)) :
    (recordsOfFields type? fields).map Occurrence.fields =
      (recordsOfFields none fields).map Occurrence.fields := by
  induction fields with
  | nil => rfl
  | cons f rest ih =>
    obtain ⟨key, v⟩ := f
    rw [recordsOfFields_cons, recordsOfFields_cons, List.map_append, List.map_append, ih,
      map_fields_records, map_fields_records (Option.map _ none)]

/-- A record that is held by a node is itself held, or lies below in what does not depend on the holder. -/
theorem mem_records {v : Value} {o : Occurrence} (h : o ∈ records holder? v) :
    o ∈ records none v ∨ (⟨none, o.fields⟩ ∈ records none v ∧ o.holder? = holder?) := by
  cases v with
  | record fields =>
    rcases List.mem_cons.1 h with rfl | h
    · exact .inr ⟨List.mem_cons_self .., rfl⟩
    · exact .inl (List.mem_cons_of_mem _ h)
  | _ => exact .inl h

theorem mem_recordsOfFields {fields : List (Key × Value)} {o : Occurrence} :
    o ∈ recordsOfFields type? fields ↔
      ∃ f ∈ fields, o ∈ records (type?.map fun type => ⟨type, f.1⟩) f.2 := by
  rw [recordsOfFields_eq, List.mem_flatMap]

/-- The records in a field are among those of the fields, but for what holds them. -/
theorem fields_mem_recordsOfFields {fields : List (Key × Value)} {f : Key × Value} (hf : f ∈ fields)
    {o : Occurrence} (ho : o ∈ records none f.2) :
    ∃ o' ∈ recordsOfFields type? fields, o'.fields = o.fields := by
  have hmem : o.fields ∈ (records none f.2).map Occurrence.fields := List.mem_map_of_mem ho
  rw [← map_fields_records (type?.map fun type => ⟨type, f.1⟩)] at hmem
  obtain ⟨o', ho', heq⟩ := List.mem_map.1 hmem
  exact ⟨o', (mem_recordsOfFields type?).2 ⟨f, hf, ho'⟩, heq⟩

end

/-- The records of the fields that are left are among those of the fields. -/
theorem recordsOfFields_sublist (type? : Option Text) {fields fields' : List (Key × Value)}
    (h : fields.Sublist fields') :
    (recordsOfFields type? fields).Sublist (recordsOfFields type? fields') := by
  rw [recordsOfFields_eq, recordsOfFields_eq]
  exact h.flatMap _

/-! ## Nodes -/

/-- The keys of the type and the range of a node. -/
def headKeys : List Key := [.text "type", .text "start", .text "end"]

/-- The fields of a node: its type and its range, and then others. -/
def nodeFields (type : Text) (start stop : Int) (rest : List (Key × Value)) : List (Key × Value) :=
  (.text "type", .text type) :: (.text "start", .int start) :: (.text "end", .int stop) :: rest

/-- Fields that do not give the type or the range of a node. -/
def Apart (rest : List (Key × Value)) : Prop := ∀ f ∈ rest, f.1 ∉ headKeys

/-- A record that begins with a type and a range, and gives neither of them again. -/
def IsHeaded (fields : List (Key × Value)) : Prop :=
  ∃ type start stop rest, fields = nodeFields type start stop rest ∧ Apart rest

section

variable (type : Text) (start stop : Int) (rest : List (Key × Value))

@[simp] theorem typeOf?_nodeFields : typeOf? (nodeFields type start stop rest) = some type := rfl

theorem records_nodeFields (holder? : Option Holder) :
    records holder? (.record (nodeFields type start stop rest)) =
      ⟨holder?, nodeFields type start stop rest⟩ :: recordsOfFields (some type) rest := rfl

theorem get?_nodeFields {key : Key} (h : key ∉ headKeys) :
    Fields.get? (nodeFields type start stop rest) key = Fields.get? rest key := by
  simp only [headKeys, List.mem_cons, List.not_mem_nil, not_or] at h
  simp [nodeFields, Fields.get?_cons, Ne.symm h.1, Ne.symm h.2.1, Ne.symm h.2.2.1]

theorem set_nodeFields {key : Key} (h : key ∉ headKeys) (v : Value) :
    Fields.set (nodeFields type start stop rest) key v =
      nodeFields type start stop (Fields.set rest key v) := by
  simp only [headKeys, List.mem_cons, List.not_mem_nil, not_or] at h
  simp [nodeFields, Fields.set, Ne.symm h.1, Ne.symm h.2.1, Ne.symm h.2.2.1]

@[simp] theorem set_nodeFields_type (type' : Text) :
    Fields.set (nodeFields type start stop rest) (.text "type") (.text type') =
      nodeFields type' start stop rest := rfl

@[simp] theorem set_nodeFields_end (stop' : Int) :
    Fields.set (nodeFields type start stop rest) (.text "end") (.int stop') =
      nodeFields type start stop' rest := rfl

end

/-- A record is a syntax node if it gives itself a type. -/
theorem isNode_record (fields : List (Key × Value)) : (Value.record fields).isNode = (typeOf? fields).isSome := by
  rw [isNode, field?, typeOf?]
  rcases Fields.get? fields (.text "type") with _ | (s | _ | _)
  · rfl
  · cases s <;> rfl
  · rfl
  · rfl

theorem Apart.set {rest : List (Key × Value)} (h : Apart rest) {key : Key} (hkey : key ∉ headKeys)
    (v : Value) : Apart (Fields.set rest key v) := by
  intro f hf
  rcases Fields.mem_set hf with rfl | hf
  · exact hkey
  · exact h f hf

end Value

/-! ## Ranges -/

namespace Value

/-- The offset at which a record says it starts. -/
def startOf? (fields : List (Key × Value)) : Option Int :=
  match Fields.get? fields (.text "start") with
  | some (.scalar (.int n)) => some n
  | _ => none

/-- The range that a record gives itself. -/
def rangeOf? (fields : List (Key × Value)) : Option Span :=
  match startOf? fields, Fields.get? fields (.text "end") with
  | some start, some (.scalar (.int stop)) => some ⟨start, stop⟩
  | _, _ => none

theorem startOf?_of_rangeOf? {fields : List (Key × Value)} {range : Span}
    (h : rangeOf? fields = some range) : startOf? fields = some range.start := by
  unfold rangeOf? at h
  split at h
  · next start _ hstart _ =>
    cases h
    exact hstart
  · cases h

end Value

/-! ## Values that are laid out -/

namespace Layout

theorem get?_valuesOfFields (fields : List (Key × Layout)) (key : Key) :
    Fields.get? (valuesOfFields fields) key = (Fields.get? fields key).map value := by
  induction fields with
  | nil => rfl
  | cons f rest ih =>
    obtain ⟨k, t⟩ := f
    rw [valuesOfFields, Fields.get?_cons, Fields.get?_cons, ih]
    split <;> rfl

/-- A node gives itself the type that its value gives itself. -/
theorem type?_record (r : Ref) (fields : List (Key × Layout)) :
    (record r fields).type? = Value.typeOf? (valuesOfFields fields) := by
  rw [type?, Value.typeOf?, get?_valuesOfFields]
  rcases Fields.get? fields (.text "type") with _ | (s | ⟨_, _⟩ | ⟨_, _⟩)
  · rfl
  · cases s <;> rfl
  · rfl
  · rfl

end Layout

/-- The offset at which a node says it starts. -/
def Heap.startOf? (h : Heap) (r : Ref) : Option Int :=
  match h.field r "start" with
  | .scalar (.int n) => some n
  | _ => none

theorem Heap.Holds.startOf? {h : Heap} {r : Ref} {fields : List (Key × Layout)}
    (ht : h.Holds (.record r fields)) : h.startOf? r = Value.startOf? (Layout.valuesOfFields fields) := by
  rw [Heap.startOf?, ht.field, Value.startOf?, Layout.get?_valuesOfFields]
  rcases Fields.get? fields (.text "start") with _ | (s | ⟨_, _⟩ | ⟨_, _⟩)
  · rfl
  · cases s <;> rfl
  · rfl
  · rfl

/-- A record that has a range has it inside a stretch. -/
def Occurrence.Within (o : Occurrence) (span : Span) : Prop :=
  ∀ range, Value.rangeOf? o.fields = some range → range.Inside span

/-- Where records start, in order. -/
def starts (os : List Occurrence) : List Int := os.filterMap fun o => Value.startOf? o.fields

@[simp] theorem starts_nil : starts [] = [] := rfl

@[simp] theorem starts_append (os os' : List Occurrence) : starts (os ++ os') = starts os ++ starts os' :=
  List.filterMap_append

theorem mem_starts {os : List Occurrence} {n : Int} :
    n ∈ starts os ↔ ∃ o ∈ os, Value.startOf? o.fields = some n := List.mem_filterMap

/-- Where records start is told from their fields. -/
theorem starts_eq (os : List Occurrence) :
    starts os = (os.map Occurrence.fields).filterMap Value.startOf? := by
  rw [List.filterMap_map]
  rfl

namespace Lowering

open Value (nodeFields headKeys)

/-- The fields of a node under their names. -/
def namedFields (fields : List (String × Value)) : List (Key × Value) :=
  fields.map fun f => (.text f.1, f.2)

theorem namedFields_append (fields fields' : List (String × Value)) :
    namedFields (fields ++ fields') = namedFields fields ++ namedFields fields' := List.map_append

/-- A field is looked up by its name. -/
theorem get?_namedFields_cons (name name' : String) (v : Value) (fields : List (String × Value)) :
    Fields.get? (namedFields ((name, v) :: fields)) (.text name') =
      if name = name' then some v else Fields.get? (namedFields fields) (.text name') := by
  rw [namedFields, List.map_cons, Fields.get?_cons]
  simp only [Scalar.text.injEq, Text.ofString_inj]
  rfl

theorem nodeAt_eq (type : Text) (start stop : Int) (fields : List (String × Value)) :
    nodeAt type start stop fields = .record (nodeFields type start stop (namedFields fields)) := rfl

theorem nodeOf_eq (type : Text) (token : Token) (fields : List (String × Value)) :
    nodeOf type token fields =
      .record (nodeFields type token.start token.stop (namedFields fields)) := rfl

end Lowering

end Arbor
