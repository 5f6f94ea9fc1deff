import Arbor.Value.Basic
import Mathlib.Data.List.Nodup

set_option autoImplicit false

/-! # Going through fields that are edited on the way

What is seen of fields that are edited while they are gone through (`Fields.enumerate_robust`): the keys that
are seen are among those of the start, in their order and each at most once. A key of the start is seen exactly
if it is present at its turn, with the value that it holds then. Nothing else is ever seen. The edits that follow
a key are told by the key alone; as no key is seen twice, these are any edits at all. -/

namespace Arbor.Fields

variable {K V : Type} [DecidableEq K]

/-! ## Edits -/

/-- The key that an edit is about. -/
def Edit.key : Edit K V → K
  | .erase key => key
  | .set key _ => key

/-- Fields after edits, the first one first. -/
def editedBy (fields : Fields K V) (edits : List (Edit K V)) : Fields K V := edits.foldl edited fields

theorem editedBy_append (fields : Fields K V) (edits edits' : List (Edit K V)) :
    fields.editedBy (edits ++ edits') = (fields.editedBy edits).editedBy edits' :=
  List.foldl_append

theorem get?_edited_of_ne (fields : Fields K V) {edit : Edit K V} {key : K} (h : edit.key ≠ key) :
    get? (edited fields edit) key = get? fields key := by
  cases edit with
  | erase other => exact get?_erase_of_ne fields h
  | set other value => exact get?_set_of_ne fields value h

/-- Edits of other keys leave what a key holds. -/
theorem get?_editedBy_of_forall_ne {fields : Fields K V} {edits : List (Edit K V)} {key : K}
    (h : ∀ edit ∈ edits, edit.key ≠ key) : get? (fields.editedBy edits) key = get? fields key := by
  induction edits generalizing fields with
  | nil => rfl
  | cons edit rest ih =>
    obtain ⟨hedit, hrest⟩ := List.forall_mem_cons.1 h
    calc get? ((edited fields edit).editedBy rest) key
        = get? (edited fields edit) key := ih hrest
      _ = get? fields key := get?_edited_of_ne fields hedit

/-! ## Turns -/

variable (script : K → List (Edit K V))

/-- The turns of keys, on what has been seen and the fields as they are. -/
def turns (keys : List K) : StateM (List (K × V) × Fields K V) Unit :=
  forPresent (fun key => do return get? (← get).2 key)
    (fun key value => modify fun s => (s.1 ++ [(key, value)], s.2.editedBy (script key))) keys

theorem enumerate_eq (fields : Fields K V) :
    enumerate script fields = ((turns script fields.keys).run ([], fields)).2 := rfl

theorem turns_of_present {now : Fields K V} {key : K} {value : V} (h : get? now key = some value)
    (seen : List (K × V)) (rest : List K) :
    (turns script (key :: rest)).run (seen, now) =
      (turns script rest).run (seen ++ [(key, value)], now.editedBy (script key)) := by
  simp [turns, forPresent, h]

theorem turns_of_absent {now : Fields K V} {key : K} (h : get? now key = none) (seen : List (K × V))
    (rest : List K) :
    (turns script (key :: rest)).run (seen, now) = (turns script rest).run (seen, now) := by
  simp [turns, forPresent, h]

/-! ## What is seen -/

/-- The edits that are made after each of the keys that were seen. -/
def editsAfter (seen : List (K × V)) : List (Edit K V) := seen.flatMap fun entry => script entry.1

/-- The fields at the turn of a key: the keys before it that were seen have been followed by their edits. -/
def atTurn (fields : Fields K V) (seen : List (K × V)) (before : List K) : Fields K V :=
  fields.editedBy (editsAfter script (seen.filter fun entry => entry.1 ∈ before))

omit [DecidableEq K] in
theorem editsAfter_cons (entry : K × V) (seen : List (K × V)) :
    editsAfter script (entry :: seen) = script entry.1 ++ editsAfter script seen :=
  List.flatMap_cons

/-- Before the first turn nothing has been edited. -/
@[simp] theorem atTurn_nil (fields : Fields K V) (seen : List (K × V)) :
    atTurn script fields seen [] = fields := by
  have hfilter : seen.filter (fun entry => entry.1 ∈ ([] : List K)) = [] := by simp
  rw [atTurn, hfilter]
  rfl

/-- A key that was not seen makes no difference to later turns. -/
theorem atTurn_cons_of_not_mem (fields : Fields K V) {seen : List (K × V)} {key : K}
    (h : ∀ value, (key, value) ∉ seen) (before : List K) :
    atTurn script fields seen (key :: before) = atTurn script fields seen before := by
  have hfilter : seen.filter (fun entry => entry.1 ∈ key :: before) =
      seen.filter fun entry => entry.1 ∈ before := by
    apply List.filter_congr
    rintro ⟨other, value⟩ hmem
    have hne : other ≠ key := by
      rintro rfl
      exact h value hmem
    simp [hne]
  rw [atTurn, hfilter, atTurn]

/-- A key that was seen has been followed by its edits at later turns. -/
theorem atTurn_cons_of_mem (fields : Fields K V) {seen : List (K × V)} {key : K}
    (h : ∀ value, (key, value) ∉ seen) (value : V) (before : List K) :
    atTurn script fields ((key, value) :: seen) (key :: before) =
      atTurn script (fields.editedBy (script key)) seen before := by
  rw [← atTurn_cons_of_not_mem script _ h, atTurn, List.filter_cons_of_pos (by simp), editsAfter_cons,
    editedBy_append, atTurn]

/-- What is seen from some fields on, when it is the turn of the first of these keys. -/
inductive Sees : Fields K V → List K → List (K × V) → Prop
  | nil (now : Fields K V) : Sees now [] []
  | present {now : Fields K V} {key : K} {value : V} {rest : List K} {seen : List (K × V)}
      (held : get? now key = some value) (later : Sees (now.editedBy (script key)) rest seen) :
      Sees now (key :: rest) ((key, value) :: seen)
  | absent {now : Fields K V} {key : K} {rest : List K} {seen : List (K × V)}
      (gone : get? now key = none) (later : Sees now rest seen) : Sees now (key :: rest) seen

/-- The turns of keys add what is seen from the fields on, and make the edits that come after it. -/
theorem turns_sees (keys : List K) (before : List (K × V)) (now : Fields K V) :
    ∃ seen, Sees script now keys seen ∧
      (turns script keys).run (before, now) =
        ((), (before ++ seen, now.editedBy (editsAfter script seen))) := by
  induction keys generalizing before now with
  | nil => exact ⟨[], .nil now, by rw [List.append_nil]; rfl⟩
  | cons key rest ih =>
    cases hheld : get? now key with
    | none =>
      obtain ⟨seen, hsees, hrun⟩ := ih before now
      exact ⟨seen, .absent hheld hsees, by rw [turns_of_absent script hheld, hrun]⟩
    | some value =>
      obtain ⟨seen, hsees, hrun⟩ := ih (before ++ [(key, value)]) (now.editedBy (script key))
      refine ⟨(key, value) :: seen, .present hheld hsees, ?_⟩
      rw [turns_of_present script hheld, hrun, List.append_assoc, List.singleton_append, editsAfter_cons,
        editedBy_append]

namespace Sees

variable {script} {now : Fields K V} {keys : List K} {seen : List (K × V)}

/-- The keys that are seen are among those that have a turn, in their order. -/
theorem sublist (h : Sees script now keys seen) : (seen.map Prod.fst).Sublist keys := by
  induction h with
  | nil now => exact .slnil
  | present held later ih => exact ih.cons_cons _
  | absent gone later ih => exact ih.cons _

theorem not_mem (h : Sees script now keys seen) {key : K} (hkey : key ∉ keys) (value : V) :
    (key, value) ∉ seen := fun hmem =>
  hkey (h.sublist.subset (List.mem_map_of_mem hmem))

/-- A key is seen exactly if it is present at its turn, with what it holds then. -/
theorem mem_iff (h : Sees script now keys seen) (hkeys : keys.Nodup) {before after : List K} {key : K}
    (hsplit : keys = before ++ key :: after) (value : V) :
    (key, value) ∈ seen ↔ get? (atTurn script now seen before) key = some value := by
  induction h generalizing before with
  | nil now => simp at hsplit
  | @present now first held rest seen hheld later ih =>
    obtain ⟨hfirst, hrest⟩ := List.nodup_cons.1 hkeys
    -- keys are distinct, so the first one has no second turn
    have hlater := later.not_mem hfirst
    cases before with
    | nil =>
      obtain ⟨rfl, rfl⟩ := List.cons.inj hsplit
      rw [atTurn_nil, hheld, Option.some.injEq, List.mem_cons, or_iff_left (hlater value)]
      simp [eq_comm]
    | cons b before =>
      obtain ⟨rfl, rfl⟩ := List.cons.inj hsplit
      have hne : key ≠ first := by
        rintro rfl
        exact hfirst (List.mem_append_right _ (List.mem_cons_self ..))
      rw [atTurn_cons_of_mem script now hlater, ← ih hrest rfl, List.mem_cons]
      simp [hne]
  | @absent now first rest seen hgone later ih =>
    obtain ⟨hfirst, hrest⟩ := List.nodup_cons.1 hkeys
    have hlater := later.not_mem hfirst
    cases before with
    | nil =>
      obtain ⟨rfl, rfl⟩ := List.cons.inj hsplit
      rw [atTurn_nil, hgone]
      simp [hlater value]
    | cons b before =>
      obtain ⟨rfl, rfl⟩ := List.cons.inj hsplit
      rw [atTurn_cons_of_not_mem script now hlater, ih hrest rfl]

end Sees

/-- Fields are gone through robustly, whatever is edited after each key:

    - The keys that are seen are among those of the start, in their order, and none is seen twice. No other key
      is ever seen.
    - A key of the start is seen exactly if it is present at its turn, and with the value that it holds then, also
      if it has been erased and stored again.
    - A key that no edit is about is seen once, with its first value. -/
theorem enumerate_robust (fields : Fields K V) (hkeys : fields.keys.Nodup) :
    ∃ seen, enumerate script fields = (seen, fields.editedBy (editsAfter script seen)) ∧
      (seen.map Prod.fst).Sublist fields.keys ∧ (seen.map Prod.fst).Nodup ∧
      (∀ key ∉ fields.keys, key ∉ seen.map Prod.fst) ∧
      (∀ before key after, fields.keys = before ++ key :: after → ∀ value,
        (key, value) ∈ seen ↔ get? (atTurn script fields seen before) key = some value) ∧
      ∀ key value, get? fields key = some value →
        (∀ edit ∈ editsAfter script seen, edit.key ≠ key) →
        (key, value) ∈ seen ∧ (seen.map Prod.fst).count key = 1 := by
  obtain ⟨seen, hsees, hrun⟩ := turns_sees script fields.keys [] fields
  have hnodup : (seen.map Prod.fst).Nodup := hsees.sublist.nodup hkeys
  refine ⟨seen, by rw [enumerate_eq, hrun, List.nil_append], hsees.sublist, hnodup, ?_, ?_, ?_⟩
  · exact fun key hkey hmem => hkey (hsees.sublist.subset hmem)
  · exact fun before key after hsplit => hsees.mem_iff hkeys hsplit
  · intro key value hvalue huntouched
    have hkey : key ∈ fields.keys := List.mem_map_of_mem (mem_of_get? hvalue)
    obtain ⟨before, after, hsplit⟩ := List.append_of_mem hkey
    have hturn : get? (atTurn script fields seen before) key = get? fields key := by
      apply get?_editedBy_of_forall_ne
      intro edit hedit
      obtain ⟨entry, hentry, hmade⟩ := List.mem_flatMap.1 hedit
      exact huntouched edit (List.mem_flatMap.2 ⟨entry, (List.mem_filter.1 hentry).1, hmade⟩)
    have hmem : (key, value) ∈ seen := (hsees.mem_iff hkeys hsplit value).2 (hturn.trans hvalue)
    exact ⟨hmem, List.count_eq_one_of_mem hnodup (List.mem_map_of_mem hmem)⟩

namespace Sample

/-- A node with three fields. -/
def node : Fields Key Value :=
  [(.text "type", .text "X"), (.text "a", .int 1), (.text "b", .int 2), (.text "c", .int 3)]

/-- After the type, the second field is erased and stored again, and a new one is added; after the first field, the
    third one is erased. -/
def edits (key : Key) : List (Edit Key Value) :=
  if key = .text "type" then
    [.erase (.text "b"), .set (.text "b") (.int 9), .set (.text "z") (.int 0)]
  else if key = .text "a" then [.erase (.text "c")]
  else []

example : (enumerate edits node).1 =
    [(.text "type", .text "X"), (.text "a", .int 1), (.text "b", .int 9)] := rfl

/-- The first field is seen as it was, the second one as it was stored again, and the new one is not seen. -/
theorem enumerate_robust_stored :
    node.keys.Nodup ∧ (.text "a", .int 1) ∈ (enumerate edits node).1 ∧
      (.text "b", .int 9) ∈ (enumerate edits node).1 ∧
      .text "z" ∉ (enumerate edits node).1.map Prod.fst := by
  have hkeys : node.keys.Nodup := by decide
  obtain ⟨seen, hrun, -, -, hnew, hturn, huntouched⟩ := enumerate_robust edits node hkeys
  obtain rfl : (enumerate edits node).1 = seen := congrArg Prod.fst hrun
  refine ⟨hkeys, (huntouched _ _ rfl (by decide)).1, ?_, hnew _ (by decide)⟩
  exact (hturn [.text "type", .text "a"] _ [.text "c"] rfl _).2 rfl

end Sample

end Arbor.Fields
