set_option autoImplicit false

/-! # Ordered fields

Fields keep the order in which they were added: storing under a key that is present keeps the key's
place, and a new key goes last. Going through the fields is safe against edits made on the way: the
keys are those present at the start, each is passed over if it is gone at its turn, and what it
holds is what it holds then. -/

namespace Arbor

/-- Fields in the order in which they were added. -/
abbrev Fields (K V : Type) := List (K × V)

namespace Fields

variable {K V : Type} [DecidableEq K]

/-- What is stored under `key`. -/
def get? (fields : Fields K V) (key : K) : Option V := List.lookup key fields

/-- Store `value` under `key`, in the key's place if it has one, else at the end. -/
def set (fields : Fields K V) (key : K) (value : V) : Fields K V :=
  match fields with
  | [] => [(key, value)]
  | (k, v) :: rest => if k = key then (k, value) :: rest else (k, v) :: set rest key value

/-- The fields without `key`. -/
def erase (fields : Fields K V) (key : K) : Fields K V :=
  match fields with
  | [] => []
  | (k, v) :: rest => if k = key then rest else (k, v) :: erase rest key

/-- The keys in order. -/
def keys (fields : Fields K V) : List K := fields.map Prod.fst

/-! ## What the operations do to what is stored -/

@[simp] theorem get?_nil (key : K) : get? ([] : Fields K V) key = none := rfl

theorem get?_cons (k key : K) (v : V) (rest : Fields K V) :
    get? ((k, v) :: rest) key = if k = key then some v else get? rest key := by
  by_cases h : k = key
  · subst h
    rw [if_pos rfl, get?, List.lookup_cons_self]
  · have h' : (key == k) = false := beq_eq_false_iff_ne.2 (Ne.symm h)
    rw [if_neg h, get?, List.lookup_cons, h']
    rfl

theorem get?_set (fields : Fields K V) (key other : K) (value : V) :
    get? (fields.set key value) other = if key = other then some value else get? fields other := by
  induction fields with
  | nil => simp [set, get?_cons]
  | cons entry rest ih =>
    obtain ⟨k, v⟩ := entry
    by_cases hk : k = key
    · subst hk
      simp only [set, if_pos, get?_cons]
      split <;> rfl
    · by_cases ho : k = other
      · subst ho
        simp [set, hk, get?_cons, Ne.symm hk]
      · simp [set, hk, get?_cons, ho, ih]

@[simp] theorem get?_set_self (fields : Fields K V) (key : K) (value : V) :
    get? (fields.set key value) key = some value := by
  simp [get?_set]

theorem get?_set_of_ne (fields : Fields K V) {key other : K} (value : V) (h : key ≠ other) :
    get? (fields.set key value) other = get? fields other := by
  simp [get?_set, h]

/-- What is stored is in the fields. -/
theorem mem_of_get? {fields : Fields K V} {key : K} {value : V} (h : get? fields key = some value) :
    (key, value) ∈ fields := by
  obtain ⟨before, after, hfields, -⟩ := List.lookup_eq_some_iff.1 h
  simp [hfields]

theorem get?_eq_none_iff (fields : Fields K V) (key : K) :
    get? fields key = none ↔ key ∉ fields.keys := by
  induction fields with
  | nil => simp [keys]
  | cons entry rest ih =>
    obtain ⟨k, v⟩ := entry
    by_cases h : k = key
    · simp [get?_cons, keys, h]
    · simp only [get?_cons, if_neg h, ih]
      simp [keys, Ne.symm h]

/-- Storing under a present key changes no key; a new key goes last. -/
theorem keys_set (fields : Fields K V) (key : K) (value : V) :
    (fields.set key value).keys = if key ∈ fields.keys then fields.keys else fields.keys ++ [key] := by
  induction fields with
  | nil => simp [set, keys]
  | cons entry rest ih =>
    obtain ⟨k, v⟩ := entry
    by_cases h : k = key
    · subst h
      simp [set, keys]
    · have hk : ¬ key = k := fun e => h e.symm
      simp only [keys] at ih ⊢
      by_cases hm : key ∈ rest.map Prod.fst
      · simp [set, h, ih, hm]
      · simp [set, h, hk, ih, hm]

theorem keys_erase (fields : Fields K V) (key : K) :
    (fields.erase key).keys = fields.keys.erase key := by
  induction fields with
  | nil => rfl
  | cons entry rest ih =>
    obtain ⟨k, v⟩ := entry
    simp only [keys] at ih ⊢
    by_cases h : k = key
    · simp [erase, h]
    · simp [erase, h, List.erase_cons_tail, ih]

theorem get?_erase_of_ne (fields : Fields K V) {key other : K} (h : key ≠ other) :
    get? (fields.erase key) other = get? fields other := by
  induction fields with
  | nil => rfl
  | cons entry rest ih =>
    obtain ⟨k, v⟩ := entry
    by_cases hk : k = key
    · subst hk
      simp [erase, get?_cons, h]
    · simp [erase, hk, get?_cons, ih]

/-! ## Going through the fields -/

/-- Do something for each of the keys that is present at its turn, with what it holds then. -/
def forPresent {m : Type → Type} [Monad m] (look : K → m (Option V)) (body : K → V → m Unit) :
    List K → m Unit
  | [] => pure ()
  | key :: rest => do
    match ← look key with
    | some value => body key value
    | none => pure ()
    forPresent look body rest

/-- An edit of a record. -/
inductive Edit (K V : Type) where
  | erase (key : K)
  | set (key : K) (value : V)

/-- Carry out an edit. -/
def edited (fields : Fields K V) : Edit K V → Fields K V
  | .erase key => fields.erase key
  | .set key value => fields.set key value

/-- Go through fields, of which `script` edits some right after each key. The result is what was
    seen, in order, and the fields afterwards. -/
def enumerate (script : K → List (Edit K V)) (fields : Fields K V) :
    List (K × V) × Fields K V :=
  let look (key : K) : StateM (List (K × V) × Fields K V) (Option V) := do
    return get? (← get).2 key
  let body (key : K) (value : V) : StateM (List (K × V) × Fields K V) Unit :=
    modify fun s => (s.1 ++ [(key, value)], (script key).foldl edited s.2)
  ((forPresent look body fields.keys).run ([], fields)).2

end Fields

end Arbor
