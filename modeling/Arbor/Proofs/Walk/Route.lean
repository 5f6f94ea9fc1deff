import Arbor.Proofs.Heap.Parts
import Arbor.Proofs.Walk.Observing

set_option autoImplicit false

/-! # The route of a walk

A walk that only observes a tree goes along a route that the tree alone tells (`Layout.route`): all its
nodes in their order, each with its slot. Going along a route (`Route.run`) takes neither steps nor a
look at the heap, and follows the structure of the route; a walk that has enough steps comes to the
same (`walk_along_route`). -/

namespace Arbor

variable {σ : Type}

/-- What is done below a node, unless the children are to be skipped. -/
def Request.unlessSkipped (q : Request) (x : WalkM σ Unit) : WalkM σ Unit :=
  if q.skipped then pure () else x

/-- Nodes that a walk comes to one after another: the first one with its slot, what it comes to below
    it, and the others. -/
inductive Route where
  | nil
  | node (r : Ref) (fields : List (Key × Layout)) (slot : Heap.Slot) (below rest : Route)
  deriving Inhabited

namespace Route

/-- The nodes of one route and then those of another. -/
def append : Route → Route → Route
  | nil, g => g
  | node r fields slot below rest, g => node r fields slot below (append rest g)

instance : Append Route := ⟨append⟩

@[simp] theorem nil_append (g : Route) : nil ++ g = g := rfl

@[simp] theorem node_append (r : Ref) (fields : List (Key × Layout)) (slot : Heap.Slot)
    (below rest g : Route) :
    node r fields slot below rest ++ g = node r fields slot below (rest ++ g) := rfl

/-- Go along a route: past every node, below it unless it is skipped, and past it again. -/
def run (w : Walker σ) (root : Datum) : Route → WalkM σ Unit
  | nil => pure ()
  | node r _ slot below rest => do
    w.follow .enter r
    let q ← w.call .enter ⟨r, slot, root⟩
    q.unlessSkipped (below.run w root)
    w.follow .leave r
    let _ ← w.call .leave ⟨r, slot, root⟩
    rest.run w root

theorem run_append (w : Walker σ) (root : Datum) (f g : Route) :
    (f ++ g).run w root = f.run w root >>= fun _ => g.run w root := by
  induction f with
  | nil =>
    rw [nil_append, run, pure_bind]
  | node r fields slot below rest _ ih =>
    rw [node_append, run, ih, run]
    simp only [bind_assoc]

/-- To come past a node and along the rest of a route, part by part. -/
theorem run_node_eq_ok {w : Walker σ} {root : Datum} {r : Ref} {fields : List (Key × Layout)}
    {slot : Heap.Slot} {below rest : Route} {s s' : World σ}
    (hrun : (node r fields slot below rest).run w root s = .ok () s') :
    ∃ s₁ q s₂ s₃ s₄ q' s₅,
      (w.follow .enter r s = .ok () s₁ ∧ w.call .enter ⟨r, slot, root⟩ s₁ = .ok q s₂) ∧
      q.unlessSkipped (below.run w root) s₂ = .ok () s₃ ∧
      (w.follow .leave r s₃ = .ok () s₄ ∧ w.call .leave ⟨r, slot, root⟩ s₄ = .ok q' s₅) ∧
      rest.run w root s₅ = .ok () s' := by
  obtain ⟨_, s₁, henter, hrun⟩ := Actions.bind_eq_ok.1 hrun
  obtain ⟨q, s₂, hcall, hrun⟩ := Actions.bind_eq_ok.1 hrun
  obtain ⟨_, s₃, hbelow, hrun⟩ := Actions.bind_eq_ok.1 hrun
  obtain ⟨_, s₄, hleave, hrun⟩ := Actions.bind_eq_ok.1 hrun
  obtain ⟨q', s₅, hcall', hrest⟩ := Actions.bind_eq_ok.1 hrun
  exact ⟨s₁, q, s₂, s₃, s₄, q', s₅, ⟨henter, hcall⟩, hbelow, ⟨hleave, hcall'⟩, hrest⟩

end Route

/-! ## The route that a tree tells -/

namespace Layout

mutual

/-- The route to the node in a slot, if there is one, and through all that is below it. -/
def route (slot : Heap.Slot) : Layout → Route
  | scalar _ => .nil
  | list _ _ => .nil
  | record r fields =>
    if (record r fields).isNode then .node r fields slot (routeOfFields r fields) .nil else .nil

/-- The route through the elements of a list, from the one at a given position on. -/
def routeOfItems (parent : Ref) (key : Key) (i : Nat) : List Layout → Route
  | [] => .nil
  | t :: rest => route ⟨some parent, key, some i⟩ t ++ routeOfItems parent key (i + 1) rest

/-- The route through the fields of a record. -/
def routeOfFields (parent : Ref) : List (Key × Layout) → Route
  | [] => .nil
  | (_, scalar _) :: rest => routeOfFields parent rest
  | (key, list _ items) :: rest => routeOfItems parent key 0 items ++ routeOfFields parent rest
  | (key, record r fields) :: rest =>
    route ⟨some parent, key, none⟩ (record r fields) ++ routeOfFields parent rest

end

/-- The route through a field. -/
def routeOfField (parent : Ref) (key : Key) : Layout → Route
  | list _ items => routeOfItems parent key 0 items
  | t => t.route ⟨some parent, key, none⟩

theorem routeOfFields_cons (parent : Ref) (key : Key) (t : Layout) (rest : List (Key × Layout)) :
    routeOfFields parent ((key, t) :: rest) = routeOfField parent key t ++ routeOfFields parent rest := by
  cases t <;> rw [routeOfFields] <;> rfl

theorem route_node {r : Ref} {fields : List (Key × Layout)} (hn : (record r fields).isNode = true)
    (slot : Heap.Slot) :
    (record r fields).route slot = .node r fields slot (routeOfFields r fields) .nil := by
  rw [route, if_pos hn]

/-- What holds of the routes to all nodes of a tree, if it holds of a node when it holds of what is below
    it, and of two routes together when it holds of both. It may depend on the node that a route comes
    from. -/
theorem routes_of_parts {t : Layout} {P : Option Ref → Route → Prop} (hnil : ∀ p?, P p? .nil)
    (happend : ∀ p? f g, P p? f → P p? g → P p? (f ++ g))
    (hnode : ∀ r fields (slot : Heap.Slot), record r fields ∈ t.parts →
      (record r fields).isNode = true → P (some r) (routeOfFields r fields) →
        P slot.parent? (.node r fields slot (routeOfFields r fields) .nil))
    {u : Layout} (hu : u ∈ t.parts) :
    (∀ slot : Heap.Slot, P slot.parent? (u.route slot)) ∧
      ∀ parent key, P (some parent) (routeOfField parent key u) := by
  induction u using induction with
  | scalar s => exact ⟨fun _ => hnil _, fun _ _ => hnil _⟩
  | list r items ih =>
    refine ⟨fun _ => hnil _, fun parent key => ?_⟩
    rw [routeOfField]
    generalize 0 = i
    have hitems : ∀ u ∈ items, ∀ slot : Heap.Slot, P slot.parent? (u.route slot) := fun u hmem =>
      (ih u hmem (parts_subset hu (parts_item hmem (mem_parts_self u)))).1
    clear ih hu
    induction items generalizing i with
    | nil => exact hnil _
    | cons u rest ihItems =>
      obtain ⟨hfirst, hrest⟩ := List.forall_mem_cons.1 hitems
      rw [routeOfItems]
      exact happend _ _ _ (hfirst ⟨some parent, key, some i⟩) (ihItems (i + 1) hrest)
  | record r fields ih =>
    have hfields : P (some r) (routeOfFields r fields) := by
      have hall : ∀ f ∈ fields, P (some r) (routeOfField r f.1 f.2) := fun f hf =>
        (ih f hf (parts_subset hu (parts_field hf (mem_parts_self f.2)))).2 r f.1
      clear ih hu
      induction fields with
      | nil => exact hnil _
      | cons f rest ihFields =>
        obtain ⟨hfirst, hrest⟩ := List.forall_mem_cons.1 hall
        obtain ⟨key, u⟩ := f
        rw [routeOfFields_cons]
        exact happend _ _ _ hfirst (ihFields hrest)
    have node (slot : Heap.Slot) : P slot.parent? ((record r fields).route slot) := by
      rw [route]
      split
      · next hn => exact hnode r fields slot hu hn hfields
      · exact hnil _
    exact ⟨node, fun parent key => node ⟨some parent, key, none⟩⟩

theorem route_of_not_isNode {t : Layout} (hn : t.isNode = false) (slot : Heap.Slot) :
    t.route slot = .nil := by
  cases t with
  | record r fields => rw [route, if_neg (by simp [hn])]
  | _ => rfl

end Layout

/-! ## The number of steps -/

/-- The steps that are counted for a cell: one for each of its entries and one more. -/
def Cell.steps : Cell → Nat
  | .list items => items.length + 1
  | .record fields => fields.length + 1

namespace Layout

/-- The steps that are counted for several cells. -/
def stepsOf : List (Ref × Cell) → Nat
  | [] => 0
  | e :: rest => e.2.steps + stepsOf rest

/-- A number of steps that is enough to walk a tree. -/
def steps (t : Layout) : Nat := stepsOf t.cells

theorem stepsOf_sublist {l l' : List (Ref × Cell)} (h : l.Sublist l') : stepsOf l ≤ stepsOf l' := by
  induction h with
  | slnil => exact Nat.le_refl _
  | cons e _ ih => exact Nat.le_trans ih (Nat.le_add_left _ _)
  | cons_cons e _ ih => exact Nat.add_le_add_left ih _

theorem steps_list (r : Ref) (items : List Layout) :
    (list r items).steps = items.length + 1 + stepsOf (cellsOfItems items) := by
  rw [steps, cells, stepsOf, Cell.steps, List.length_map]

theorem steps_record (r : Ref) (fields : List (Key × Layout)) :
    (record r fields).steps = fields.length + 1 + stepsOf (cellsOfFields fields) := by
  rw [steps, cells, stepsOf, Cell.steps, data, List.length_map]

theorem length_lt_steps (r : Ref) (items : List Layout) : items.length < (list r items).steps := by
  rw [steps_list]
  omega

theorem steps_item {r : Ref} {items : List Layout} {t : Layout} (ht : t ∈ items) :
    t.steps ≤ (list r items).steps := stepsOf_sublist (cells_item ht)

/-- One step is counted for the record itself. -/
theorem steps_field {r : Ref} {fields : List (Key × Layout)} {f : Key × Layout} (hf : f ∈ fields) :
    f.2.steps < (record r fields).steps := by
  have hle : f.2.steps ≤ stepsOf (cellsOfFields fields) := by
    rw [cellsOfFields_eq]
    exact stepsOf_sublist (cells_sublist_flatMap (List.mem_map_of_mem hf))
  rw [steps_record]
  omega

end Layout

/-! ## Actions that come to the same -/

/-- In the state `s` two actions come to the same, and if they come to an end they leave `t` as it is. -/
def WalkM.Matches {α : Type} (t : Layout) (x y : WalkM σ α) (s : World σ) : Prop :=
  x s = y s ∧ ∀ a s', y s = .ok a s' → s'.heap.Holds t

namespace WalkM.Matches

open Actions

variable {α β : Type} {t : Layout} {s : World σ}

theorem pure (a : α) (hs : s.heap.Holds t) : Matches t (pure a) (pure a) s := by
  refine ⟨rfl, fun b s' h => ?_⟩
  obtain ⟨-, rfl⟩ := pure_eq_ok.1 h
  exact hs

theorem congr {x x' y : WalkM σ α} (hx : x s = x' s) (h : Matches t x' y s) : Matches t x y s :=
  ⟨hx.trans h.1, h.2⟩

theorem bind {x y : WalkM σ α} {f g : α → WalkM σ β} (hx : Matches t x y s)
    (hf : ∀ a s', y s = .ok a s' → s'.heap.Holds t → Matches t (f a) (g a) s') :
    Matches t (x >>= f) (y >>= g) s := by
  refine ⟨?_, fun b s' h => ?_⟩
  · simp only [Bind.bind, EStateM.bind, hx.1]
    cases hy : y s with
    | ok a s₁ => exact (hf a s₁ hy (hx.2 a s₁ hy)).1
    | error e s₁ => rfl
  · obtain ⟨a, s₁, hy, hg⟩ := bind_eq_ok.1 h
    exact (hf a s₁ hy (hx.2 a s₁ hy)).2 b s' hg

/-- An action that always returns the same can be told from what it does alone. -/
theorem bind_pure {x : WalkM σ α} {y : WalkM σ Unit} {a : α} {f : α → WalkM σ β}
    {g : WalkM σ β} (hx : Matches t x (y >>= fun _ => Pure.pure a) s)
    (hf : ∀ s', s'.heap.Holds t → Matches t (f a) g s') :
    Matches t (x >>= f) (y >>= fun _ => g) s := by
  have hy : (y >>= fun _ => g) = (y >>= fun _ => Pure.pure a) >>= fun _ => g := by
    rw [bind_assoc]
    simp only [pure_bind]
  rw [hy]
  refine hx.bind fun b s' h hs' => ?_
  obtain ⟨_, s₁, -, h⟩ := bind_eq_ok.1 h
  obtain ⟨rfl, rfl⟩ := pure_eq_ok.1 h
  exact hf s₁ hs'

end WalkM.Matches

namespace Walker

open WalkM

/-- Following a walk leaves every tree as it is. -/
theorem follow_matches (w : Walker σ) {t : Layout} {s : World σ} (hs : s.heap.Holds t)
    (phase : Phase) (r : Ref) : Matches t (w.follow phase r) (w.follow phase r) s := by
  refine ⟨rfl, fun _ s' h => ?_⟩
  rw [(follow_eq_ok h).1]
  exact hs

/-- Visits by `f` of nodes of the tree `t` for which `steps` are enough go along their routes. -/
def VisitMatches (t : Layout) (w : Walker σ) (root : Datum) (steps : Nat)
    (f : Ref → Heap.Slot → WalkM σ Datum) : Prop :=
  ∀ r fields slot s, (Layout.record r fields).isNode = true →
    Layout.record r fields ∈ t.parts → (Layout.record r fields).steps ≤ steps → s.heap.Holds t →
    Matches t (f r slot)
      (((Layout.record r fields).route slot).run w root >>= fun _ => pure (.ref r)) s

section

variable {t : Layout} {w : Walker σ} {root : Datum} {steps : Nat}
  {f : Ref → Heap.Slot → WalkM σ Datum} (hf : VisitMatches t w root steps f) {s : World σ}
  (hs : s.heap.Holds t)

include hf hs

theorem visitItems_matches (pre : List Layout) {parent list : Ref} {key : Key}
    {rest : List Layout} (hpart : Layout.list list (pre ++ rest) ∈ t.parts)
    (hsteps : (Layout.list list (pre ++ rest)).steps ≤ steps) {left : Nat} (hleft : rest.length < left) :
    Matches t (visitItems f parent key list left pre.length)
      ((Layout.routeOfItems parent key pre.length rest).run w root) s := by
  induction rest generalizing pre left s with
  | nil =>
    obtain ⟨left, rfl⟩ := Nat.exists_eq_succ_of_ne_zero (Nat.ne_zero_of_lt hleft)
    have hlist := ((Heap.holds_list_iff _ _ _).1 (hs.of_part hpart)).1
    exact .congr (visitItems_end ((Heap.items?_eq_some _).2 hlist) (by simp)) (.pure () hs)
  | cons u rest ih =>
    obtain ⟨left, rfl⟩ := Nat.exists_eq_succ_of_ne_zero (Nat.ne_zero_of_lt hleft)
    obtain ⟨hlist, hitems⟩ := (Heap.holds_list_iff _ _ _).1 (hs.of_part hpart)
    have hi := (Heap.items?_eq_some _).2 hlist
    have hat : ((pre ++ u :: rest).map Layout.datum)[pre.length]? = some u.datum := by simp
    have hmem : u ∈ pre ++ u :: rest := by simp
    have hu := hitems u hmem
    have hrest {s : World σ} (hs : s.heap.Holds t) :
        Matches t (visitItems f parent key list left (pre.length + 1))
          ((Layout.routeOfItems parent key (pre.length + 1) rest).run w root) s := by
      have hlength : (pre ++ [u]).length = pre.length + 1 := by simp
      rw [← hlength]
      refine ih hs (pre ++ [u]) ?_ ?_ (Nat.lt_of_succ_lt_succ hleft)
      · rwa [List.append_assoc]
      · rwa [List.append_assoc]
    rw [Layout.routeOfItems]
    rcases hn : u.isNode with _ | _
    · rw [Layout.route_of_not_isNode hn]
      exact .congr (visitItems_data hi hat (hu.isNode.trans hn)) (hrest hs)
    · cases u with
      | record r fields =>
        have hvisit := hf r fields ⟨some parent, key, some pre.length⟩ s hn
          (Layout.parts_subset hpart (Layout.parts_item hmem (Layout.mem_parts_self _)))
          (Nat.le_trans (Layout.steps_item hmem) hsteps) hs
        rw [Route.run_append]
        refine .congr (visitItems_node hi hat (hu.isNode.trans hn)) ?_
        -- the node still stands in its place, so the position goes on by one
        exact hvisit.bind_pure fun s' hs' => hrest hs'
      | _ => cases hn

theorem visitField_matches (parent : Ref) (key : Key) {u : Layout} (hpart : u ∈ t.parts)
    (hsteps : u.steps ≤ steps) :
    Matches t (visitField f parent steps key u.datum)
      ((Layout.routeOfField parent key u).run w root) s := by
  have hu := hs.of_part hpart
  cases u with
  | scalar c => exact .pure () hs
  | list r items =>
    refine .congr (visitField_list ((Heap.holds_list_iff _ _ _).1 hu).1) ?_
    exact visitItems_matches hf hs [] hpart hsteps
      (Nat.lt_of_lt_of_le (Layout.length_lt_steps r items) hsteps)
  | record r fields =>
    have hc := ((Heap.holds_record_iff _ _ _).1 hu).1
    rw [Layout.routeOfField]
    · rcases hn : (Layout.record r fields).isNode with _ | _
      · rw [Layout.route_of_not_isNode hn]
        exact .congr (visitField_data hc (hu.isNode.trans hn)) (.pure () hs)
      · refine .congr (visitField_node hc (hu.isNode.trans hn)) ?_
        have hvisit := hf r fields ⟨some parent, key, none⟩ s hn hpart hsteps hs
        have hend := hvisit.bind_pure (f := fun _ => Pure.pure ()) fun s' hs' => .pure () hs'
        simpa using hend
    · simp

/-- The fields are visited in turn, each with what it has held from the start. -/
theorem forPresent_matches (pre : List (Key × Layout)) {parent : Ref} {rest : List (Key × Layout)}
    (hpart : Layout.record parent (pre ++ rest) ∈ t.parts)
    (hsteps : (Layout.record parent (pre ++ rest)).steps ≤ steps + 1)
    (hkeys : (Fields.keys (pre ++ rest)).Nodup) :
    Matches t
      (Fields.forPresent (fun key => look fun h => (h.fields? parent).bind (Fields.get? · key))
        (visitField f parent steps) (Fields.keys rest))
      ((Layout.routeOfFields parent rest).run w root) s := by
  induction rest generalizing pre s with
  | nil => exact .pure () hs
  | cons field rest ih =>
    obtain ⟨key, u⟩ := field
    have hfields := (hs.of_part hpart).fields?
    have hmem : (key, u) ∈ pre ++ (key, u) :: rest := by simp
    have hg : (s.heap.fields? parent).bind (Fields.get? · key) = some u.datum := by
      rw [hfields, Option.bind_some, Layout.get?_data, Fields.get?_of_mem hkeys hmem, Option.map_some]
    have hlt : u.steps < (Layout.record parent (pre ++ (key, u) :: rest)).steps :=
      Layout.steps_field hmem
    rw [Layout.routeOfFields_cons, Route.run_append]
    refine .congr (forPresent_cons hg) ?_
    refine (visitField_matches hf hs parent key ?_ ?_).bind fun _ s' _ hs' => ?_
    · exact Layout.parts_subset hpart (Layout.parts_field hmem (Layout.mem_parts_self _))
    · omega
    · refine ih hs' (pre ++ [(key, u)]) ?_ ?_ ?_
      · rwa [List.append_assoc]
      · rwa [List.append_assoc]
      · rwa [List.append_assoc]

/-- Below a node nothing is visited if it is skipped, and what is in its fields if it is not. -/
theorem visitBelow_matches {r : Ref} {fields : List (Key × Layout)} (q : Request)
    (hpart : Layout.record r fields ∈ t.parts) (hsteps : (Layout.record r fields).steps ≤ steps + 1)
    (hkeys : (Fields.keys fields).Nodup) :
    Matches t (visitBelow f steps ⟨.ref r, q.skipped⟩)
      (q.unlessSkipped ((Layout.routeOfFields r fields).run w root)) s := by
  unfold Request.unlessSkipped
  cases q.skipped with
  | true => exact .pure () hs
  | false =>
    rw [visitBelow_ref]
    refine .congr (visitFields_eq (hs.of_part hpart).fields?) ?_
    rw [Layout.keys_data]
    exact forPresent_matches hf hs [] hpart hsteps hkeys

end

section

variable {w : Walker σ} {t : Layout} (hw : w.Observes t) (hkeys : ∀ e ∈ t.cells, e.2.KeysOnce)

include hw

theorem call_matches {s : World σ} (hs : s.heap.Holds t) (phase : Phase) (v : Visit) :
    Matches t (w.call phase v) (w.call phase v) s :=
  ⟨rfl, fun _ _ h => (hw.call phase _ _ _ _ h hs).2.1⟩

include hkeys

/-- A visit that has enough steps goes along the route of the node. -/
theorem visit_matches (root : Datum) (steps : Nat) :
    VisitMatches t w root steps (w.visit root steps) := by
  induction steps with
  | zero =>
    intro r fields slot s _ _ hsteps _
    rw [Layout.steps_record] at hsteps
    omega
  | succ steps ih =>
    intro r fields slot s hn hpart hsteps hs
    have hnodup : (Fields.keys fields).Nodup := by
      have hcell := hkeys (r, .record (Layout.data fields))
        ((Layout.cells_part hpart).subset (by simp [Layout.cells]))
      rwa [Cell.KeysOnce, Layout.keys_data] at hcell
    rw [visit_eq, Layout.route_node hn, Route.run]
    simp only [bind_assoc]
    refine (follow_matches w hs .enter r).bind fun _ s₁ _ hs₁ => ?_
    refine (call_matches hw hs₁ .enter _).bind fun q s₂ hcall hs₂ => ?_
    rw [makeEnter_idle (hw.call .enter _ _ _ _ hcall hs₁).1, pure_bind]
    refine (visitBelow_matches ih hs₂ q hpart hsteps hnodup).bind fun _ s₃ _ hs₃ => ?_
    refine (follow_matches w hs₃ .leave r).bind fun _ s₄ _ hs₄ => ?_
    refine (call_matches hw hs₄ .leave _).bind fun q' s₅ hcall' hs₅ => ?_
    rw [makeLeave_idle (hw.call .leave _ _ _ _ hcall' hs₄).1]
    exact .pure _ hs₅

end

end Walker

/-- A walk that observes a tree, and has enough steps, goes along the route that the tree tells. It
    leaves the tree as it is and returns it. -/
theorem walk_along_route {w : Walker σ} {t : Layout} (hw : w.Observes t)
    (hkeys : ∀ e ∈ t.cells, e.2.KeysOnce) (hn : t.isNode = true) {s : World σ} (hs : s.heap.Holds t)
    {steps : Nat} (hsteps : t.steps ≤ steps) :
    WalkM.Matches t (w.walk steps t.datum)
      ((t.route .root).run w t.datum >>= fun _ => pure t.datum) s := by
  cases t with
  | record r fields =>
    refine .congr (Walker.walk_node (hs.isNode.trans hn)) ?_
    exact Walker.visit_matches hw hkeys _ steps r fields .root s hn (Layout.mem_parts_self _) hsteps hs
  | _ => cases hn

end Arbor
