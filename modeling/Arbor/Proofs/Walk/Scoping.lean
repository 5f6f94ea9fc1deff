import Arbor.Proofs.Scope.Positions
import Arbor.Proofs.Walk.Along

set_option autoImplicit false

/-! # The scopes of a walk

A tracker that follows a walk counts the scopes that have been closed. In a walk that only observes,
the paths that come of this are the positions that the tree tells (`walk_positions`), whatever
becomes of the declarations. -/

namespace Arbor

open Scope (Call Tracker Role advanced opened closed closedOne)

variable {σ : Type}

/-! ## Counters along a tour -/

theorem Heap.Holds.opens {h : Heap} {r : Ref} {fields : List (Key × Layout)}
    (hh : h.Holds (.record r fields)) : h.opens r = (Layout.record r fields).opens := by
  rw [Heap.opens_eq, Layout.opens, ← hh.nodeType?]
  rfl

namespace Passage

/-- The counters of a tracker after a passage. -/
def advance (p : Passage) (counters : List Nat) : List Nat :=
  advanced p.phase p.layout.opens counters

/-- The position that a tracker with given counters has after a passage, if a node is entered. -/
def position? (p : Passage) (counters : List Nat) : Option Position :=
  match p.phase with
  | .enter => some ⟨p.node, p.skipped, p.layout.opens, counters.tail.reverse⟩
  | .leave => none

end Passage

/-- The counters after several passages. -/
def arrival (counters : List Nat) (ps : List Passage) : List Nat :=
  ps.foldl (fun counters p => p.advance counters) counters

/-- The positions of the nodes that are entered. -/
def stations (counters : List Nat) : List Passage → List Position
  | [] => []
  | p :: ps => (p.position? (p.advance counters)).toList ++ stations (p.advance counters) ps

theorem stations_append (counters : List Nat) (ps ps' : List Passage) :
    stations counters (ps ++ ps') = stations counters ps ++ stations (arrival counters ps) ps' := by
  induction ps generalizing counters with
  | nil => rfl
  | cons p ps ih =>
    rw [List.cons_append, stations, stations, ih, List.append_assoc]
    rfl

theorem arrival_append (counters : List Nat) (ps ps' : List Passage) :
    arrival counters (ps ++ ps') = arrival (arrival counters ps) ps' := List.foldl_append

namespace ScopePath

/-! The counters tell the path of the current scope and the number of scopes directly inside it. -/

theorem opened_inside (n : Nat) (p : ScopePath) (k : Nat) :
    opened n (k :: p.reverse) = (inside n p k).2 :: (inside n p k).1.reverse := by
  induction n with
  | zero => rfl
  | succ n ih =>
    have hstep : opened (n + 1) (k :: p.reverse) = 0 :: opened n (k :: p.reverse) := by
      rw [opened, List.replicate_succ, List.cons_append]
      rfl
    rw [hstep, ih, inside, List.reverse_append]
    rfl

/-- Where no scope is open the first one that is opened counts for the outside. -/
theorem opened_root (n : Nat) :
    opened (n + 1) [] = (inside n [] 0).2 :: (inside n [] 0).1.reverse := by
  rw [← opened_inside, opened, opened, List.replicate_succ', List.append_assoc]
  rfl

theorem closed_inside (n : Nat) (p : ScopePath) (k m : Nat) :
    closed (n + 1) (m :: (inside (n + 1) p k).1.reverse) = (k + 1) :: p.reverse := by
  induction n generalizing m with
  | zero => simp [closed, inside, closedOne]
  | succ n ih =>
    have hstep : closedOne (m :: (inside (n + 2) p k).1.reverse) =
        ((inside (n + 1) p k).2 + 1) :: (inside (n + 1) p k).1.reverse := by
      rw [inside, List.reverse_append]
      rfl
    rw [closed, hstep, ih]

/-- Leaving a node comes out one ordinal further on if it opens a scope, and else as far as what is below
    it has come. -/
theorem closed_below (n : Nat) (p : ScopePath) (k m : Nat) :
    closed n (((inside n p k).2 + m) :: (inside n p k).1.reverse) =
      (k + if n = 0 then m else 1) :: p.reverse := by
  cases n with
  | zero => rfl
  | succ n => exact closed_inside n p k _

end ScopePath

namespace Passage

open ScopePath

variable {r : Ref} {fields : List (Key × Layout)} (skipped : Bool) {n : Nat}

theorem advance_enter (hn : (Layout.record r fields).opens = n) (p : ScopePath) (k : Nat) :
    advance ⟨.enter, r, fields, skipped⟩ (k :: p.reverse) =
      (inside n p k).2 :: (inside n p k).1.reverse := by
  rw [← opened_inside, ← hn]
  rfl

theorem advance_leave (hn : (Layout.record r fields).opens = n) (p : ScopePath) (k m : Nat) :
    advance ⟨.leave, r, fields, skipped⟩ (((inside n p k).2 + m) :: (inside n p k).1.reverse) =
      (k + if n = 0 then m else 1) :: p.reverse := by
  rw [← closed_below, ← hn]
  rfl

/-- From an empty stack on a node comes to the scopes that it opens inside the first one. -/
theorem advance_root (hn : (Layout.record r fields).opens = n + 1) :
    advance ⟨.enter, r, fields, skipped⟩ [] = (inside n [] 0).2 :: (inside n [] 0).1.reverse := by
  rw [← opened_root, ← hn]
  rfl

end Passage

namespace Forest

open ScopePath

/-- Along the tour of a forest a tracker counts the scopes that are opened in it, and is at every node
    where the forest tells. -/
theorem tour_positions (f : Forest) (p : ScopePath) (k : Nat) :
    stations (k :: p.reverse) f.passages = f.positions p k ∧
      arrival (k :: p.reverse) f.passages = (k + f.count) :: p.reverse := by
  induction f generalizing p k with
  | nil => exact ⟨rfl, rfl⟩
  | node r fields skipped below rest ihBelow ihRest =>
    generalize hn : (Layout.record r fields).opens = n
    -- entering goes into the scopes that the node opens, leaving comes out one ordinal further on
    have henter := Passage.advance_enter skipped hn p k
    have hleave := Passage.advance_leave skipped hn p k below.count
    obtain ⟨hbelow, hbelow'⟩ := ihBelow (inside n p k).1 (inside n p k).2
    obtain ⟨hrest, hrest'⟩ := ihRest p (k + if n = 0 then below.count else 1)
    rw [positions_node p k r fields skipped below rest hn, passages_node, count, hn]
    constructor
    · have hposition : Passage.position? ⟨.enter, r, fields, skipped⟩
          ((inside n p k).2 :: (inside n p k).1.reverse) =
          some ⟨r, skipped, n, (inside n p k).1⟩ := by
        simp [Passage.position?, Passage.layout, hn]
      rw [stations, henter, hposition, stations_append, hbelow, hbelow', stations, hleave, hrest]
      rfl
    · show arrival (Passage.advance ⟨.enter, r, fields, skipped⟩ _) _ = _
      rw [henter, arrival_append, hbelow']
      show arrival (Passage.advance ⟨.leave, r, fields, skipped⟩ _) _ = _
      rw [hleave, hrest', Nat.add_assoc]

end Forest

/-! ## Positions of a log -/

/-- The position of a node that is shown on entering, by the tracker at that moment. -/
def Showing.position? (e : Showing) : Option Position :=
  match e.phase with
  | .enter => some ⟨e.visit.node, e.request.skipped, e.heap.opens e.visit.node, e.tracker.path⟩
  | .leave => none

/-- The positions of the nodes that were entered. -/
def positionsOf (log : List Showing) : List Position := log.filterMap Showing.position?

theorem Follows.stations {T T' : Tracker} {ps : List Passage} {log : List Showing}
    (h : Follows T ps log T') : positionsOf log = stations T.counters ps := by
  induction h with
  | nil => rfl
  | @cons T T' p ps e log h hh hrun hphase hnode hheap hskipped hrest ih =>
    have hcounters : e.tracker.counters = p.advance T.counters := by
      rw [Call.run_counters hrun, hh.opens]
      rfl
    have hposition : e.position? = p.position? (p.advance T.counters) := by
      unfold Showing.position? Passage.position?
      rw [hphase]
      cases hp : p.phase with
      | enter =>
        show some _ = some _
        rw [hskipped hp, hnode, hheap.opens, ← hcounters]
        rfl
      | leave => rfl
    rw [hcounters] at ih
    rw [positionsOf, Arbor.stations, ← ih, ← hposition]
    cases hp : e.position? <;> simp [positionsOf, hp]

/-! ## Walks of programs -/

/-- Along the tour of a program a tracker whose stack is empty is at every node where the program
    tells. -/
theorem Forest.tour_program {r : Ref} {fields : List (Key × Layout)} (skipped : Bool)
    (below : Forest) (hn : (Layout.record r fields).opens = 1) :
    stations [] (node r fields skipped below .nil).passages =
      (node r fields skipped below .nil).programPositions := by
  obtain ⟨hbelow, -⟩ := tour_positions below [] 0
  have henter : Passage.advance ⟨.enter, r, fields, skipped⟩ [] = 0 :: ([] : ScopePath).reverse := by
    show opened (Layout.record r fields).opens [] = _
    rw [hn]
    rfl
  rw [passages_node, stations, henter, stations_append, hbelow]
  show _ :: (_ ++ []) = _
  rw [List.append_nil]
  rfl

/-- A tracker whose stack is empty follows a walk that observes a program, to its end if the callbacks answer
    and the program is well shaped. As far as the walk comes, the nodes it enters have the positions that
    the program tells, where it only depends on the callbacks which nodes are skipped. The scopes are
    opened in the order of their paths, and no two of them have the same key. -/
theorem walk_positions {w : Walker σ} {t : Layout} (hw : w.Observes t) (htracked : w.tracked = true)
    (ht : t.type? = some "Program") (hkeys : ∀ e ∈ t.cells, e.2.KeysOnce) {s : World σ}
    (hs : s.heap.Holds t) (hempty : s.tracker.counters = []) (steps : Nat) :
    (w.Answers t → t.WellShaped → t.steps ≤ steps → ∃ s', w.walk steps t.datum s = .ok t.datum s') ∧
    ∃ f, Seen t f ∧ positionsOf (w.log steps t.datum s) <+: f.programPositions ∧
      (∀ d s', w.walk steps t.datum s = .ok d s' →
        positionsOf (w.log steps t.datum s) = f.programPositions) ∧
      ((positionsOf (w.log steps t.datum s)).flatMap Position.opened).Pairwise
        (fun p q => p.before q = true) ∧
      (((positionsOf (w.log steps t.datum s)).flatMap Position.opened).map ScopePath.key).Nodup := by
  have hn := Layout.isNode_of_type ht
  constructor
  · intro ha hshaped hsteps
    obtain ⟨s', hrun, -⟩ := walk_returns hw ha hshaped.iterable hkeys hn hs hsteps
    exact ⟨s', hrun⟩
  obtain ⟨f, ps, rest, T, hf, hps, hfollows, hdone⟩ := walk_tours hw htracked hkeys hn hs steps
  have hlog := hfollows.stations
  rw [hempty] at hlog
  obtain ⟨r, fields, skipped, below, rfl, rfl⟩ : ∃ r fields skipped below,
      t = .record r fields ∧ f = .node r fields skipped below .nil := by
    cases hf with
    | data hn' => simp [hn] at hn'
    | skipped => exact ⟨_, _, _, _, rfl, rfl⟩
    | walked => exact ⟨_, _, _, _, rfl, rfl⟩
  have hopens : (Layout.record r fields).opens = 1 := by
    rw [Layout.opens, ht]
    decide
  have htour := Forest.tour_program skipped below hopens
  rw [hps, stations_append, ← hlog] at htour
  have hordered := Forest.pairwise_opened_program skipped below .nil hopens
  rw [← htour, List.flatMap_append, List.pairwise_append] at hordered
  refine ⟨_, hf, ⟨_, htour⟩, ?_, hordered.1, ScopePath.nodup_keys hordered.1⟩
  intro d s' hrun
  obtain ⟨rfl, -⟩ := hdone d s' hrun
  rw [← htour]
  exact (List.append_nil _).symm

namespace Sample

/-- A function with a block inside it, and a block after it. -/
def scopes : Layout :=
  .record 0 [(.text "type", .scalar (.text "Program")),
    (.text "body", .list 1 [
      .record 2 [(.text "type", .scalar (.text "FunctionExpression")),
        (.text "body", .record 3 [(.text "type", .scalar (.text "BlockStatement"))])],
      .record 4 [(.text "type", .scalar (.text "BlockStatement"))]])]

def scopesWorld : World Unit where
  heap := ⟨(scopes.cells.map Prod.snd).toArray⟩
  tracker := .fresh false
  warnings := []
  user := ()

/-- A walk that is only followed. -/
def follower : Walker Unit := ⟨none, none, true⟩

theorem follower_observes (t : Layout) : follower.Observes t := by
  rintro (_ | _) c hc <;> cases hc

theorem follower_answers (t : Layout) : follower.Answers t := by
  rintro (_ | _) c hc <;> cases hc

theorem walk_positions_scopes :
    ∃ f s', Seen scopes f ∧ follower.walk 20 (.ref 0) scopesWorld = .ok (.ref 0) s' ∧
      positionsOf (follower.log 20 (.ref 0) scopesWorld) = f.programPositions ∧
      ((positionsOf (follower.log 20 (.ref 0) scopesWorld)).flatMap Position.opened).Pairwise
        (fun p q => p.before q = true) ∧
      (((positionsOf (follower.log 20 (.ref 0) scopesWorld)).flatMap Position.opened).map
        ScopePath.key).Nodup := by
  obtain ⟨hreturns, f, hf, -, hpositions, hordered, hkeys⟩ :=
    walk_positions (follower_observes scopes) rfl (by decide) (by decide) (s := scopesWorld)
      (by decide) rfl 20
  obtain ⟨s', hrun⟩ := hreturns (follower_answers scopes) (by decide) (by decide)
  exact ⟨f, s', hf, hrun, hpositions _ s' hrun, hordered, hkeys⟩

end Sample

end Arbor
