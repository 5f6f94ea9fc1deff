import Arbor.Proofs.Scope.Filing
import Arbor.Proofs.Walk.Along
import Arbor.Proofs.Walk.Replay
import Arbor.Proofs.Walk.Scoping

set_option autoImplicit false

/-! # The contents of scopes

What is declared in each scope in the course of a walk is told by the nodes that are visited alone. Every
node has its spot among the scopes (`Forest.spots`), and declares names in those that it lies in or
opens; a tracker that preserves what it meets has stored, after the walk, just these declarations, each
under the path of its scope (`walk_contents`). -/

namespace Arbor

open Scope (Call Tracker Role Filing filedIn under recordAll pathOf filed opened)

variable {σ : Type}

/-! ## Spots -/

/-- A node on a tour: whether what is below it is left out, the node that it is reached from, and the
    scopes that matter to it, which are the scope `outer` that it lies in, the scope `first` that it opens
    first, and the scope `path` that is current in it. -/
structure Spot where
  node : Ref
  fields : List (Key × Layout)
  skipped : Bool
  parent? : Option Ref
  outer : ScopePath
  first : ScopePath
  path : ScopePath

namespace Spot

def layout (a : Spot) : Layout := .record a.node a.fields

def position (a : Spot) : Position := ⟨a.node, a.skipped, a.layout.opens, a.path⟩

/-- What is declared on entering the node. -/
def declares (a : Spot) : List Filing := a.layout.declares a.outer a.first a.path

/-- The paths of the scopes that the node opens. -/
def opened (a : Spot) : List ScopePath := a.position.opened

end Spot

namespace Forest

open ScopePath

/-- The spots of all nodes, in the order in which they are visited. They lie in the scope `p`, directly
    inside which `k` scopes have been opened. -/
def spots (parent? : Option Ref) (p : ScopePath) (k : Nat) : Forest → List Spot
  | nil => []
  | node r fields skipped below rest =>
    let n := (Layout.record r fields).opens
    let (path, opened) := inside n p k
    ⟨r, fields, skipped, parent?, p, p ++ [k], path⟩ :: (below.spots (some r) path opened ++
      rest.spots parent? p (k + if n = 0 then below.count else 1))

/-- The spots of a node that a walk starts from, and of all below it. The first scope that is opened has
    the empty path, as has the outside. -/
def rootSpots : Forest → List Spot
  | nil => []
  | node r fields skipped below _ =>
    let (path, opened) := inside ((Layout.record r fields).opens - 1) [] 0
    ⟨r, fields, skipped, none, [], [], path⟩ :: below.spots (some r) path opened

theorem spots_node (parent? : Option Ref) (p : ScopePath) (k : Nat) (r : Ref)
    (fields : List (Key × Layout)) (skipped : Bool) (below rest : Forest) {n : Nat}
    (hn : (Layout.record r fields).opens = n) :
    (node r fields skipped below rest).spots parent? p k =
      ⟨r, fields, skipped, parent?, p, p ++ [k], (inside n p k).1⟩ ::
        (below.spots (some r) (inside n p k).1 (inside n p k).2 ++
          rest.spots parent? p (k + if n = 0 then below.count else 1)) := by
  subst hn
  rfl

/-- The spots of nodes are at their positions. -/
theorem map_position_spots (f : Forest) (parent? : Option Ref) (p : ScopePath) (k : Nat) :
    (f.spots parent? p k).map Spot.position = f.positions p k := by
  induction f generalizing parent? p k with
  | nil => rfl
  | node r fields skipped below rest ihBelow ihRest =>
    rw [spots_node _ _ _ _ _ _ _ _ rfl, positions_node _ _ _ _ _ _ _ rfl, List.map_cons,
      List.map_append, ihBelow, ihRest]
    rfl

end Forest

/-! ## What is filed along a tour -/

namespace Passage

/-- What a tracker with given counters files on a passage. -/
def files (p : Passage) (counters : List Nat) : List Filing :=
  match p.phase with
  | .enter =>
    p.layout.declares (pathOf counters) (pathOf (0 :: counters)) (pathOf (p.advance counters))
  | .leave => []

end Passage

/-- What a tracker with given counters files on several passages. -/
def filedAlong (counters : List Nat) : List Passage → List Filing
  | [] => []
  | p :: ps => p.files counters ++ filedAlong (p.advance counters) ps

theorem filedAlong_append (counters : List Nat) (ps ps' : List Passage) :
    filedAlong counters (ps ++ ps') =
      filedAlong counters ps ++ filedAlong (arrival counters ps) ps' := by
  induction ps generalizing counters with
  | nil => rfl
  | cons p ps ih =>
    rw [List.cons_append, filedAlong, filedAlong, ih, List.append_assoc]
    rfl

/-- Along a tour of nodes whose lists can be gone through a tracker that preserves stores what is filed. -/
theorem Follows.bindings {T T' : Tracker} {ps : List Passage} {log : List Showing}
    (h : Follows T ps log T') (hf : T.frozen = false) (hp : T.preserves = true)
    (hiter : ∀ p ∈ ps, p.layout.Iterable ∧ p.layout.isNode = true) (path : ScopePath) :
    T'.bindings path = recordAll path (T.bindings path) (under path (filedAlong T.counters ps)) := by
  induction h with
  | nil => rfl
  | @cons T T' p ps e log h hh hrun hphase hnode hheap hskipped hrest ih =>
    obtain ⟨⟨hw, hn⟩, hiter⟩ := List.forall_mem_cons.1 hiter
    have hkeep := Call.keeps hp hrun
    have hcounters : e.tracker.counters = p.advance T.counters := by
      rw [Call.run_counters hrun, hh.opens]
      rfl
    have hone : e.tracker.bindings path =
        recordAll path (T.bindings path) (under path (p.files T.counters)) := by
      obtain ⟨_ | _, r, fields, skipped⟩ := p
      · rw [Tracker.applyAll_bindings hf (Tracker.enter_eq_ok hrun), Scope.filed_ofNode hh hw hn]
        rfl
      · rw [← Tracker.leave_eq_ok hrun]
        exact Tracker.bindings_congr (Tracker.scopes_popMany _ hp) path
    rw [ih (hkeep.frozen.trans hf) (hkeep.preserves.trans hp) hiter, hone, hcounters,
      filedAlong, Scope.under_append, Scope.recordAll_append]

namespace Forest

open ScopePath

/-- What is filed on the tour of a node, and of what is below it. -/
theorem filedAlong_node (counters : List Nat) (r : Ref) (fields : List (Key × Layout))
    (skipped : Bool) (below : Forest) :
    filedAlong counters (node r fields skipped below .nil).passages =
      Passage.files ⟨.enter, r, fields, skipped⟩ counters ++
        filedAlong (opened (Layout.record r fields).opens counters) below.passages := by
  rw [passages_node, filedAlong, filedAlong_append]
  show _ ++ (filedAlong (opened _ counters) _ ++ []) = _
  rw [List.append_nil]
  rfl

/-- Along the tour of a forest a tracker files what the nodes declare at their spots. -/
theorem filedAlong_passages (f : Forest) (parent? : Option Ref) (p : ScopePath) (k : Nat) :
    filedAlong (k :: p.reverse) f.passages = (f.spots parent? p k).flatMap Spot.declares := by
  induction f generalizing parent? p k with
  | nil => rfl
  | node r fields skipped below rest ihBelow ihRest =>
    generalize hn : (Layout.record r fields).opens = n
    have hpassages : (node r fields skipped below rest).passages =
        (node r fields skipped below .nil).passages ++ rest.passages := by simp [passages]
    have harrival := (tour_positions (node r fields skipped below .nil) p k).2
    have hfiles : Passage.files ⟨.enter, r, fields, skipped⟩ (k :: p.reverse) =
        Spot.declares ⟨r, fields, skipped, parent?, p, p ++ [k], (inside n p k).1⟩ := by
      have hadvance := Passage.advance_enter skipped hn p k
      simp [Passage.files, hadvance, pathOf, Spot.declares, Spot.layout, Passage.layout]
    rw [hpassages, filedAlong_append, filedAlong_node, harrival, ihRest parent?, hfiles, hn,
      opened_inside, ihBelow (some r), spots_node _ _ _ _ _ _ _ _ hn, List.flatMap_cons,
      List.flatMap_append, count, hn, List.append_assoc]
    rfl

/-- Along the tour of a node that opens a scope, from a tracker whose stack is empty on, the same holds
    with the spots that start from this node. -/
theorem filedAlong_root {r : Ref} {fields : List (Key × Layout)} (skipped : Bool) (below : Forest)
    (hn : 0 < (Layout.record r fields).opens) :
    filedAlong [] (node r fields skipped below .nil).passages =
      (node r fields skipped below .nil).rootSpots.flatMap Spot.declares := by
  obtain ⟨n, hn⟩ := Nat.exists_eq_succ_of_ne_zero (Nat.pos_iff_ne_zero.1 hn)
  have hfiles : Passage.files ⟨.enter, r, fields, skipped⟩ [] =
      Spot.declares ⟨r, fields, skipped, none, [], [], (inside n [] 0).1⟩ := by
    have hadvance := Passage.advance_root skipped hn
    simp [Passage.files, hadvance, pathOf, Spot.declares, Spot.layout, Passage.layout]
  rw [filedAlong_node, hfiles, hn, opened_root, filedAlong_passages _ (some r), rootSpots, hn,
    List.flatMap_cons]
  rfl

/-- The tracker is then where the spots are. -/
theorem stations_root {r : Ref} {fields : List (Key × Layout)} (skipped : Bool) (below : Forest)
    (hn : 0 < (Layout.record r fields).opens) :
    stations [] (node r fields skipped below .nil).passages =
      (node r fields skipped below .nil).rootSpots.map Spot.position := by
  obtain ⟨n, hn⟩ := Nat.exists_eq_succ_of_ne_zero (Nat.pos_iff_ne_zero.1 hn)
  have hposition : Passage.position? ⟨.enter, r, fields, skipped⟩
      ((inside n [] 0).2 :: (inside n [] 0).1.reverse) =
      some (Spot.position ⟨r, fields, skipped, none, [], [], (inside n [] 0).1⟩) := by
    simp [Passage.position?, Spot.position, Spot.layout, Passage.layout]
  rw [passages_node, stations, Passage.advance_root skipped hn, hposition, stations_append,
    (tour_positions below _ _).1, rootSpots, hn, List.map_cons]
  show _ :: (_ ++ []) = _
  rw [List.append_nil, ← map_position_spots below (some r)]
  rfl

end Forest

/-! ## The scopes that are declared in -/

namespace ScopePath

theorem mem_innermost_self {n : Nat} (hn : 0 < n) (p : ScopePath) : p ∈ innermost n p := by
  obtain ⟨n, rfl⟩ := Nat.exists_eq_succ_of_ne_zero (Nat.pos_iff_ne_zero.1 hn)
  exact List.mem_append_right _ (List.mem_singleton_self p)

end ScopePath

open ScopePath in
/-- All that is declared at a spot is declared in the scope that it lies in, or in those that it opens. -/
theorem Spot.filed_within {r : Ref} {fields : List (Key × Layout)} {skipped : Bool}
    {parent? : Option Ref} {p : ScopePath} {k : Nat} {b : Filing}
    (hb : b ∈ Spot.declares ⟨r, fields, skipped, parent?, p, p ++ [k],
      (inside (Layout.record r fields).opens p k).1⟩) :
    b.1 = p ∨ b.1 ∈ innermost (Layout.record r fields).opens
      (inside (Layout.record r fields).opens p k).1 := by
  rcases Layout.declares_path hb with h | ⟨h, hopens⟩ | ⟨h, hopens⟩
  · exact .inl h
  · right
    have htwo : (Layout.record r fields).opens = 2 := hopens
    rw [h, htwo, innermost_inside]
    exact List.mem_append_left _ (mem_innermost_self Nat.one_pos _)
  · right
    rw [h]
    exact mem_innermost_self hopens _

namespace Forest

open ScopePath

/-- All that is declared in a forest is declared in the scope that it lies in, or in one of those that
    are opened. -/
theorem filed_within {f : Forest} {parent? : Option Ref} {p : ScopePath} {k : Nat} {b : Filing}
    (hb : b ∈ (f.spots parent? p k).flatMap Spot.declares) :
    b.1 = p ∨ b.1 ∈ (f.spots parent? p k).flatMap Spot.opened := by
  induction f generalizing parent? p k with
  | nil => cases hb
  | node r fields skipped below rest ihBelow ihRest =>
    rw [spots_node _ _ _ _ _ _ _ _ rfl, List.flatMap_cons, List.flatMap_append, List.mem_append,
      List.mem_append] at hb ⊢
    rcases hb with hb | hb | hb
    · exact (Spot.filed_within hb).imp id .inl
    · rcases ihBelow hb with h | h
      · -- the scope that is current in the node is the one that it lies in, if it opens none
        rcases Nat.eq_zero_or_pos (Layout.record r fields).opens with hn | hn
        · left
          rw [h, hn]
          rfl
        · right
          left
          rw [h]
          exact mem_innermost_self hn _
      · exact .inr (.inr (.inl h))
    · exact (ihRest hb).imp id fun h => .inr (.inr h)

theorem rootSpots_program {r : Ref} {fields : List (Key × Layout)} (skipped : Bool)
    (below rest : Forest) (hn : (Layout.record r fields).opens = 1) :
    (node r fields skipped below rest).rootSpots =
      ⟨r, fields, skipped, none, [], [], []⟩ :: below.spots (some r) [] 0 := by
  rw [rootSpots, hn]
  rfl

/-- All that is declared in a program is declared in one of the scopes that are opened. -/
theorem filed_within_program {r : Ref} {fields : List (Key × Layout)} {skipped : Bool}
    {below rest : Forest} (hn : (Layout.record r fields).opens = 1) {b : Filing}
    (hb : b ∈ (node r fields skipped below rest).rootSpots.flatMap Spot.declares) :
    b.1 ∈ (node r fields skipped below rest).rootSpots.flatMap Spot.opened := by
  have hopened : Spot.opened ⟨r, fields, skipped, none, [], [], []⟩ = [[]] := by
    show innermost (Layout.record r fields).opens [] = _
    rw [hn]
    rfl
  rw [rootSpots_program _ _ _ hn, List.flatMap_cons, List.mem_append] at hb ⊢
  rw [hopened, List.mem_singleton]
  rcases hb with hb | hb
  · left
    rcases Layout.declares_path hb with h | h | h
    · exact h
    · exact h.1
    · exact h.1
  · exact filed_within hb

end Forest

/-! ## What lies below a node -/

namespace Forest

/-- The nodes of a forest that do not lie below another one. -/
def tops : Forest → List Layout
  | nil => []
  | node r fields _ _ rest => .record r fields :: rest.tops

theorem tops_append (f g : Forest) : (f ++ g).tops = f.tops ++ g.tops := by
  induction f with
  | nil => rfl
  | node r fields skipped below rest _ ih => rw [node_append, tops, ih, tops, List.cons_append]

/-- Below each node that is not skipped there are the nodes that its fields hold. -/
def Complete : Forest → Prop
  | nil => True
  | node _ fields skipped below rest =>
    (skipped = false → ∀ f ∈ fields, f.2.isNode = true → f.2 ∈ below.tops) ∧ below.Complete ∧
      rest.Complete

theorem Complete.append {f g : Forest} (hf : f.Complete) (hg : g.Complete) : (f ++ g).Complete := by
  induction f with
  | nil => exact hg
  | node r fields skipped below rest _ ih => exact ⟨hf.1, hf.2.1, ih hf.2.2⟩

/-- The nodes that do not lie below another one have spots in the scope of the forest. -/
theorem exists_spot {f : Forest} {u : Layout} (hu : u ∈ f.tops) (parent? : Option Ref)
    (p : ScopePath) (k : Nat) :
    ∃ b ∈ f.spots parent? p k, b.layout = u ∧ b.parent? = parent? ∧ b.outer = p := by
  induction f generalizing k with
  | nil => cases hu
  | node r fields skipped below rest _ ih =>
    rw [spots_node _ _ _ _ _ _ _ _ rfl]
    rcases List.mem_cons.1 hu with rfl | hu
    · exact ⟨_, List.mem_cons_self .., rfl, rfl, rfl⟩
    · obtain ⟨b, hb, h⟩ := ih hu (k + if (Layout.record r fields).opens = 0 then below.count else 1)
      exact ⟨b, List.mem_cons_of_mem _ (List.mem_append_right _ hb), h⟩

/-- A node that a field holds has its spot in the scope that is current in the node that holds it. -/
theorem exists_spot_below {f : Forest} (hf : f.Complete) {parent? : Option Ref} {p : ScopePath}
    {k : Nat} {a : Spot} (ha : a ∈ f.spots parent? p k) (hs : a.skipped = false)
    {g : Key × Layout} (hg : g ∈ a.fields) (hn : g.2.isNode = true) :
    ∃ b ∈ f.spots parent? p k, b.layout = g.2 ∧ b.parent? = some a.node ∧ b.outer = a.path := by
  induction f generalizing parent? p k with
  | nil => cases ha
  | node r fields skipped below rest ihBelow ihRest =>
    obtain ⟨hfields, hbelow, hrest⟩ := hf
    rw [spots_node _ _ _ _ _ _ _ _ rfl] at ha ⊢
    simp only [List.mem_cons, List.mem_append] at ha ⊢
    rcases ha with rfl | ha | ha
    · obtain ⟨b, hb, h⟩ := exists_spot (hfields hs g hg hn) (some r)
        (ScopePath.inside (Layout.record r fields).opens p k).1
        (ScopePath.inside (Layout.record r fields).opens p k).2
      exact ⟨b, .inr (.inl hb), h⟩
    · obtain ⟨b, hb, h⟩ := ihBelow hbelow ha
      exact ⟨b, .inr (.inl hb), h⟩
    · obtain ⟨b, hb, h⟩ := ihRest hrest ha
      exact ⟨b, .inr (.inr hb), h⟩

end Forest

namespace Layout

variable (skips : Visit → Bool) (root : Datum)

/-- The nodes that the fields of a record hold are reached from it. -/
theorem mem_tops_routeOfFields (parent : Ref) {fields : List (Key × Layout)} {f : Key × Layout}
    (hf : f ∈ fields) (hn : f.2.isNode = true) :
    f.2 ∈ ((routeOfFields parent fields).forest skips root).tops := by
  induction fields with
  | nil => cases hf
  | cons g rest ih =>
    obtain ⟨key, u⟩ := g
    rw [routeOfFields_cons, Route.forest_append, Forest.tops_append, List.mem_append]
    rcases List.mem_cons.1 hf with rfl | hf
    · left
      cases u with
      | record r fs =>
        rw [routeOfField, route_node hn]
        · exact List.mem_singleton_self _
        · simp
      | _ => cases hn
    · exact .inr (ih hf)

theorem route_complete (t : Layout) (slot : Heap.Slot) :
    ((t.route slot).forest skips root).Complete := by
  refine (routes_of_parts (t := t) (P := fun _ f => (f.forest skips root).Complete) (fun _ => trivial)
    (fun _ f g hf hg => ?_) (fun r fields slot _ _ hbelow => ?_) (mem_parts_self t)).1 slot
  · rw [Route.forest_append]
    exact hf.append hg
  · rw [Route.forest]
    refine ⟨fun hskips f hf hn => ?_, ?_, trivial⟩
    · rw [if_neg (by simp [hskips])]
      exact mem_tops_routeOfFields skips root r hf hn
    · split
      · trivial
      · exact hbelow

end Layout

/-! ## The contents of a tree -/

namespace Layout

/-- The spots of all nodes that are visited in a walk of a tree, if they are skipped as `skips` tells. -/
def spots (t : Layout) (skips : Visit → Bool) : List Spot :=
  ((t.route .root).forest skips t.datum).rootSpots

/-- All that the nodes of a tree declare, in the order in which they are visited. -/
def filings (t : Layout) (skips : Visit → Bool) : List Filing := (t.spots skips).flatMap Spot.declares

/-- A walk of a tree visits its root and what is below it. -/
theorem forest_root {t : Layout} (hn : t.isNode = true) (skips : Visit → Bool) :
    ∃ r fields skipped below, t = record r fields ∧ below.Complete ∧
      (t.route .root).forest skips t.datum = .node r fields skipped below .nil := by
  cases t with
  | record r fields =>
    have hcomplete := route_complete skips (record r fields).datum (record r fields) .root
    rw [route_node hn] at hcomplete ⊢
    exact ⟨r, fields, _, _, rfl, hcomplete.2.1, rfl⟩
  | _ => cases hn

/-- The spots of a program: its own, and those below it, which lie in its scope. -/
theorem spots_program {t : Layout} (ht : t.type? = some "Program") (skips : Visit → Bool) :
    ∃ r fields skipped below, t = record r fields ∧ (record r fields).opens = 1 ∧ below.Complete ∧
      (t.route .root).forest skips t.datum = .node r fields skipped below .nil ∧
      t.spots skips = ⟨r, fields, skipped, none, [], [], []⟩ :: below.spots (some r) [] 0 := by
  have hn : t.isNode = true := by
    rw [isNode, ht]
    rfl
  obtain ⟨r, fields, skipped, below, rfl, hbelow, hforest⟩ := forest_root hn skips
  have hopens : (record r fields).opens = 1 := by
    rw [opens, ht]
    decide
  refine ⟨r, fields, skipped, below, rfl, hopens, hbelow, hforest, ?_⟩
  rw [spots, hforest, Forest.rootSpots_program _ _ _ hopens]

/-- A declaration in the head of a loop that is not skipped is visited too, and declares the same as the
    loop in the same scope. -/
theorem exists_spot_head {t : Layout} (ht : t.type? = some "Program") {skips : Visit → Bool}
    {a : Spot} (ha : a ∈ t.spots skips) (hs : a.skipped = false) {u : Layout}
    (hu : a.layout.head? = some u) :
    ∃ b ∈ t.spots skips, b.layout = u ∧ b.parent? = some a.node ∧ b.declares = a.declares := by
  obtain ⟨r, fields, skipped, below, rfl, -, hbelow, -, hspots⟩ := spots_program ht skips
  rw [hspots] at ha ⊢
  rcases List.mem_cons.1 ha with rfl | ha
  · -- a program is no loop
    have hrole : Role.ofType "Program" = .block := by decide
    simp [Spot.layout, head?, ht, hrole] at hu
  · obtain ⟨g, hg, hgu, hn⟩ := exists_field_of_head hu
    obtain ⟨b, hb, hlayout, hparent, houter⟩ := Forest.exists_spot_below hbelow ha hs hg hn
    refine ⟨b, List.mem_cons_of_mem _ hb, hlayout.trans hgu, hparent, ?_⟩
    rw [Spot.declares, Spot.declares, hlayout, hgu, houter]
    exact (declares_head hu _ _ _ _ _).symm

end Layout

/-- A tracker whose stack is empty follows a walk of a tree whose root opens a scope. It is at each node in
    the spot that the tree tells. -/
theorem walk_spots {w : Walker σ} {t : Layout} (hw : w.Observes t) (htracked : w.tracked = true)
    (hkeys : ∀ e ∈ t.cells, e.2.KeysOnce) (hn : t.isNode = true) (hopens : 0 < t.opens)
    {s s' : World σ} {d : Datum} (hs : s.heap.Holds t) (hempty : s.tracker.counters = []) {steps : Nat}
    (hsteps : t.steps ≤ steps) (hrun : w.walk steps t.datum s = .ok d s') {skips : Visit → Bool}
    (hskips : SkipsAs skips (w.log steps t.datum s)) :
    positionsOf (w.log steps t.datum s) = (t.spots skips).map Spot.position := by
  obtain ⟨-, -, -, hlog⟩ := walk_log hw htracked hkeys hn hs hsteps hrun
  obtain ⟨-, hfollows⟩ := hlog skips hskips
  obtain ⟨r, fields, skipped, below, rfl, -, hforest⟩ := Layout.forest_root hn skips
  rw [hfollows.stations, hempty, hforest, Forest.stations_root _ _ hopens, ← hforest]
  rfl

/-- If the tracker preserves what it meets and has met nothing before, it has stored in the end what the
    nodes of the tree declare. -/
theorem walk_bindings {w : Walker σ} {t : Layout} (hw : w.Observes t) (htracked : w.tracked = true)
    (hkeys : ∀ e ∈ t.cells, e.2.KeysOnce) (hn : t.isNode = true) (hopens : 0 < t.opens)
    (hiter : t.Iterable) {s s' : World σ} {d : Datum} (hs : s.heap.Holds t)
    (hfresh : s.tracker = .fresh true) {steps : Nat} (hsteps : t.steps ≤ steps)
    (hrun : w.walk steps t.datum s = .ok d s') {skips : Visit → Bool}
    (hskips : SkipsAs skips (w.log steps t.datum s)) (path : ScopePath) :
    s'.tracker.bindings path = recordAll path [] (under path (t.filings skips)) := by
  obtain ⟨-, -, -, hlog⟩ := walk_log hw htracked hkeys hn hs hsteps hrun
  obtain ⟨-, hfollows⟩ := hlog skips hskips
  have hpassages := (t.route_within .root).passages skips t.datum
  have hstored := hfollows.bindings (by rw [hfresh]; rfl) (by rw [hfresh]; rfl)
    (fun p hp => ⟨hiter.of_part (hpassages p hp).1, (hpassages p hp).2⟩) path
  obtain ⟨r, fields, skipped, below, rfl, -, hforest⟩ := Layout.forest_root hn skips
  have hcounters : s.tracker.counters = [] := by rw [hfresh]; rfl
  have hnothing : s.tracker.bindings path = [] := by rw [hfresh]; rfl
  rw [hstored, hcounters, hnothing, hforest, Forest.filedAlong_root _ _ hopens, ← hforest]
  rfl

/-- A walk that observes a program comes to an end if its callbacks answer. Then each scope holds just what
    the program declares in it, the last declaration of a name in the place of the first one, and can be
    asked for by its key; where no scope was opened, nothing is stored. The scopes are those of the nodes
    that were visited. Each name that is declared in a scope has one record there, also if the head of a
    loop declares it, which is done both for the loop and for the declaration in its head. -/
theorem walk_contents {w : Walker σ} {t : Layout} (hw : w.Observes t) (htracked : w.tracked = true)
    (ht : t.type? = some "Program") (hkeys : ∀ e ∈ t.cells, e.2.KeysOnce) (hshaped : t.WellShaped)
    {s : World σ} (hs : s.heap.Holds t) (hfresh : s.tracker = .fresh true) {steps : Nat}
    (hsteps : t.steps ≤ steps) :
    (w.Answers t → ∃ s', w.walk steps t.datum s = .ok t.datum s') ∧
      ∀ d s', w.walk steps t.datum s = .ok d s' →
        ∀ skips, SkipsAs skips (w.log steps t.datum s) →
          (∀ path, s'.tracker.bindings path = recordAll path [] (under path (t.filings skips))) ∧
          (∀ path key, ScopePath.hyphenated (path.map fun n : Nat => (n : Int)) = .ok key →
            s'.tracker.bindingsOfKey key = .ok (s'.tracker.bindings path)) ∧
          positionsOf (w.log steps t.datum s) = (t.spots skips).map Spot.position ∧
          (∀ path, path ∉ (t.spots skips).flatMap Spot.opened → s'.tracker.bindings path = []) ∧
          (∀ f ∈ t.filings skips,
            ((s'.tracker.bindings f.1).filter fun b => b.1 = f.2.name).length = 1) ∧
          ∀ a ∈ t.spots skips, a.skipped = false → ∀ u, a.layout.head? = some u →
            ∃ b ∈ t.spots skips, b.layout = u ∧ b.parent? = some a.node ∧
              b.declares = a.declares := by
  have hn := Layout.isNode_of_type ht
  constructor
  · intro ha
    obtain ⟨s', hrun, -⟩ := walk_returns hw ha hshaped.iterable hkeys hn hs hsteps
    exact ⟨s', hrun⟩
  intro d s' hrun skips hskips
  obtain ⟨r, fields, skipped, below, rfl, hopens, -, hforest, hspots⟩ := Layout.spots_program ht skips
  have hstored := walk_bindings hw htracked hkeys hn (by omega) hshaped.iterable hs hfresh hsteps hrun hskips
  refine ⟨hstored, fun path key hkey => ?_, ?_, fun path hpath => ?_, fun f hf => ?_,
    fun a ha hs u hu => Layout.exists_spot_head ht ha hs hu⟩
  · rw [Tracker.bindingsOfKey, ScopePath.ofKey_of_hyphenated hkey]
    rfl
  · exact walk_spots hw htracked hkeys hn (by omega) hs (by rw [hfresh]; rfl) hsteps hrun hskips
  · have hnone : under path ((Layout.record r fields).filings skips) = [] := by
      rw [under, List.map_eq_nil_iff, List.filter_eq_nil_iff]
      intro f hf hmatch
      have hwithin := hf
      rw [Layout.filings, Layout.spots, hforest] at hwithin
      have hfiled := Forest.filed_within_program hopens hwithin
      rw [of_decide_eq_true hmatch] at hfiled
      exact hpath (by rwa [Layout.spots, hforest])
    rw [hstored, hnone]
    rfl
  · rw [hstored]
    refine Scope.one_record (List.mem_map.2 ⟨f, List.mem_filter.2 ⟨hf, ?_⟩, rfl⟩)
    exact decide_eq_true rfl

namespace Sample

/-- A function expression `g` with a parameter `a`, and in its body a loop that declares `i` in its head. -/
def looped : Layout :=
  .record 0 [(.text "type", .scalar (.text "Program")),
    (.text "body", .list 1 [
      .record 2 [(.text "type", .scalar (.text "FunctionExpression")),
        (.text "id", .record 3 [(.text "type", .scalar (.text "Identifier")),
          (.text "name", .scalar (.text "g"))]),
        (.text "params", .list 4 [.record 5 [(.text "type", .scalar (.text "Identifier")),
          (.text "name", .scalar (.text "a"))]]),
        (.text "body", .record 6 [(.text "type", .scalar (.text "ForStatement")),
          (.text "init", .record 7 [(.text "type", .scalar (.text "VariableDeclaration")),
            (.text "declarations", .list 8 [
              .record 9 [(.text "type", .scalar (.text "VariableDeclarator")),
                (.text "id", .record 10 [(.text "type", .scalar (.text "Identifier")),
                  (.text "name", .scalar (.text "i"))])]])])])]])]

def loopedWorld : World Unit where
  heap := ⟨(looped.cells.map Prod.snd).toArray⟩
  tracker := .fresh true
  warnings := []
  user := ()

/-- Of the two records of `i` one is left. -/
theorem walk_contents_looped :
    ∃ s', follower.walk 40 (.ref 0) loopedWorld = .ok (.ref 0) s' ∧
      s'.tracker.bindings [] = [] ∧
      s'.tracker.bindings [0] = ([("g", ⟨.function, 2, "0", none⟩)] : Scope.Bindings) ∧
      s'.tracker.bindings [0, 0] = ([("a", ⟨.param, 5, "0-0", some 2⟩)] : Scope.Bindings) ∧
      s'.tracker.bindingsOfKey "0-0-0" = .ok [("i", ⟨.var, 10, "0-0-0", some 7⟩)] ∧
      s'.tracker.bindings [0, 0, 0, 0] = [] := by
  have hw := follower_observes looped
  have hkeys : ∀ e ∈ looped.cells, e.2.KeysOnce := by decide
  have hn : looped.isNode = true := by decide
  have hs : loopedWorld.heap.Holds looped := by decide
  have hsteps : looped.steps ≤ 40 := by decide
  obtain ⟨hends, hcontents⟩ := walk_contents hw rfl (by decide) hkeys (by decide) hs rfl hsteps
  obtain ⟨s', hrun⟩ := hends (follower_answers looped)
  obtain ⟨-, -, hgives, -⟩ := walk_log hw rfl hkeys hn hs hsteps hrun
  obtain ⟨hstored, hkey, -, hnone, -⟩ := hcontents _ s' hrun _ (skipsAs_of_gives rfl hgives)
  refine ⟨s', hrun, ?_, ?_, ?_, ?_, hnone _ (by decide)⟩
  · rw [hstored]
    decide
  · rw [hstored]
    decide
  · rw [hstored]
    decide
  · rw [hkey [0, 0, 0] "0-0-0" (by decide), hstored]
    decide

end Sample

end Arbor
