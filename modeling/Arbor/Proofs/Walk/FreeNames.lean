import Arbor.Proofs.Scope.Binding
import Arbor.Proofs.Value.Grouping
import Arbor.Proofs.Walk.Contents
import Arbor.Walk.Undeclared

set_option autoImplicit false

/-! # The names that a function uses and does not declare

The names that are reported for a function are told by its tree: those of the identifiers that introduce no
name and for which nothing is declared, anywhere in the function, in the scopes around them
(`undeclaredNames_eq_uses`). Every other identifier for which nothing is declared lies in a field of its
parent in which names stand (`undeclaredNames_reads`), also where it is read there: `b` is not reported for
`a[b]`. -/

namespace Arbor

open Actions

open Scope (Call Tracker Filing reportUse gathering reporting reportNames undeclaredNames)

variable {h : Heap} {t : Layout}

/-! ## Enough steps -/

namespace Layout

theorem stepsOf_perm {l l' : List (Ref × Cell)} (hperm : l.Perm l') : stepsOf l = stepsOf l' := by
  induction hperm with
  | nil => rfl
  | cons e _ ih => rw [stepsOf, stepsOf, ih]
  | swap e e' l => rw [stepsOf, stepsOf, stepsOf, stepsOf, Nat.add_left_comm]
  | trans _ _ ih ih' => exact ih.trans ih'

/-- The steps that are counted for all cells of a heap, by their references. -/
theorem foldl_steps (cells : List Cell) (n i : Nat) :
    cells.foldl (fun n c => n + c.steps) n = n + stepsOf ((cells.zipIdx i).map Prod.swap) := by
  induction cells generalizing n i with
  | nil => rfl
  | cons c cells ih =>
    rw [List.foldl_cons, ih (n + c.steps) (i + 1), List.zipIdx_cons, List.map_cons, stepsOf,
      Nat.add_assoc]
    rfl

/-- No cell of a tree without sharing is counted twice, so that the steps for the whole heap are enough
    for it. -/
theorem steps_le_walkSteps (hrefs : t.refs.Nodup) (ht : h.Holds t) : t.steps ≤ h.walkSteps := by
  have hwalk : h.walkSteps = h.cells.toList.foldl (fun n c => n + c.steps) 2 := by
    rw [Array.foldl_toList]
    rfl
  have hnodup : t.cells.Nodup := .of_map Prod.fst hrefs
  have hsub : t.cells ⊆ (h.cells.toList.zipIdx).map Prod.swap := by
    intro e he
    refine List.mem_map.2 ⟨(e.2, e.1), List.mem_zipIdx_iff_getElem?.2 ?_, rfl⟩
    have hcell : h.cells[e.1]? = some e.2 := ht e he
    rw [← hcell, Array.getElem?_toList]
  obtain ⟨l, hperm, hsublist⟩ := hnodup.subperm hsub
  have hle := stepsOf_sublist hsublist
  rw [stepsOf_perm hperm] at hle
  rw [hwalk, foldl_steps _ 2 0, steps]
  omega

end Layout

/-! ## Walks without callbacks -/

/-- Without callbacks nothing changes but the tracker. -/
theorem Route.run_silent {σ : Type} {w : Walker σ} (hw : ∀ phase, w.callback? phase = none)
    (root : Datum) {f : Route} {s s' : World σ} (hrun : f.run w root s = .ok () s') :
    s'.heap = s.heap ∧ s'.user = s.user := by
  have idle {phase : Phase} {v : Visit} {q : Request} {s s' : World σ}
      (hcall : w.call phase v s = .ok q s') : q = .empty ∧ s = s' := by
    rw [Walker.call, hw] at hcall
    obtain ⟨hq, hs⟩ := pure_eq_ok.1 hcall
    exact ⟨hq.symm, hs⟩
  induction f generalizing s s' with
  | nil =>
    obtain ⟨-, rfl⟩ := pure_eq_ok.1 hrun
    exact ⟨rfl, rfl⟩
  | node r fields slot below rest ihBelow ihRest =>
    obtain ⟨s₁, q, s₂, s₃, s₄, q', s₅, ⟨henter, hcall⟩, hbelow, ⟨hleave, hcall'⟩, hrest⟩ :=
      Route.run_node_eq_ok hrun
    obtain ⟨rfl, rfl⟩ := idle hcall
    obtain ⟨-, rfl⟩ := idle hcall'
    obtain ⟨hheap, huser⟩ := ihRest hrest
    obtain ⟨hheap', huser'⟩ := ihBelow hbelow
    obtain ⟨h₁, u₁⟩ := Walker.follow_eq_ok henter
    obtain ⟨h₂, u₂⟩ := Walker.follow_eq_ok hleave
    exact ⟨hheap.trans (h₂.trans (hheap'.trans h₁)), huser.trans (u₂.trans (huser'.trans u₁))⟩

/-! ## Uses of names -/

namespace Spot

/-- The name of an identifier, if it is a text. -/
def identifier? (a : Spot) : Option Text :=
  if a.layout.type? = some ("Identifier" : Text) then
    match a.layout.field "name" with
    | .scalar (.text name) => some name
    | _ => none
  else none

theorem identifier?_eq_some {a : Spot} {name : Text} :
    a.identifier? = some name ↔
      a.layout.type? = some ("Identifier" : Text) ∧ a.layout.field "name" = .scalar (.text name) := by
  rw [identifier?]
  split
  · next htype =>
    rw [and_iff_right htype]
    split
    · next hname => simp [hname]
    · next hname => exact ⟨fun h => (by cases h), fun h => absurd h (hname name)⟩
  · next htype => exact ⟨fun h => (by cases h), fun h => absurd h.1 htype⟩

/-- The node that a node is reached from, null if it is none. -/
def parent (a : Spot) : Datum := (a.parent?.map Datum.ref).getD .null

/-- Whether a name is declared for a node: in the scope that is current in it, or in one around it. -/
def Sees (a : Spot) (filings : List Filing) (name : Text) : Prop :=
  ∃ f ∈ filings, f.1 <+: a.path ∧ f.2.name = name

instance (a : Spot) (filings : List Filing) (name : Text) : Decidable (a.Sees filings name) :=
  inferInstanceAs (Decidable (∃ f ∈ filings, f.1 <+: a.path ∧ f.2.name = name))

/-- The name that an identifier uses, if it is one that it does not introduce and that is not declared
    for it. -/
def uses (a : Spot) (h : Heap) (filings : List Filing) : List Text :=
  (a.identifier?.filter fun name =>
    Scope.isBindingIdentifier h (.ref a.node) a.parent = .ok false ∧ ¬ a.Sees filings name).toList

theorem mem_uses {a : Spot} {filings : List Filing} {name : Text} :
    name ∈ a.uses h filings ↔ a.identifier? = some name ∧
      Scope.isBindingIdentifier h (.ref a.node) a.parent = .ok false ∧ ¬ a.Sees filings name := by
  rw [uses, Option.mem_toList, Option.filter_eq_some_iff, decide_eq_true_iff]

theorem not_sees {a : Spot} {filings : List Filing} {name : Text} :
    ¬ a.Sees filings name ↔ ∀ f ∈ filings, f.1 <+: a.path → f.2.name ≠ name := by
  simp only [Sees, not_exists, not_and, ne_eq]

end Spot

/-- All spots of a route lie in the tree that the route lies in, as do the nodes they are reached from. -/
theorem Route.Within.spots {parent? : Option Ref} {f : Route} (hf : f.Within t parent?)
    (hparent : ∀ q, parent? = some q → ∃ fs, Layout.record q fs ∈ t.parts) (skips : Visit → Bool)
    (root : Datum) (p : ScopePath) (k : Nat) :
    ∀ a ∈ (f.forest skips root).spots parent? p k, a.layout ∈ t.parts ∧
      ∀ q, a.parent? = some q → ∃ fs, Layout.record q fs ∈ t.parts := by
  induction f generalizing parent? p k with
  | nil => exact fun _ ha => absurd ha List.not_mem_nil
  | node r fields slot below rest ihBelow ihRest =>
    obtain ⟨⟨hpart, -, -⟩, hbelow, hrest⟩ := hf
    intro a ha
    rw [Route.forest, Forest.spots_node _ _ _ _ _ _ _ _ rfl, List.mem_cons, List.mem_append] at ha
    rcases ha with rfl | ha | ha
    · exact ⟨hpart, hparent⟩
    · split at ha
      · cases ha
      · exact ihBelow hbelow (fun q hq => by cases hq; exact ⟨fields, hpart⟩) _ _ a ha
    · exact ihRest hrest hparent _ _ a ha

theorem Layout.spots_within (hn : t.isNode = true) (skips : Visit → Bool) :
    ∀ a ∈ t.spots skips, a.layout ∈ t.parts ∧
      ∀ q, a.parent? = some q → ∃ fs, Layout.record q fs ∈ t.parts := by
  have hwithin := t.route_within .root
  cases t with
  | record r fields =>
    intro a ha
    rw [Layout.route_node hn] at hwithin
    rw [Layout.spots, Layout.route_node hn, Route.forest, Forest.rootSpots, List.mem_cons] at ha
    rcases ha with rfl | ha
    · exact ⟨hwithin.1.1, fun q hq => by cases hq⟩
    · split at ha
      · cases ha
      · exact hwithin.2.1.spots (fun q hq => by cases hq; exact ⟨fields, hwithin.1.1⟩) skips _ _ _ a ha
  | _ => cases hn

/-- Of all that is visited nothing is skipped. -/
def skipNone : Visit → Bool := fun _ => false

/-- The names that the identifiers of a tree use, in the order in which they are visited. -/
def Layout.uses (t : Layout) (h : Heap) : List Text :=
  (t.spots skipNone).flatMap fun a => a.uses h (t.filings skipNone)

/-! ## Reporting -/

/-- The state of a walk that reports, with the counters of its tracker, which knows the declarations of the
    tree, and with the names that have been used so far. -/
structure Reported (h : Heap) (filings : List Filing) (counters : List Nat) (uses : List Text)
    (s : World (List Text)) : Prop where
  heap : s.heap = h
  frozen : s.tracker.frozen = true
  preserves : s.tracker.preserves = true
  counters : s.tracker.counters = counters
  declared : ∀ path name, s.tracker.Has path name ↔ ∃ f ∈ filings, f.1 = path ∧ f.2.name = name
  user : s.user = uses.eraseDups

section

variable {filings : List Filing} {counters : List Nat} {uses : List Text} {s : World (List Text)}
  {r : Ref} {fields : List (Key × Layout)}

theorem Reported.sees (hs : Reported h filings counters uses s) {a : Spot}
    (hpath : a.path = s.tracker.path) (name : Text) :
    s.tracker.isDeclared name = true ↔ a.Sees filings name := by
  rw [Tracker.isDeclared_iff, Spot.Sees, hpath]
  constructor
  · rintro ⟨q, hq, hhas⟩
    obtain ⟨f, hf, rfl, hname⟩ := (hs.declared q name).1 hhas
    exact ⟨f, hf, hq, hname⟩
  · rintro ⟨f, hf, hq, hname⟩
    exact ⟨f.1, hq, (hs.declared f.1 name).2 ⟨f, hf, rfl, hname⟩⟩

/-- What is done at an identifier. -/
theorem reportUse_identifier {v : Visit} {name : Text} {b : Bool}
    (htype : s.heap.field v.node "type" = .scalar (.text "Identifier"))
    (hname : s.heap.field v.node "name" = .scalar (.text name))
    (hb : Scope.isBindingIdentifier s.heap (.ref v.node)
      ((v.slot.parent?.map Datum.ref).getD .null) = .ok b) :
    reportUse v s = .ok .empty (if !b && !s.tracker.isDeclared name && !s.user.contains name then
      { s with user := s.user ++ [name] } else s) := by
  rw [reportUse, get_bind]
  simp only [htype, hname, hb, bind, EStateM.bind, if_true]
  cases b <;> cases s.tracker.isDeclared name <;> cases s.user.contains name <;> rfl

/-- At other nodes nothing is done, nor at an identifier whose name is no text. -/
theorem reportUse_other {v : Visit}
    (h : s.heap.field v.node "type" ≠ .scalar (.text "Identifier") ∨
      ∀ name, s.heap.field v.node "name" ≠ .scalar (.text name)) :
    reportUse v s = .ok .empty s := by
  rw [reportUse, get_bind]
  simp only [bind]
  generalize s.heap.field v.node "type" = type at h ⊢
  generalize s.heap.field v.node "name" = name at h ⊢
  rcases type with (_ | _ | _ | _ | type) | _
  case scalar.text =>
    rcases name with (_ | _ | _ | _ | name) | _
    case scalar.text =>
      have htype : type ≠ "Identifier" := by
        rintro rfl
        exact h.elim (fun h => h rfl) fun h => h name rfl
      simp only [if_neg htype]
      rfl
    all_goals rfl
  all_goals rfl

/-- The name of an identifier is told by the heap. -/
theorem identifier?_of_holds {a : Spot} (ht : h.Holds a.layout) (name : Text) :
    a.identifier? = some name ↔ h.field a.node "type" = .scalar (.text "Identifier") ∧
      h.field a.node "name" = .scalar (.text name) := by
  have hscalar {u : Layout} {c : Scalar} : u.datum = .scalar c ↔ u = .scalar c := by
    cases u <;> simp [Layout.datum]
  have htype : h.nodeType? (.ref a.node) = a.layout.type? := ht.nodeType?
  rw [Spot.identifier?_eq_some, ← htype, ht.field_eq "name", hscalar, Scope.nodeType?_eq_some]
  exact Iff.rfl

/-- A name that has been used is noted, if it has not been before. -/
theorem Reported.note (hs : Reported h filings counters uses s) (name : Text) :
    Reported h filings counters (uses ++ [name])
      (if s.user.contains name then s else { s with user := s.user ++ [name] }) := by
  have hseen : s.user.contains name = true ↔ name ∈ uses := by
    rw [List.contains_iff_mem, hs.user, List.mem_eraseDups]
  have hnoted := eraseDups_concat uses name
  split
  · next hmem =>
    rw [if_pos (hseen.1 hmem), ← hs.user] at hnoted
    exact { hs with user := hnoted.symm }
  · next hmem =>
    rw [if_neg fun h => hmem (hseen.2 h), ← hs.user] at hnoted
    exact ⟨hs.heap, hs.frozen, hs.preserves, hs.counters, hs.declared, hnoted.symm⟩

/-- Where a node is entered the name that it uses is reported, if it has not been before. -/
theorem Reported.report (hs : Reported h filings counters uses s) {a : Spot} (ht : h.Holds a.layout)
    (hpath : a.path = Scope.pathOf counters) {slot : Heap.Slot} (hparent : a.parent? = slot.parent?)
    {b : Bool} (htold : Scope.isBindingIdentifier h (.ref a.node) a.parent = .ok b) (root : Datum) :
    ∃ s', reportUse ⟨a.node, slot, root⟩ s = .ok .empty s' ∧
      Reported h filings counters (uses ++ a.uses h filings) s' := by
  have hheap := hs.heap
  have hcurrent : a.path = s.tracker.path := by
    rw [hpath, ← hs.counters]
    rfl
  cases hid : a.identifier? with
  | none =>
    refine ⟨s, reportUse_other (Classical.or_iff_not_imp_left.2 fun htype name hname => ?_), ?_⟩
    · rw [hheap] at htype hname
      have hsome := (identifier?_of_holds ht name).2 ⟨of_not_not htype, hname⟩
      rw [hid] at hsome
      cases hsome
    · rw [Spot.uses, hid]
      simpa using hs
  | some name =>
    obtain ⟨htype, hname⟩ := (identifier?_of_holds ht name).1 hid
    rw [← hheap] at htype hname htold
    rw [Spot.parent, hparent] at htold
    refine ⟨_, reportUse_identifier htype hname htold, ?_⟩
    have huses : a.uses h filings = if b = false ∧ ¬ a.Sees filings name then [name] else [] := by
      rw [Spot.uses, hid, Option.filter_some, ← hheap, Spot.parent, hparent, htold]
      by_cases hused : b = false ∧ ¬ a.Sees filings name <;> simp [hused]
    have hsees := hs.sees hcurrent name
    rw [huses]
    by_cases hused : b = false ∧ ¬ a.Sees filings name
    · have hdeclared : s.tracker.isDeclared name = false := by
        rw [Bool.eq_false_iff, ne_eq, hsees]
        exact hused.2
      rw [if_pos hused, hused.1, hdeclared]
      have hnoted := hs.note name
      cases hc : s.user.contains name <;> rw [hc] at hnoted <;> exact hnoted
    · rw [if_neg hused, if_neg fun hreported => hused ?_]
      · simpa using hs
      · simp only [Bool.and_eq_true, Bool.not_eq_true'] at hreported
        rw [← hsees, hreported.1.2]
        exact ⟨hreported.1.1, by simp⟩

/-- A tracker that is frozen follows a walk past a node with its counters alone. -/
theorem Reported.follow (hiter : t.Iterable) (ht : h.Holds t)
    (hs : Reported h filings counters uses s) (hpart : Layout.record r fields ∈ t.parts)
    (hn : (Layout.record r fields).isNode = true) (phase : Phase) :
    ∃ s', reporting.follow phase r s = .ok () s' ∧
      Reported h filings (Passage.advance ⟨phase, r, fields, false⟩ counters) uses s' := by
  obtain ⟨T', hrun⟩ := ht.call_run hiter hpart hn phase s.tracker
  have hkeep := Call.keeps hs.preserves hrun
  rw [Walker.follow_tracked (w := reporting) rfl]
  refine ⟨{ s with tracker := T' }, WalkM.track_eq_ok.2 ⟨T', ?_, rfl⟩, ?_⟩
  · rw [hs.heap]
    exact hrun
  · refine ⟨hs.heap, hkeep.frozen.trans hs.frozen, hkeep.preserves.trans hs.preserves, ?_, ?_, hs.user⟩
    · rw [Call.run_counters hrun, hs.counters, (ht.of_part hpart).opens]
      rfl
    · intro path name
      rw [← hs.declared, Tracker.Has, Tracker.Has, Tracker.bindings_congr (hkeep.scopes hs.frozen)]

end

/-- Whether a node is an identifier that introduces a name is told for every node of a tree whose lists can
    be gone through, and the node that it hangs from. -/
theorem Scope.told_parent (hiter : t.Iterable) (ht : h.Holds t) {r : Ref}
    {fields : List (Key × Layout)} (hpart : Layout.record r fields ∈ t.parts) {parent? : Option Ref}
    (hparent : ∀ p, parent? = some p → ∃ fs, Layout.record p fs ∈ t.parts) :
    ∃ b, isBindingIdentifier h (.ref r) ((parent?.map Datum.ref).getD .null) = .ok b := by
  cases parent? with
  | none => exact ⟨false, rfl⟩
  | some p =>
    obtain ⟨fs, hp⟩ := hparent p rfl
    obtain ⟨b, hb, -⟩ :=
      told_isBindingIdentifier (ht.of_part hp) (hiter.of_part hp) (ht.of_part hpart)
    exact ⟨b, hb⟩

/-- At a node its name is reported if it is used, and then the names that are used below it. -/
theorem Route.run_reporting_node (hiter : t.Iterable) (ht : h.Holds t) {filings : List Filing}
    (root : Datum) {a : Spot} (hpart : a.layout ∈ t.parts) (hn : a.layout.isNode = true)
    (hparent : ∀ p, a.parent? = some p → ∃ fs, Layout.record p fs ∈ t.parts)
    (slot : Heap.Slot) (hslot : slot.parent? = a.parent?) {below : Route} {m m' : Nat}
    {counters : List Nat} {uses uses' : List Text} {s : World (List Text)}
    (hs : Reported h filings counters uses s)
    (henter : Passage.advance ⟨.enter, a.node, a.fields, false⟩ counters = m :: a.path.reverse)
    (hbelow : ∀ uses s, Reported h filings (m :: a.path.reverse) uses s →
      ∃ s', below.run reporting root s = .ok () s' ∧
        Reported h filings (m' :: a.path.reverse) (uses ++ uses') s') (rest : Route) :
    ∃ s', (node a.node a.fields slot below rest).run reporting root s =
        rest.run reporting root s' ∧
      Reported h filings (Passage.advance ⟨.leave, a.node, a.fields, false⟩ (m' :: a.path.reverse))
        (uses ++ a.uses h filings ++ uses') s' := by
  obtain ⟨s₁, hfollow, hs₁⟩ := hs.follow hiter ht hpart hn .enter
  rw [henter] at hs₁
  obtain ⟨b, hb⟩ := Scope.told_parent hiter ht hpart hparent
  obtain ⟨s₂, hcall, hs₂⟩ :=
    hs₁.report (ht.of_part hpart) (by simp [Scope.pathOf]) hslot.symm hb root
  obtain ⟨s₃, hinner, hs₃⟩ := hbelow _ s₂ hs₂
  obtain ⟨s₄, hleave, hs₄⟩ := hs₃.follow hiter ht hpart hn .leave
  refine ⟨s₄, ?_, hs₄⟩
  have hentered : reporting.call .enter ⟨a.node, slot, root⟩ s₁ = .ok .empty s₂ := hcall
  have hleft : reporting.call .leave ⟨a.node, slot, root⟩ s₄ = .ok .empty s₄ := rfl
  rw [Route.run, bind_of_eq_ok hfollow, bind_of_eq_ok hentered, Request.unlessSkipped,
    if_neg (by simp [Request.empty]), bind_of_eq_ok hinner, bind_of_eq_ok hleave, bind_of_eq_ok hleft]

open ScopePath in
/-- Along a route the names are reported that are used on it. -/
theorem Route.run_reporting (hiter : t.Iterable) (ht : h.Holds t) {filings : List Filing}
    (root : Datum) {f : Route} {parent? : Option Ref} (hf : f.Within t parent?)
    (hparent : ∀ p, parent? = some p → ∃ fs, Layout.record p fs ∈ t.parts)
    {p : ScopePath} {k : Nat} {uses : List Text} {s : World (List Text)}
    (hs : Reported h filings (k :: p.reverse) uses s) :
    ∃ s', f.run reporting root s = .ok () s' ∧
      Reported h filings ((k + (f.forest skipNone root).count) :: p.reverse)
        (uses ++ ((f.forest skipNone root).spots parent? p k).flatMap fun a => a.uses h filings) s' := by
  induction f generalizing parent? p k uses s with
  | nil => exact ⟨s, rfl, by simpa [forest, Forest.count, Forest.spots] using hs⟩
  | node r fields slot below rest ihBelow ihRest =>
    obtain ⟨⟨hpart, hn, hslot⟩, hbelow, hrest⟩ := hf
    have hforest : (node r fields slot below rest).forest skipNone root =
        .node r fields false (below.forest skipNone root) (rest.forest skipNone root) := rfl
    generalize hopens : (Layout.record r fields).opens = n
    let a : Spot := ⟨r, fields, false, parent?, p, p ++ [k], (inside n p k).1⟩
    have henter := Passage.advance_enter false hopens p k
    obtain ⟨s', hrun, hs'⟩ := run_reporting_node (a := a) hiter ht root hpart hn hparent slot hslot hs henter
      (fun uses s hs => ihBelow hbelow (fun q hq => by cases hq; exact ⟨fields, hpart⟩) hs) rest
    rw [Passage.advance_leave false hopens] at hs'
    obtain ⟨s'', hend, hs''⟩ := ihRest hrest hparent hs'
    refine ⟨s'', hrun.trans hend, ?_⟩
    rw [hforest, Forest.count, hopens, Forest.spots_node _ _ _ _ _ _ _ _ hopens, List.flatMap_cons,
      List.flatMap_append, ← List.append_assoc, ← List.append_assoc, ← Nat.add_assoc]
    exact hs''

/-! ## Names that are reported -/

/-- What is reported at a node changes nothing. -/
theorem reportUse_eq_ok {v : Visit} {q : Request} {s s' : World (List Text)}
    (hrun : reportUse v s = .ok q s') :
    q = .empty ∧ s'.heap = s.heap ∧ s'.tracker = s.tracker := by
  by_cases htype : s.heap.field v.node "type" = .scalar (.text "Identifier")
  · by_cases hname : ∃ name, s.heap.field v.node "name" = .scalar (.text name)
    · obtain ⟨name, hname⟩ := hname
      cases hb : Scope.isBindingIdentifier s.heap (.ref v.node)
          ((v.slot.parent?.map Datum.ref).getD .null) with
      | error f =>
        rw [reportUse, get_bind] at hrun
        simp only [htype, hname, hb, bind, EStateM.bind, if_true] at hrun
        cases hrun
      | ok b =>
        rw [reportUse_identifier htype hname hb] at hrun
        cases hrun
        refine ⟨rfl, ?_⟩
        split <;> exact ⟨rfl, rfl⟩
    · rw [reportUse_other (.inr fun name h => hname ⟨name, h⟩)] at hrun
      cases hrun
      exact ⟨rfl, rfl, rfl⟩
  · rw [reportUse_other (.inl htype)] at hrun
    cases hrun
    exact ⟨rfl, rfl, rfl⟩

theorem reporting_observes (t : Layout) : reporting.Observes t := by
  rintro (_ | _) c hc v s q s' hrun hs
  · cases hc
    obtain ⟨rfl, hheap, htracker⟩ := reportUse_eq_ok hrun
    rw [hheap]
    exact ⟨⟨rfl, rfl⟩, hs, htracker⟩
  · cases hc

theorem gathering_silent (phase : Phase) : gathering.callback? phase = none := by
  cases phase <;> rfl

theorem gathering_observes (t : Layout) : gathering.Observes t := by
  intro phase c hc
  rw [gathering_silent] at hc
  cases hc

theorem gathering_answers (t : Layout) : gathering.Answers t := by
  intro phase c hc
  rw [gathering_silent] at hc
  cases hc

section

variable (hkeys : ∀ e ∈ t.cells, e.2.KeysOnce) (hn : t.isNode = true) (hopens : 0 < t.opens)
  (hiter : t.Iterable) (ht : h.Holds t) {steps : Nat} (hsteps : t.steps ≤ steps)

include hkeys hn hopens hiter ht hsteps

/-- After the first walk a tracker that is frozen knows all declarations of the tree. -/
theorem gathering_walk :
    ∃ s', gathering.walk steps t.datum ⟨h, .fresh true, [], []⟩ = .ok t.datum s' ∧
      Reported h (t.filings skipNone) [] [] { s' with tracker := s'.tracker.freeze } := by
  have hw := gathering_observes t
  have hs : (⟨h, .fresh true, [], []⟩ : World (List Text)).heap.Holds t := ht
  obtain ⟨s', hrun, -⟩ := walk_returns hw (gathering_answers t) hiter hkeys hn hs hsteps
  obtain ⟨-, -, hgives, -⟩ := walk_log hw rfl hkeys hn hs hsteps hrun
  have hkept := (walk_keeps hw rfl hkeys hn hs rfl steps).2 _ s' hrun
  have hstored := walk_bindings hw rfl hkeys hn hopens hiter hs rfl hsteps hrun
    (skipsAs_of_gives rfl hgives)
  have hroute := (walk_along_route hw hkeys hn hs hsteps).1
  rw [hrun] at hroute
  obtain ⟨_, s₁, hpassed, hend⟩ := bind_eq_ok.1 hroute.symm
  obtain ⟨-, rfl⟩ := pure_eq_ok.1 hend
  obtain ⟨hheap, huser⟩ := Route.run_silent gathering_silent t.datum hpassed
  refine ⟨s₁, hrun, hheap, rfl, hkept.preserves, rfl, fun path name => ?_, huser⟩
  have hhas : Tracker.Has s₁.tracker.freeze path name ↔
      name ∈ Fields.keys (s₁.tracker.bindings path) := by
    rw [Tracker.Has, Option.isSome_iff_ne_none, ne_eq, Fields.get?_eq_none_iff, not_not]
    rfl
  rw [hhas, hstored, Scope.mem_keys_recordAll]
  constructor
  · rintro (hnone | ⟨e, he, hname⟩)
    · cases hnone
    · obtain ⟨f, hf, rfl⟩ := List.mem_map.1 he
      obtain ⟨hf, hpath⟩ := List.mem_filter.1 hf
      exact ⟨f, hf, of_decide_eq_true hpath, hname⟩
  · rintro ⟨f, hf, hpath, hname⟩
    exact .inr ⟨f.2, List.mem_map.2 ⟨f, List.mem_filter.2 ⟨hf, decide_eq_true hpath⟩, rfl⟩, hname⟩

theorem reporting_walk {s : World (List Text)} (hs : Reported h (t.filings skipNone) [] [] s) :
    ∃ s', reporting.walk steps t.datum s = .ok t.datum s' ∧ s'.heap = h ∧
      s'.user = (t.uses h).eraseDups := by
  cases t with
  | record r fields =>
    have hroute : (Layout.record r fields).route .root =
        .node r fields .root (Layout.routeOfFields r fields) .nil := Layout.route_node hn .root
    obtain ⟨⟨hpart, -, -⟩, hbelow, -⟩ : Route.Within _ _ (.node r fields .root _ .nil) :=
      hroute ▸ (Layout.record r fields).route_within .root
    obtain ⟨n, hroot⟩ := Nat.exists_eq_succ_of_ne_zero (Nat.pos_iff_ne_zero.1 hopens)
    let a : Spot := ⟨r, fields, false, none, [], [], (ScopePath.inside n [] 0).1⟩
    have henter := Passage.advance_root false hroot
    obtain ⟨s', hrun, hs'⟩ := Route.run_reporting_node (a := a) hiter ht (.ref r) hpart hn
      (fun p hp => by cases hp) .root rfl hs henter
      (fun uses s hs => Route.run_reporting hiter ht (.ref r) hbelow
        (fun q hq => by cases hq; exact ⟨fields, hpart⟩) hs) .nil
    have huses : (Layout.record r fields).uses h =
        a.uses h ((Layout.record r fields).filings skipNone) ++
          (((Layout.routeOfFields r fields).forest skipNone (.ref r)).spots (some r)
            (ScopePath.inside n [] 0).1 (ScopePath.inside n [] 0).2).flatMap
              fun b => b.uses h ((Layout.record r fields).filings skipNone) := by
      have hspots : (Layout.record r fields).spots skipNone = a ::
          ((Layout.routeOfFields r fields).forest skipNone (.ref r)).spots (some r)
            (ScopePath.inside n [] 0).1 (ScopePath.inside n [] 0).2 := by
        rw [Layout.spots, hroute, Route.forest, Forest.rootSpots, hroot]
        rfl
      rw [Layout.uses, hspots, List.flatMap_cons]
    refine ⟨s', ?_, hs'.heap, ?_⟩
    · rw [(walk_along_route (reporting_observes _) hkeys hn (s := s) (by rw [hs.heap]; exact ht) hsteps).1,
        hroute]
      exact bind_eq_ok.2 ⟨(), s', hrun, rfl⟩
    · rw [hs'.user, huses, List.nil_append]
  | _ => cases hn

/-- The names that are used are reported once each, and nothing of the heap changes. -/
theorem reportNames_ends :
    ∃ s', reportNames steps t.datum ⟨h, .fresh true, [], []⟩ = .ok () s' ∧ s'.heap = h ∧
      s'.user = (t.uses h).eraseDups := by
  obtain ⟨s₁, hfirst, hs₁⟩ := gathering_walk hkeys hn hopens hiter ht hsteps
  obtain ⟨s₂, hsecond, hheap, huser⟩ := reporting_walk hkeys hn hopens hiter ht hsteps hs₁
  refine ⟨s₂, ?_, hheap, huser⟩
  rw [reportNames, bind_of_eq_ok hfirst]
  exact bind_eq_ok.2 ⟨(), _, rfl, bind_eq_ok.2 ⟨_, s₂, hsecond, rfl⟩⟩

end

theorem undeclaredNames_of_function {type : Text} (hfunction : type ∈ Scope.functionTypes)
    (htype : t.type? = some type) (hrefs : t.refs.Nodup) (hkeys : ∀ e ∈ t.cells, e.2.KeysOnce)
    (hiter : t.Iterable) (ht : h.Holds t) :
    undeclaredNames h t.datum = .ok (t.uses h).eraseDups ∧
      positionsOf (gathering.log h.walkSteps t.datum ⟨h, .fresh true, [], []⟩) =
        (t.spots skipNone).map Spot.position ∧
      ∃ s', reportNames h.walkSteps t.datum ⟨h, .fresh true, [], []⟩ = .ok () s' ∧ s'.heap = h := by
  have hn : t.isNode = true := by
    rw [Layout.isNode, htype]
    rfl
  have hopens : 0 < t.opens := by
    have hfunctions : ∀ type ∈ Scope.functionTypes, 0 < (Scope.Role.ofType type).opens := by decide
    rw [Layout.opens, htype]
    exact hfunctions type hfunction
  have hsteps := Layout.steps_le_walkSteps hrefs ht
  obtain ⟨s', hrun, hheap, huser⟩ := reportNames_ends hkeys hn hopens hiter ht hsteps
  refine ⟨?_, ?_, s', hrun, hheap⟩
  · simp only [undeclaredNames, hrun, huser]
  · have hs : (⟨h, .fresh true, [], []⟩ : World (List Text)).heap.Holds t := ht
    obtain ⟨s₁, hfirst, -⟩ := gathering_walk hkeys hn hopens hiter ht hsteps
    obtain ⟨-, -, hgives, -⟩ := walk_log (gathering_observes t) rfl hkeys hn hs hsteps hfirst
    exact walk_spots (gathering_observes t) rfl hkeys hn hopens hs rfl hsteps hfirst
      (skipsAs_of_gives rfl hgives)

section

variable {type : Text} (hfunction : type ∈ Scope.functionTypes) (htype : t.type? = some type)
  (hrefs : t.refs.Nodup) (hkeys : ∀ e ∈ t.cells, e.2.KeysOnce) (hshaped : t.WellShaped)
  (ht : h.Holds t)

include hfunction htype hrefs hkeys hshaped ht

/-- The names that are reported for a function are those that it uses, each once, in the order of their
    first uses: the names of the identifiers that introduce none, for which nothing is declared in the
    scopes around them, before or after. The scopes are those in which a tracker is that follows a walk. The
    tree is left as it is. -/
theorem undeclaredNames_eq_uses :
    ∃ names, undeclaredNames h t.datum = .ok names ∧ names = (t.uses h).eraseDups ∧ names.Nodup ∧
      (∀ name, name ∈ names ↔ ∃ a ∈ t.spots skipNone, a.identifier? = some name ∧
        Scope.isBindingIdentifier h (.ref a.node) a.parent = .ok false ∧
        ∀ f ∈ t.filings skipNone, f.1 <+: a.path → f.2.name ≠ name) ∧
      positionsOf (gathering.log h.walkSteps t.datum ⟨h, .fresh true, [], []⟩) =
        (t.spots skipNone).map Spot.position ∧
      ∃ s', reportNames h.walkSteps t.datum ⟨h, .fresh true, [], []⟩ = .ok () s' ∧ s'.heap = h := by
  obtain ⟨hnames, hrest⟩ := undeclaredNames_of_function hfunction htype hrefs hkeys hshaped.iterable ht
  refine ⟨_, hnames, rfl, nodup_eraseDups _, fun name => ?_, hrest⟩
  rw [List.mem_eraseDups, Layout.uses, List.mem_flatMap]
  simp only [Spot.mem_uses, Spot.not_sees]

end

namespace Sample

/-- An identifier. -/
def identifier (r : Ref) (name : Text) : Layout :=
  .record r [(.text "type", .scalar (.text "Identifier")), (.text "name", .scalar (.text name))]

/-- A block that uses `y`, declares `z` in a block inside it, uses `z` after that, uses `v` and then declares
    it, by `y` again, and uses `x`. -/
def readerBody : List (Key × Layout) :=
  [(.text "type", .scalar (.text "BlockStatement")),
    (.text "body", .list 5 [
      identifier 6 "y",
      .record 7 [(.text "type", .scalar (.text "BlockStatement")),
        (.text "body", .list 8 [
          .record 9 [(.text "type", .scalar (.text "VariableDeclaration")),
            (.text "declarations", .list 10 [
              .record 11 [(.text "type", .scalar (.text "VariableDeclarator")),
                (.text "id", identifier 12 "z")]])]])],
      identifier 13 "z",
      identifier 14 "v",
      .record 15 [(.text "type", .scalar (.text "VariableDeclaration")),
        (.text "declarations", .list 16 [
          .record 17 [(.text "type", .scalar (.text "VariableDeclarator")),
            (.text "id", identifier 18 "v"),
            (.text "init", identifier 19 "y")]])],
      identifier 20 "x"])]

/-- The function `f` of `x` with this block as its body. -/
def reader : Layout :=
  .record 0 [(.text "type", .scalar (.text "FunctionDeclaration")),
    (.text "id", identifier 1 "f"),
    (.text "params", .list 2 [identifier 3 "x"]),
    (.text "body", .record 4 readerBody)]

def readerHeap : Heap := ⟨(reader.cells.map Prod.snd).toArray⟩

theorem undeclaredNames_reader :
    undeclaredNames readerHeap (.ref 0) = .ok ["y", "z"] := by
  have hfunction : ("FunctionDeclaration" : Text) ∈ Scope.functionTypes := by decide
  obtain ⟨names, hnames, huses, -⟩ :=
    undeclaredNames_eq_uses (h := readerHeap) (t := reader) hfunction (by decide) (by decide) (by decide)
      (by decide) (by decide)
  rw [show (Datum.ref 0) = reader.datum from rfl, hnames, huses]
  decide

end Sample

/-- Every identifier for which nothing is declared is reported, unless it lies in a field of its parent in
    which names stand. -/
theorem undeclaredNames_reads {type : Text} (hfunction : type ∈ Scope.functionTypes)
    (htype : t.type? = some type) (hrefs : t.refs.Nodup) (hkeys : ∀ e ∈ t.cells, e.2.KeysOnce)
    (hshaped : t.WellShaped) (ht : h.Holds t) :
    ∃ names, undeclaredNames h t.datum = .ok names ∧
      ∀ a ∈ t.spots skipNone, ∀ name, a.identifier? = some name →
        (∀ f ∈ t.filings skipNone, f.1 <+: a.path → f.2.name ≠ name) →
          name ∈ names ∨ ∃ p fields, a.parent? = some p ∧ Layout.record p fields ∈ t.parts ∧
            ∃ f ∈ fields, a.layout ∈ f.2.parts ∧
              ∃ key ∈ (Layout.record p fields).namingFields, f.1 = .text key := by
  obtain ⟨hnames, -⟩ := undeclaredNames_of_function hfunction htype hrefs hkeys hshaped.iterable ht
  refine ⟨_, hnames, fun a ha name hid hfree => or_iff_not_imp_right.2 fun hplain => ?_⟩
  have hn : t.isNode = true := by
    rw [Layout.isNode, htype]
    rfl
  obtain ⟨hpart, hparent⟩ := Layout.spots_within hn skipNone a ha
  rw [List.mem_eraseDups, Layout.uses, List.mem_flatMap]
  refine ⟨a, ha, Spot.mem_uses.2 ⟨hid, ?_, Spot.not_sees.2 hfree⟩⟩
  rw [Spot.parent]
  cases hp : a.parent? with
  | none => rfl
  | some p =>
    obtain ⟨fields, hfields⟩ := hparent p hp
    obtain ⟨b, hb, hbinds⟩ := Scope.told_isBindingIdentifier (ht.of_part hfields)
      (hshaped.iterable.of_part hfields) (ht.of_part hpart)
    have hno : b = false := by
      refine Bool.eq_false_iff.2 fun hyes => hplain ?_
      obtain ⟨key, hkey, f, hf, hname, u, hu, hdatum⟩ := Layout.exists_field_of_names (hbinds hyes)
      -- what lies in the cell of the identifier is the identifier
      have hsame : u = a.layout := (ht.of_part
        (Layout.parts_subset hfields (Layout.parts_field hf hu))).eq_of_datum (ht.of_part hpart) hdatum
      exact ⟨p, fields, hp, hfields, f, hf, hsame ▸ hu, key, hkey, hname⟩
    rw [hno] at hb
    exact hb

namespace Sample

/-- The use of `y` in the body is reported. -/
theorem undeclaredNames_reads_reader :
    ∃ names, undeclaredNames readerHeap (.ref 0) = .ok names ∧ ("y" : Text) ∈ names := by
  have hfunction : ("FunctionDeclaration" : Text) ∈ Scope.functionTypes := by decide
  obtain ⟨names, hnames, hreads⟩ :=
    undeclaredNames_reads (h := readerHeap) (t := reader) hfunction (by decide) (by decide) (by decide)
      (by decide) (by decide)
  refine ⟨names, hnames, ?_⟩
  have hspot : (reader.spots skipNone)[4]? =
      some ⟨6, [(.text "type", .scalar (.text "Identifier")), (.text "name", .scalar (.text "y"))], false,
        some 4, [0], [0, 0], [0]⟩ := rfl
  rcases hreads _ (List.mem_of_getElem? hspot) "y" (by decide) (by decide) with
    hmem | ⟨p, fields, hp, hpart, -, -, -, key, hkey, -⟩
  · exact hmem
  · -- it hangs from a block, in which no names stand
    have hheld : readerHeap.Holds reader := by decide
    have hbody : Layout.record 4 readerBody ∈ reader.parts :=
      Layout.parts_field (f := (.text "body", .record 4 readerBody)) (by simp) (Layout.mem_parts_self _)
    have hsame : Layout.record p fields = .record 4 readerBody := by
      refine (hheld.of_part hpart).eq_of_datum (hheld.of_part hbody) ?_
      rw [Layout.datum_record, ← Option.some.inj hp]
      rfl
    have hnone : (Layout.record 4 readerBody).namingFields = [] := by decide
    rw [hsame, hnone] at hkey
    cases hkey

/-- A member expression that reads the element `b` of `a`. -/
def indexing : List (Key × Layout) :=
  [(.text "type", .scalar (.text "MemberExpression")),
    (.text "object", identifier 6 "a"),
    (.text "property", identifier 7 "b"),
    (.text "computed", .scalar (.bool true))]

/-- A function that returns this element. -/
def indexed : Layout :=
  .record 0 [(.text "type", .scalar (.text "FunctionExpression")),
    (.text "id", .scalar .null),
    (.text "params", .list 1 []),
    (.text "body", .record 2 [(.text "type", .scalar (.text "BlockStatement")),
      (.text "body", .list 3 [
        .record 4 [(.text "type", .scalar (.text "ReturnStatement")),
          (.text "argument", .record 5 indexing)]])])]

def indexedHeap : Heap := ⟨(indexed.cells.map Prod.snd).toArray⟩

/-- What stands in brackets is read, nothing declares it, and it is not reported. -/
theorem undeclaredNames_indexed :
    undeclaredNames indexedHeap (.ref 0) = .ok ["a"] ∧
      ∃ a ∈ indexed.spots skipNone, a.identifier? = some ("b" : Text) ∧
        (∀ f ∈ indexed.filings skipNone, f.1 <+: a.path → f.2.name ≠ "b") ∧
        a.parent? = some 5 ∧ Layout.record 5 indexing ∈ indexed.parts ∧
        (Layout.record 5 indexing).type? = some ("MemberExpression" : Text) ∧
        (Layout.record 5 indexing).field "property" = a.layout ∧
        (Layout.record 5 indexing).field "computed" = .scalar (.bool true) := by
  have hfunction : ("FunctionExpression" : Text) ∈ Scope.functionTypes := by decide
  obtain ⟨hnames, -⟩ :=
    undeclaredNames_of_function (h := indexedHeap) (t := indexed) hfunction (by decide) (by decide)
      (by decide) (by decide) (by decide)
  have hspot : (indexed.spots skipNone)[5]? =
      some ⟨7, [(.text "type", .scalar (.text "Identifier")), (.text "name", .scalar (.text "b"))], false,
        some 5, [0, 0], [0, 0, 0], [0, 0]⟩ := rfl
  have hpart : indexed.parts[9]? = some (Layout.record 5 indexing) := rfl
  refine ⟨?_, _, List.mem_of_getElem? hspot, by decide, by decide, rfl, List.mem_of_getElem? hpart,
    by decide, rfl, rfl⟩
  rw [show (Datum.ref 0) = indexed.datum from rfl, hnames]
  decide

end Sample

end Arbor
