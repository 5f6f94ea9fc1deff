import Arbor.Proofs.Walk.Replay

set_option autoImplicit false

/-! # Malformed trees

A tracker can follow a walk through trees of any shape: whatever the fields of a node hold, it declares what
it finds and goes on. There is one exception. Where it looks for a list, a scalar other than a text that
counts as given stops the tracker, and the walk with it (`walk_stops_only_at_scalars`). -/

namespace Arbor

open Scope (Call Tracker)

/-- In some node of the tree a scalar stands where a tracker looks for a list, and it cannot be gone through:
    it is a truth value or a number that counts as given. -/
def Layout.Stuck (t : Layout) : Prop :=
  ∃ u ∈ t.parts, u.isNode = true ∧ ∃ name ∈ Heap.listFields, ∃ s : Scalar,
    u.field name = .scalar s ∧ s.isTruthy = true ∧ ∀ text, s ≠ .text text

theorem Layout.stuck_of_not_iterable {t : Layout} (ht : ¬ t.Iterable) : t.Stuck := by
  obtain ⟨u, hu, hn, name, hname, s, hfield, hs⟩ := Layout.exists_scalar_of_not_iterable ht
  refine ⟨u, hu, hn, name, hname, s, hfield, ?_, ?_⟩
  · cases s <;> simp_all [Scalar.isIterable]
  · rintro text rfl
    cases hs

/-- A tracker in any state is told of entering and of leaving a node, and a walk with callbacks that answer
    goes through all that is below it, whatever shape the nodes have. Only entering a node may fail, and only
    if a number or a truth value stands somewhere in the tree where a list is looked for; nothing else stops
    the walk. -/
theorem walk_stops_only_at_scalars {t : Layout} (hn : t.isNode = true)
    (hkeys : ∀ e ∈ t.cells, e.2.KeysOnce) {h : Heap} (ht : h.Holds t) :
    (∀ T, (∃ T', Tracker.enter h t.datum T = .ok () T') ∨
      (∃ T', Tracker.enter h t.datum T = .error .notIterable T') ∧ t.Stuck) ∧
    (∀ T, ∃ T', Tracker.leave h t.datum T = .ok () T') ∧
    ∀ {σ : Type} (w : Walker σ), w.Observes t → w.Answers t →
      ∀ s : World σ, s.heap = h → ∀ steps, t.steps ≤ steps →
        (∃ s', w.walk steps t.datum s = .ok t.datum s' ∧ s'.heap.Holds t) ∨
          (∃ s', w.walk steps t.datum s = .error (.fault .notIterable) s') ∧ t.Stuck := by
  cases t with
  | record r fields =>
    have hpart := Layout.mem_parts_self (.record r fields)
    refine ⟨fun T => ?_, fun T => ?_, fun w hw ha s hs steps hsteps => ?_⟩
    · have hcall : Call.run ⟨.enter, h, r⟩ = Tracker.enter h (.ref r) := rfl
      rcases ht.call_run_or hpart hn .enter T with hrun | ⟨⟨-, hrun⟩, hiter⟩
      · exact .inl (hcall ▸ hrun)
      · exact .inr ⟨hcall ▸ hrun, Layout.stuck_of_not_iterable hiter⟩
    · rcases ht.call_run_or hpart hn .leave T with hrun | ⟨⟨hphase, -⟩, -⟩
      · exact hrun
      · cases hphase
    · refine (walk_concludes hw ha hkeys hn (hs ▸ ht) hsteps).imp id fun hstop => ?_
      exact ⟨hstop.1, Layout.stuck_of_not_iterable hstop.2⟩
  | _ => cases hn

namespace Sample

/-- A function whose name is a list, whose parameters are a text and whose body declares nodes of no known
    shape. -/
def misshapen : Layout :=
  .record 0 [(.text "type", .scalar (.text "FunctionDeclaration")),
    (.text "id", .list 1 [.scalar .null]),
    (.text "params", .scalar (.text "ab")),
    (.text "body", .record 2 [(.text "type", .scalar (.text "VariableDeclaration")),
      (.text "declarations", .list 3 [.scalar (.int 1),
        .record 4 [(.text "type", .scalar (.text "")),
          (.text "id", .record 5 [(.text "type", .scalar (.text "ArrayPattern")),
            (.text "elements", .record 6 [])])]])])]

def misshapenWorld : World Unit where
  heap := ⟨(misshapen.cells.map Prod.snd).toArray⟩
  tracker := .fresh true
  warnings := []
  user := ()

/-- The walk goes through, as nothing that is wrong with the function is a number in the place of a list. -/
theorem walk_stops_only_at_scalars_misshapen :
    (∃ T', Tracker.enter misshapenWorld.heap (.ref 0) (.fresh true) = .ok () T') ∧
      ∃ s', follower.walk 40 (.ref 0) misshapenWorld = .ok (.ref 0) s' := by
  have hfree : ¬ misshapen.Stuck := by
    rintro ⟨u, hu, hn, name, hname, s, hfield, htruthy, htext⟩
    have hiter : misshapen.Iterable := by decide
    have hs := hiter u hu hn name hname
    rw [hfield] at hs
    cases s <;> simp_all [Layout.datum, Datum.isIterable, Scalar.isIterable]
  obtain ⟨henter, -, hwalk⟩ := walk_stops_only_at_scalars (t := misshapen) (h := misshapenWorld.heap)
    (by decide) (by decide) (by decide)
  refine ⟨(henter _).resolve_right fun hstop => hfree hstop.2, ?_⟩
  obtain ⟨s', hrun, -⟩ := (hwalk follower (follower_observes misshapen) (follower_answers misshapen)
    misshapenWorld rfl 40 (by decide)).resolve_right fun hstop => hfree hstop.2
  exact ⟨s', hrun⟩

/-- A function expression whose parameters are a number. -/
def numbered : Layout :=
  .record 0 [(.text "type", .scalar (.text "FunctionExpression")), (.text "params", .scalar (.int 5))]

def numberedWorld : World Unit where
  heap := ⟨(numbered.cells.map Prod.snd).toArray⟩
  tracker := .fresh true
  warnings := []
  user := ()

/-- A tracker that is told of entering it fails, and so does a walk that it follows. -/
theorem enter_numbered :
    numbered.isNode = true ∧ numberedWorld.heap.Holds numbered ∧
      (∃ T', Tracker.enter numberedWorld.heap (.ref 0) (.fresh true) = .error .notIterable T') ∧
      ∃ s', follower.walk 40 (.ref 0) numberedWorld = .error (.fault .notIterable) s' :=
  ⟨by decide, by decide, ⟨_, rfl⟩, ⟨_, rfl⟩⟩

end Sample

end Arbor
