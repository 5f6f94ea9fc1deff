import Arbor.Proofs.Scope.Runs
import Arbor.Proofs.Value.Tidy

set_option autoImplicit false

/-! # Scopes that are open

A tracker that does not preserve the scopes that have been left has none of them stored. The scope that is
closed is stored under the path that was current, and no path is stored twice; so what is stored lies on the
way to the current scope, however enters and leaves follow each other (`Live`). When the last scope is closed
nothing is left (`scopes_live`). -/

namespace Arbor

namespace Fields

variable {K V : Type} [DecidableEq K] {fields : Fields K V}

theorem nodup_keys_erase (h : fields.keys.Nodup) (key : K) : (fields.erase key).keys.Nodup := by
  rw [keys_erase]
  exact h.erase key

/-- The keys that stay are the others. -/
theorem mem_keys_erase (h : fields.keys.Nodup) {key other : K} :
    other ∈ (fields.erase key).keys ↔ other ≠ key ∧ other ∈ fields.keys := by
  rw [keys_erase, h.mem_erase_iff]

end Fields

namespace Scope

/-- A tracker that forgets the scopes that have been left: what it has stored is under the paths of the
    current scope and of those around it, once for each. -/
structure Live (t : Tracker) : Prop where
  forgets : t.preserves = false
  once : (Fields.keys t.scopes).Nodup
  current : ∀ path ∈ Fields.keys t.scopes, path <+: t.path

theorem Tracker.pop_of_nil {t : Tracker} (hc : t.counters = []) : t.pop = t := by
  unfold pop
  rw [hc]

/-- Leaves that are too many do nothing: no more scopes are closed than are open. -/
theorem Tracker.popMany_of_nil (n : Nat) {t : Tracker} (hc : t.counters = []) : t.popMany n = t := by
  induction n with
  | zero => rfl
  | succ n ih => rw [popMany, pop_of_nil hc, ih]

theorem Tracker.popMany_eq_min (n : Nat) (t : Tracker) :
    t.popMany n = t.popMany (min n t.counters.length) := by
  induction n generalizing t with
  | zero => rw [Nat.zero_min]
  | succ n ih =>
    cases hc : t.counters with
    | nil => rw [popMany_of_nil _ hc, popMany_of_nil _ hc]
    | cons m outer =>
      have hlen : t.pop.counters.length = outer.length := by
        rw [counters_pop, hc]
        cases outer <;> rfl
      rw [popMany, ih, hlen, List.length_cons, Nat.succ_min_succ, popMany]

namespace Live

variable {t : Tracker}

theorem fresh : Live (.fresh false) := ⟨rfl, .nil, fun _ h => absurd h List.not_mem_nil⟩

/-- A scope that is opened lies in the current one. -/
theorem push (ht : Live t) : Live t.push := by
  refine ⟨ht.forgets, ht.once, fun path hpath => (ht.current path hpath).trans ?_⟩
  cases hc : t.counters with
  | nil => simp [Tracker.path, Tracker.push, hc]
  | cons n outer =>
    rw [t.path_push hc]
    exact List.prefix_append _ _

theorem declare (ht : Live t) (name : Text) (d : Declaration) : Live (t.declare name d) := by
  refine ⟨ht.forgets, Fields.nodup_keys_set ht.once _ _, fun path hpath => ?_⟩
  rw [Tracker.declare, Fields.keys_set] at hpath
  split at hpath
  · exact ht.current path hpath
  · rcases List.mem_append.1 hpath with hpath | hpath
    · exact ht.current path hpath
    · rw [List.mem_singleton.1 hpath]
      exact List.prefix_rfl

/-- Where a scope is closed, what is stored under its path goes. -/
theorem scopes_pop (ht : Live t) (hc : t.counters ≠ []) : t.pop.scopes = Fields.erase t.scopes t.path := by
  unfold Tracker.pop
  split
  · next hnil => exact absurd hnil hc
  · simp only [ht.forgets, Bool.false_eq_true, if_false]

/-- The paths that stay are those of the scopes around the one that is closed. -/
theorem pop (ht : Live t) : Live t.pop := by
  by_cases hc : t.counters = []
  · rwa [Tracker.pop_of_nil hc]
  · have hscopes := ht.scopes_pop hc
    refine ⟨t.preserves_pop.trans ht.forgets, ?_, fun path hpath => ?_⟩
    · rw [hscopes]
      exact Fields.nodup_keys_erase ht.once t.path
    · rw [hscopes, Fields.mem_keys_erase ht.once] at hpath
      obtain ⟨hne, hpath⟩ := hpath
      obtain ⟨rest, hrest⟩ := ht.current path hpath
      have hrest' : rest ≠ [] := by
        rintro rfl
        exact hne (by simpa using hrest)
      rw [t.path_pop, ← hrest, List.dropLast_append_of_ne_nil hrest']
      exact List.prefix_append _ _

theorem steady (entries : List Entry) : Steady entries Live :=
  ⟨fun _ ht => ht.push, fun _ ht => ht.pop, fun _ ht _ _ _ => ht.declare _ _⟩

/-- Nothing is stored any more when the last scope has been closed: its path was the empty one, and so was
    every path that was stored. -/
theorem scopes_pop_eq_nil (ht : Live t) (hc : t.counters ≠ []) (hpop : t.pop.counters = []) :
    t.pop.scopes = [] := by
  have hpath : t.pop.path = [] := by rw [Tracker.path, hpop]; rfl
  have hlast : t.path = [] := by
    rw [Tracker.counters_pop] at hpop
    rcases hcounters : t.counters with _ | ⟨n, _ | ⟨m, outer⟩⟩
    · exact absurd hcounters hc
    · rw [Tracker.path, hcounters]
      rfl
    · rw [hcounters] at hpop
      cases hpop
  rw [List.eq_nil_iff_forall_not_mem]
  rintro ⟨path, bindings⟩ hmem
  have hkey : path ∈ Fields.keys t.pop.scopes := List.mem_map_of_mem hmem
  have hnil : path = [] := List.prefix_nil.1 (hpath ▸ ht.pop.current path hkey)
  rw [ht.scopes_pop hc, Fields.mem_keys_erase ht.once] at hkey
  exact hkey.1 (hnil.trans hlast.symm)

theorem scopes_popMany_eq_nil (n : Nat) (ht : Live t) (hc : t.counters ≠ [])
    (hpop : (t.popMany n).counters = []) : (t.popMany n).scopes = [] := by
  induction n generalizing t with
  | zero => exact absurd hpop hc
  | succ n ih =>
    rw [Tracker.popMany] at hpop ⊢
    by_cases hlast : t.pop.counters = []
    · rw [Tracker.popMany_of_nil n hlast]
      exact ht.scopes_pop_eq_nil hc hlast
    · exact ih ht.pop hlast hpop

theorem told (calls : List Call) : Live ((Tracker.fresh false).told (calls.map .call)) := by
  refine Steady.told (fun c _ => steady c.entries) (fun hmem => ?_) fresh
  obtain ⟨c, -, hc⟩ := List.mem_map.1 hmem
  cases hc

end Live

/-- A call that leaves a node closes some scopes, or none if it fails. -/
theorem Call.after_leave (h : Heap) (r : Ref) (t : Tracker) :
    ∃ n, Call.after ⟨.leave, h, r⟩ t = t.popMany n := by
  show ∃ n, Tracker.left (Tracker.leave h (.ref r)) t = t.popMany n
  unfold Tracker.leave
  cases Tracker.scopesOf h (.ref r) with
  | ok n => exact ⟨n, rfl⟩
  | error f => exact ⟨0, rfl⟩

/-- A node is left without a fault, whatever has been entered before. -/
theorem leave_of_isNode {h : Heap} {r : Ref} (hn : h.isNode (.ref r) = true) (t : Tracker) :
    Tracker.leave h (.ref r) t = .ok () (t.popMany (min (h.opens r) t.counters.length)) := by
  obtain ⟨type, htype⟩ := Option.isSome_iff_exists.1 hn
  rw [leave_of_type htype, ← Tracker.popMany_eq_min]

/-- Whatever nodes a tracker that forgets the scopes that have been left is told of, in any order:

    - What it has stored is stored for the current scope and for those around it.
    - A node is left without a fault, and no more scopes are closed than are open. If none is, nothing
      changes.
    - When a node is left and the last of the open scopes is closed, nothing is stored any more. -/
theorem scopes_live (calls : List Call) :
    let t := (Tracker.fresh false).told (calls.map .call)
    (∀ path bindings, (path, bindings) ∈ t.scopes → path <+: t.path) ∧
    ∀ h r,
      (h.isNode (.ref r) = true →
        Tracker.leave h (.ref r) t = .ok () (t.popMany (min (h.opens r) t.counters.length))) ∧
      (t.counters = [] → Call.after ⟨.leave, h, r⟩ t = t) ∧
      (t.counters ≠ [] → (Call.after ⟨.leave, h, r⟩ t).counters = [] →
        (Call.after ⟨.leave, h, r⟩ t).scopes = []) := by
  intro t
  have ht : Live t := Live.told calls
  refine ⟨fun path bindings hmem => ht.current path (List.mem_map_of_mem hmem), fun h r => ?_⟩
  obtain ⟨n, hafter⟩ := Call.after_leave h r t
  rw [hafter]
  exact ⟨fun hn => leave_of_isNode hn t, Tracker.popMany_of_nil n, ht.scopes_popMany_eq_nil n⟩

namespace Sample

/-- A program and a function in it are entered; the function is left twice, though it was entered once. -/
def surplus : List Call :=
  [⟨.enter, nodes, 0⟩, ⟨.enter, nodes, 2⟩, ⟨.leave, nodes, 2⟩]

/-- Before the second leave the program is open; it closes the program, and nothing is stored any more. -/
theorem scopes_live_surplus :
    ((Tracker.fresh false).told (surplus.map .call)).counters = [1] ∧
      (Call.after ⟨.leave, nodes, 2⟩ ((Tracker.fresh false).told (surplus.map .call))).scopes = [] := by
  obtain ⟨-, -, hleave⟩ := (scopes_live surplus).2 nodes 2
  exact ⟨by decide, hleave (by decide) (by decide)⟩

end Sample

end Scope

end Arbor
