import Arbor.Proofs.Scope.Keeping
import Arbor.Proofs.Walk.Along
import Arbor.Proofs.Walk.Scoping

set_option autoImplicit false

/-! # Walking again with a frozen tracker

A tree is walked by a tracker that preserves what it meets, which is then frozen and follows a second
walk. The two trackers make the same tour, so that they are in the same scope at each call; the second one
stores nothing, and knows at each call all that the first one ever came to know (`walk_replays`). -/

namespace Arbor

open Scope (Call Tracker)

variable {σ τ : Type}

/-- Along a tour a tracker that preserves keeps what it has. -/
theorem Follows.keeps {T T' : Tracker} {ps : List Passage} {log : List Showing}
    (h : Follows T ps log T') (hp : T.preserves = true) :
    T.Keeps T' ∧ ∀ e ∈ log, T.Keeps e.tracker := by
  induction h with
  | nil => exact ⟨.refl _, by simp⟩
  | cons hh hrun hphase hnode hheap hskipped hrest ih =>
    have hone := Call.keeps hp hrun
    obtain ⟨hend, hall⟩ := ih (hone.preserves.trans hp)
    exact ⟨hone.trans hend, List.forall_mem_cons.2 ⟨hone, fun e he => hone.trans (hall e he)⟩⟩

/-- Two trackers are in the same scope, and what is visible to the first is visible to the second. -/
structure Shadows (T U : Tracker) : Prop where
  counters : T.counters = U.counters
  declared : ∀ name, T.isDeclared name = true → U.isDeclared name = true

/-- Two trackers that make the same tour are in the same scope at each call. If the second one starts
    with all that the first one ends with, it sees at each call all that the first one sees. -/
theorem Follows.replays {T T' U U' : Tracker} {ps : List Passage} {log log' : List Showing}
    (h : Follows T ps log T') (h' : Follows U ps log' U') (hT : T.preserves = true)
    (hU : U.preserves = true) (hcounters : T.counters = U.counters)
    (hnames : ∀ path name, T'.Has path name → U.Has path name) :
    List.Forall₂ (fun e e' => Shadows e.tracker e'.tracker) log log' := by
  induction h generalizing U log' with
  | nil =>
    cases h'
    exact .nil
  | @cons T T' p ps e log h hh hrun hphase hnode hheap hskipped hrest ih =>
    cases h' with
    | @cons _ _ _ _ e' log' h' hh' hrun' hphase' hnode' hheap' hskipped' hrest' =>
      have hkeep := Call.keeps hT hrun
      have hkeep' := Call.keeps hU hrun'
      have hcounters' : e.tracker.counters = e'.tracker.counters := by
        rw [Call.run_counters hrun, Call.run_counters hrun', hh.opens, hh'.opens, hcounters]
      refine .cons ⟨hcounters', fun name hd => ?_⟩ (ih hrest' (hkeep.preserves.trans hT)
        (hkeep'.preserves.trans hU) hcounters' fun path name hn =>
          hkeep'.names path name (hnames path name hn))
      obtain ⟨q, hq, hhas⟩ := Tracker.isDeclared_iff.1 hd
      refine Tracker.isDeclared_iff.2 ⟨q, ?_, ?_⟩
      · rwa [Tracker.path, ← hcounters']
      · -- what is declared by now is still declared at the end of the first tour
        have hlater := (hrest.keeps (hkeep.preserves.trans hT)).1.names q name hhas
        exact hkeep'.names q name (hnames q name hlater)

/-- What holds of the elements of two lists in pairs holds besides that they show the same, if the lists
    do. -/
theorem forall₂_of_map_eq {α β : Type} {R : α → α → Prop} {f : α → β} {l l' : List α}
    (hmap : l.map f = l'.map f) (h : List.Forall₂ R l l') :
    List.Forall₂ (fun a b => f a = f b ∧ R a b) l l' := by
  induction h with
  | nil => exact .nil
  | cons hab _ ih =>
    obtain ⟨hhead, htail⟩ := List.cons.inj hmap
    exact .cons ⟨hhead, hab⟩ (ih htail)

/-- In a walk that observes, also in one that stops, a tracker that preserves keeps what it has. -/
theorem walk_keeps {w : Walker σ} {t : Layout} (hw : w.Observes t) (htracked : w.tracked = true)
    (hkeys : ∀ e ∈ t.cells, e.2.KeysOnce) (hn : t.isNode = true) {s : World σ} (hs : s.heap.Holds t)
    (hp : s.tracker.preserves = true) (steps : Nat) :
    (∀ e ∈ w.log steps t.datum s, s.tracker.Keeps e.tracker) ∧
      ∀ d s', w.walk steps t.datum s = .ok d s' → s.tracker.Keeps s'.tracker := by
  obtain ⟨_, _, _, _, -, -, hfollows, hdone⟩ := walk_tours hw htracked hkeys hn hs steps
  obtain ⟨hend, hall⟩ := hfollows.keeps hp
  refine ⟨hall, fun d s' hrun => ?_⟩
  obtain ⟨-, -, rfl, -⟩ := hdone d s' hrun
  exact hend

/-- A tree is walked with a tracker that preserves what it meets, and once more with the same tracker
    frozen, by walks that only observe. Both walks come to an end if the callbacks answer. Whatever is
    skipped, in the second walk nothing changes of what is stored. If both walks skip the same nodes,
    they make the same calls; at each of them the trackers are in the same scope, and what is visible in
    the first walk is visible in the second. -/
theorem walk_replays {w : Walker σ} {w' : Walker τ} {t : Layout} (hw : w.Observes t)
    (hw' : w'.Observes t) (htracked : w.tracked = true) (htracked' : w'.tracked = true)
    (hkeys : ∀ e ∈ t.cells, e.2.KeysOnce) (hn : t.isNode = true) (hshaped : t.WellShaped)
    {s : World σ} (hs : s.heap.Holds t) (hfresh : s.tracker = .fresh true) {steps steps' : Nat}
    (hsteps : t.steps ≤ steps) (hsteps' : t.steps ≤ steps') :
    (w.Answers t → ∃ s', w.walk steps t.datum s = .ok t.datum s') ∧
      ∀ d s', w.walk steps t.datum s = .ok d s' →
        ∀ u : World τ, u.heap.Holds t → u.tracker = s'.tracker.freeze →
          (w'.Answers t → ∃ u', w'.walk steps' t.datum u = .ok t.datum u') ∧
          (∀ e ∈ w'.log steps' t.datum u, e.tracker.scopes = s'.tracker.scopes) ∧
          ∀ d' u', w'.walk steps' t.datum u = .ok d' u' →
            u'.tracker.scopes = s'.tracker.scopes ∧
            ∀ skips, SkipsAs skips (w.log steps t.datum s) →
              SkipsAs skips (w'.log steps' t.datum u) →
              List.Forall₂ (fun e e' => e.event = e'.event ∧ e.tracker.key = e'.tracker.key ∧
                  ∀ name, e.tracker.isDeclared name = true → e'.tracker.isDeclared name = true)
                (w.log steps t.datum s) (w'.log steps' t.datum u) := by
  constructor
  · intro ha
    obtain ⟨s', hrun, -⟩ := walk_returns hw ha hshaped.iterable hkeys hn hs hsteps
    exact ⟨s', hrun⟩
  intro d s' hrun u hu hfreeze
  have hpreserves : s.tracker.preserves = true := by rw [hfresh]; rfl
  have hkept := (walk_keeps hw htracked hkeys hn hs hpreserves steps).2 d s' hrun
  -- the second walk starts with all that the first one has stored, at the root again
  have hfrozen : u.tracker.frozen = true := by rw [hfreeze]; rfl
  have hscopes : u.tracker.scopes = s'.tracker.scopes := by rw [hfreeze]; rfl
  have hpreserves' : u.tracker.preserves = true := by
    rw [hfreeze]
    exact hkept.preserves.trans hpreserves
  obtain ⟨hall, hend⟩ := walk_keeps hw' htracked' hkeys hn hu hpreserves' steps'
  refine ⟨fun ha => ?_, fun e he => ((hall e he).scopes hfrozen).trans hscopes, ?_⟩
  · obtain ⟨u', hrun', -⟩ := walk_returns hw' ha hshaped.iterable hkeys hn hu hsteps'
    exact ⟨u', hrun'⟩
  intro d' u' hrun'
  refine ⟨((hend d' u' hrun').scopes hfrozen).trans hscopes, fun skips hskips hskips' => ?_⟩
  obtain ⟨-, -, -, hlog⟩ := walk_log hw htracked hkeys hn hs hsteps hrun
  obtain ⟨-, -, -, hlog'⟩ := walk_log hw' htracked' hkeys hn hu hsteps' hrun'
  obtain ⟨hevents, hfollows⟩ := hlog skips hskips
  obtain ⟨hevents', hfollows'⟩ := hlog' skips hskips'
  have hshadows := hfollows.replays hfollows' hpreserves hpreserves' (by rw [hfresh, hfreeze]; rfl)
    fun path name h => by
      rw [Tracker.Has] at h ⊢
      rwa [Tracker.bindings_congr hscopes]
  refine (forall₂_of_map_eq (hevents.trans hevents'.symm) hshadows).imp fun e e' h => ?_
  refine ⟨h.1, ?_, h.2.declared⟩
  rw [Tracker.key, Tracker.path, h.2.counters]
  rfl

namespace Sample

/-- A program that uses `b`, inside a function too, before it declares it. -/
def hoisted : Layout :=
  .record 0 [(.text "type", .scalar (.text "Program")),
    (.text "body", .list 1 [
      .record 2 [(.text "type", .scalar (.text "FunctionDeclaration")),
        (.text "id", .record 3 [(.text "type", .scalar (.text "Identifier")),
          (.text "name", .scalar (.text "f"))]),
        (.text "params", .list 4 [.record 5 [(.text "type", .scalar (.text "Identifier")),
          (.text "name", .scalar (.text "a"))]]),
        (.text "body", .record 6 [(.text "type", .scalar (.text "Identifier")),
          (.text "name", .scalar (.text "b"))])],
      .record 7 [(.text "type", .scalar (.text "VariableDeclaration")),
        (.text "declarations", .list 8 [
          .record 9 [(.text "type", .scalar (.text "VariableDeclarator")),
            (.text "id", .record 10 [(.text "type", .scalar (.text "Identifier")),
              (.text "name", .scalar (.text "b"))])]])]])]

def hoistedWorld : World Unit where
  heap := ⟨(hoisted.cells.map Prod.snd).toArray⟩
  tracker := .fresh true
  warnings := []
  user := ()

theorem walk_replays_hoisted :
    ∃ s' u', follower.walk 40 (.ref 0) hoistedWorld = .ok (.ref 0) s' ∧
      follower.walk 40 (.ref 0) { s' with tracker := s'.tracker.freeze } = .ok (.ref 0) u' ∧
      u'.tracker.scopes = s'.tracker.scopes ∧
      List.Forall₂ (fun e e' => e.event = e'.event ∧ e.tracker.key = e'.tracker.key ∧
          ∀ name, e.tracker.isDeclared name = true → e'.tracker.isDeclared name = true)
        (follower.log 40 (.ref 0) hoistedWorld)
        (follower.log 40 (.ref 0) { s' with tracker := s'.tracker.freeze }) := by
  have hw := follower_observes hoisted
  have ha := follower_answers hoisted
  have hkeys : ∀ e ∈ hoisted.cells, e.2.KeysOnce := by decide
  have hn : hoisted.isNode = true := by decide
  have hs : hoistedWorld.heap.Holds hoisted := by decide
  have hsteps : hoisted.steps ≤ 40 := by decide
  obtain ⟨hfirst, hsecond⟩ := walk_replays hw hw rfl rfl hkeys hn (by decide) hs rfl hsteps hsteps
  obtain ⟨s', hrun⟩ := hfirst ha
  obtain ⟨-, hs', hgives, -⟩ := walk_log hw rfl hkeys hn hs hsteps hrun
  have hu : ({ s' with tracker := s'.tracker.freeze } : World Unit).heap.Holds hoisted := hs'
  obtain ⟨hends, -, hreplay⟩ := hsecond _ s' hrun _ hu rfl
  obtain ⟨u', hrun'⟩ := hends ha
  obtain ⟨-, -, hgives', -⟩ := walk_log hw rfl hkeys hn hu hsteps hrun'
  obtain ⟨hscopes, hshadows⟩ := hreplay _ u' hrun'
  exact ⟨s', u', hrun, hrun', hscopes,
    hshadows _ (skipsAs_of_gives rfl hgives) (skipsAs_of_gives rfl hgives')⟩

end Sample

end Arbor