import Arbor.Proofs.Walk.Nodes

set_option autoImplicit false

/-! # What a walk does to a tree

A walk of a tree without sharing, by callbacks that change the tree only by requests, does what its
answers tell: the tree that it leaves in the heap is the one that `rewrite` builds from the answers
(`walk_rewrites`), and the callbacks are called in the order that `trace` tells from them
(`walk_traces`). The answers may come from whatever the callbacks know at the moment; for what
becomes of the tree it only matters what they are. -/

namespace Arbor

variable {σ : Type}

/-! ## The answers of a log -/

/-- The answers that the callbacks gave. A node that was not shown counts as one for which nothing was
    asked. -/
def Answers.ofLog (log : List Showing) : Answers := fun phase r =>
  ((log.find? fun e => e.shown = (phase, r)).map Showing.answer).getD {}

theorem Answers.agree_ofLog {log : List Showing} (h : (log.map Showing.shown).Nodup) :
    (ofLog log).Agree log := by
  intro e he
  have hsome : (log.find? fun e' => e'.shown = (e.phase, e.visit.node)).isSome := by
    rw [List.find?_isSome]
    exact ⟨e, he, by simp [Showing.shown]⟩
  obtain ⟨e', he'⟩ := Option.isSome_iff_exists.1 hsome
  have hshown : e'.shown = (e.phase, e.visit.node) := by
    simpa using List.find?_some he'
  have heq : e' = e := List.inj_on_of_nodup_map h (List.mem_of_find?_eq_some he') he hshown
  rw [ofLog, he', heq]
  rfl

/-! ## Walks -/

theorem walk_sound {w : Walker σ} (hw : w.OnlyAsks) {t : Layout} (hn : t.isNode = true)
    (hu : t.Unaliased) {s s' : World σ} (hs : s.heap.Holds t) {steps : Nat} {d : Datum}
    (hrun : w.walk steps t.datum s = .ok d s') (hfresh : Fresh t (w.log steps t.datum s)) :
    ∃ fate, Visits w.recorded t.datum steps .root t (s.withUser (s.user, []))
        (w.log steps t.datum s) fate (s'.withUser (s'.user, w.log steps t.datum s)) ∧
      d = fate.outcome.datum ∧
      Left s.heap .root (area [t] (w.log steps t.datum s)) fate s'.heap := by
  have hrec := Walker.walk_recorded hrun
  cases t with
  | scalar _ => cases hn
  | list _ _ => cases hn
  | record r fields =>
    have hnode : (s.withUser (s.user, ([] : List Showing))).heap.isNode (.ref r) = true :=
      hs.isNode.trans hn
    rw [Layout.datum_record, Walker.walk_node hnode] at hrec
    exact visit_sound hw _ _ _ _ _ _ _ _ _ hrec rfl hn hu hs hfresh.proper hfresh.apart
      (.root _ _ _)

/-- What a walk leaves of a tree is what `rewrite` makes of it by the answers of the callbacks: the walk
    returns what stands in the place of the root, and the heap holds that as it is rebuilt, and the
    root itself. -/
theorem walk_rewrites {w : Walker σ} (hw : w.OnlyAsks) {t : Layout} (hn : t.isNode = true)
    (hu : t.Unaliased) {s s' : World σ} (hs : s.heap.Holds t) {steps : Nat} {d : Datum}
    (hrun : w.walk steps t.datum s = .ok d s') (hfresh : Fresh t (w.log steps t.datum s)) :
    ∃ fate, rewrite (Answers.ofLog (w.log steps t.datum s)) steps t = some fate ∧
      d = fate.outcome.datum ∧ (∀ u, fate.outcome.layout? = some u → s'.heap.Holds u) ∧
      s'.heap.Holds fate.original := by
  obtain ⟨fate, hvisits, hd, hleft⟩ := walk_sound hw hn hu hs hrun hfresh
  have honce := visits_once _ _ _ _ _ _ _ _ _ hvisits hfresh.apart
  refine ⟨fate, ?_, hd, hleft.holds, hleft.original⟩
  exact visits_rewrites _ _ _ _ _ _ _ _ _ _ hvisits (Answers.agree_ofLog honce.nodup)

namespace Sample

/-- A node without children. -/
def leaf (type : Text) : Cell := .record [(.text "type", .text type)]

/-- A program of two nodes with a number between them, and a node that is not part of it. -/
def program (first second : Ref) (others : List Cell) : World Unit where
  heap := ⟨([.record [(.text "type", .text "Program"), (.text "body", .ref 1)],
    .list [.ref first, .scalar (.int 7), .ref second], leaf "A", leaf "B", leaf "C"] ++
      others).toArray⟩
  tracker := .fresh false
  warnings := []
  user := ()

def tree : Layout :=
  .record 0 [(.text "type", .scalar (.text "Program")),
    (.text "body", .list 1 [.record 2 [(.text "type", .scalar (.text "A"))], .scalar (.int 7),
      .record 3 [(.text "type", .scalar (.text "B"))]])]

/-- Takes the first node out on entering and puts a new one in its place on leaving; replaces the
    second one by the node that is there. -/
def walker : Walker Unit where
  enter? := some fun v => pure <|
    if v.node = 2 then Request.empty.remove
    else if v.node = 3 then Request.empty.replace (.ref 4)
    else .empty
  leave? := some fun v s =>
    if v.node = 2 then
      let (d, h) := s.heap.alloc (leaf "D")
      .ok (Request.empty.replace d) { s with heap := h }
    else .ok .empty s
  tracked := false

theorem onlyAsks : walker.OnlyAsks := by
  rintro (_ | _) c hc <;> cases hc <;> intro v s q s' h
  · cases h
    exact .refl _
  · simp only at h
    split at h <;> cases h
    · exact Heap.grows_alloc _ _
    · exact .refl _

theorem walk_rewrites_program :
    ∃ fate, rewrite (Answers.ofLog (walker.log 9 (.ref 0) (program 2 3 []))) 9 tree = some fate ∧
      .ref 0 = fate.outcome.datum ∧
      (∀ u, fate.outcome.layout? = some u → (program 5 4 [leaf "D"]).heap.Holds u) ∧
      (program 5 4 [leaf "D"]).heap.Holds fate.original :=
  walk_rewrites onlyAsks (t := tree) (by decide) (by decide) (by decide) rfl (by decide)

end Sample

/-- The calls of a walk, in their order and each with the place of the node at that moment, are those
    that `trace` tells from the answers. No node is shown twice on entering, nor on leaving. -/
theorem walk_traces {w : Walker σ} (hw : w.OnlyAsks) {t : Layout} (hn : t.isNode = true)
    (hu : t.Unaliased) {s s' : World σ} (hs : s.heap.Holds t) {steps : Nat} {d : Datum}
    (hrun : w.walk steps t.datum s = .ok d s') (hfresh : Fresh t (w.log steps t.datum s)) :
    trace (Answers.ofLog (w.log steps t.datum s)) t.datum steps .root t =
        some ((w.log steps t.datum s).map Showing.event) ∧
      ((w.log steps t.datum s).map Showing.shown).Nodup := by
  obtain ⟨fate, hvisits, -, -⟩ := walk_sound hw hn hu hs hrun hfresh
  have honce := visits_once _ _ _ _ _ _ _ _ _ hvisits hfresh.apart
  refine ⟨?_, honce.nodup⟩
  exact visits_traces _ _ _ _ _ _ _ _ _ _ hvisits (Answers.agree_ofLog honce.nodup)

theorem Sample.walk_traces_program :
    trace (Answers.ofLog (walker.log 9 (.ref 0) (program 2 3 []))) (.ref 0) 9 .root tree =
        some ((walker.log 9 (.ref 0) (program 2 3 [])).map Showing.event) ∧
      ((walker.log 9 (.ref 0) (program 2 3 [])).map Showing.shown).Nodup :=
  have hrun : walker.walk 9 (.ref 0) (program 2 3 []) = .ok (.ref 0) (program 5 4 [leaf "D"]) := rfl
  walk_traces onlyAsks (t := tree) (by decide) (by decide) (by decide) hrun (by decide)

end Arbor
