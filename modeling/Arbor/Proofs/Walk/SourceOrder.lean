import Arbor.Proofs.Heap.Load
import Arbor.Proofs.Lowering.Records
import Arbor.Proofs.Walk.Along

set_option autoImplicit false

/-! # The order of a walk

A walk that observes a tree comes to its nodes in the order in which they stand in it (`Route.nodes`), so if the
syntax tree of a source is in order, they are shown in the order in which they start (`walk_in_source_order`). -/

namespace Arbor

open Actions

variable {σ : Type}

/-! ## The nodes on a route -/

namespace Route

/-- The fields of the nodes on a route, in their order. -/
def nodes : Route → List (List (Key × Value))
  | nil => []
  | node _ fields _ below rest => Layout.valuesOfFields fields :: (below.nodes ++ rest.nodes)

theorem nodes_append (f g : Route) : (f ++ g).nodes = f.nodes ++ g.nodes := by
  induction f with
  | nil => rfl
  | node r fields slot below rest _ ih =>
    rw [node_append, nodes, ih, nodes, List.cons_append, List.append_assoc]

end Route

namespace Layout

theorem isNode_value (t : Layout) : t.value.isNode = t.isNode := by
  cases t with
  | record r fields =>
    rw [isNode, type?_record, value, Value.isNode_record]
  | _ => rfl

/-- The nodes on a route have a type. -/
theorem typed_of_mem_nodes (t : Layout) (slot : Heap.Slot) :
    ∀ fields ∈ (t.route slot).nodes, (Value.typeOf? fields).isSome = true := by
  refine (routes_of_parts (t := t) (P := fun _ f => ∀ fields ∈ f.nodes, (Value.typeOf? fields).isSome = true)
    (fun _ => List.forall_mem_nil _) (fun _ f g hf hg => ?_) (fun r fields slot _ hn hbelow => ?_)
    (mem_parts_self t)).1 slot
  · rw [Route.nodes_append]
    exact List.forall_mem_append.2 ⟨hf, hg⟩
  · rw [isNode, type?_record] at hn
    rw [Route.nodes, Route.nodes, List.append_nil]
    exact List.forall_mem_cons.2 ⟨hn, hbelow⟩

/-- The nodes on the routes of a tree stand in its value in the same order. -/
theorem nodes_route_sublist (t : Layout) :
    (∀ slot, (t.route slot).nodes.Sublist ((Value.records none t.value).map Occurrence.fields)) ∧
      ∀ parent key,
        (routeOfField parent key t).nodes.Sublist ((Value.records none t.value).map Occurrence.fields) := by
  induction t using induction with
  | scalar s => exact ⟨fun _ => .slnil, fun _ _ => .slnil⟩
  | list r items ih =>
    refine ⟨fun _ => List.nil_sublist _, fun parent key => ?_⟩
    rw [routeOfField, value, Value.records_list, Value.recordsOfItems_eq, valuesOfItems_eq]
    generalize 0 = i
    induction items generalizing i with
    | nil => exact .slnil
    | cons u rest ihItems =>
      obtain ⟨hfirst, hrest⟩ := List.forall_mem_cons.1 ih
      rw [routeOfItems, Route.nodes_append, List.map_cons, List.flatMap_cons, List.map_append]
      exact (hfirst.1 _).append (ihItems hrest (i + 1))
  | record r fields ih =>
    have hfields (type? : Option Text) : (routeOfFields r fields).nodes.Sublist
        ((Value.recordsOfFields type? (valuesOfFields fields)).map Occurrence.fields) := by
      induction fields with
      | nil => exact .slnil
      | cons f rest ihFields =>
        obtain ⟨key, u⟩ := f
        obtain ⟨hfirst, hrest⟩ := List.forall_mem_cons.1 ih
        rw [routeOfFields_cons, Route.nodes_append, valuesOfFields, Value.recordsOfFields_cons, List.map_append,
          Value.map_fields_records]
        exact (hfirst.2 r key).append (ihFields hrest)
    have node (slot : Heap.Slot) : ((record r fields).route slot).nodes.Sublist
        ((Value.records none (record r fields).value).map Occurrence.fields) := by
      rw [route, value, Value.records_record, List.map_cons]
      split
      · rw [Route.nodes, Route.nodes, List.append_nil]
        exact (hfields _).cons_cons _
      · exact List.nil_sublist _
    exact ⟨node, fun parent key => node ⟨some parent, key, none⟩⟩

end Layout

/-! ## The nodes that are shown -/

/-- Where the nodes start that a log shows on entering. -/
def entered (log : List Showing) : List (Option Int) :=
  (log.filter fun e => e.phase = .enter).map fun e => e.heap.startOf? e.visit.node

theorem entered_append (log log' : List Showing) : entered (log ++ log') = entered log ++ entered log' := by
  rw [entered, List.filter_append, List.map_append]
  rfl

section

variable {w : Walker σ} {t : Layout} (hw : w.Observes t)

include hw

/-- A call that is noted down shows a node of the tree. -/
theorem Walker.call_entered {phase : Phase} {v : Visit} {fields : List (Key × Layout)}
    (hpart : Layout.record v.node fields ∈ t.parts) {s s' : World (σ × List Showing)} (hs : s.heap.Holds t)
    {q : Request} (hcall : w.recorded.call phase v s = .ok q s') :
    s'.heap.Holds t ∧ ∃ e, s'.user.2 = s.user.2 ++ [e] ∧
      entered [e] = if phase = .enter then [Value.startOf? (Layout.valuesOfFields fields)] else [] := by
  obtain ⟨hanswer, hlog⟩ := Walker.recorded_call_eq_ok hcall
  obtain ⟨-, hs', -⟩ := hw.call phase _ _ _ _ hanswer hs
  refine ⟨hs', _, hlog, ?_⟩
  have hstart : s'.heap.startOf? v.node = Value.startOf? (Layout.valuesOfFields fields) :=
    (Heap.Holds.of_part hs' hpart).startOf?
  cases phase <;> simp [entered, hstart]

/-- The nodes that are shown along a route are nodes of the route, in its order. -/
theorem Route.run_entered (root : Datum) {f : Route} {parent? : Option Ref} (hf : f.Within t parent?)
    {s s' : World (σ × List Showing)} (hs : s.heap.Holds t) (hrun : f.run w.recorded root s = .ok () s') :
    s'.heap.Holds t ∧ ∃ log, s'.user.2 = s.user.2 ++ log ∧ (entered log).Sublist (f.nodes.map Value.startOf?) := by
  induction f generalizing parent? s s' with
  | nil =>
    obtain ⟨-, rfl⟩ := pure_eq_ok.1 hrun
    exact ⟨hs, [], (List.append_nil _).symm, .slnil⟩
  | node r fields slot below rest ihBelow ihRest =>
    obtain ⟨⟨hpart, hn, -⟩, hbelow, hrest⟩ := hf
    obtain ⟨s₁, q, s₂, s₃, s₄, _, s₅, ⟨henter, hcall⟩, hinner, ⟨hleave, hcall'⟩, hend⟩ :=
      Route.run_node_eq_ok hrun
    obtain ⟨hheap₁, huser₁⟩ := Walker.follow_eq_ok henter
    obtain ⟨hheap₄, huser₄⟩ := Walker.follow_eq_ok hleave
    obtain ⟨hs₂, e, he, hentered⟩ := Walker.call_entered hw (v := ⟨r, slot, root⟩) hpart (hheap₁ ▸ hs) hcall
    obtain ⟨hs₃, log, hlog, hsub⟩ : s₃.heap.Holds t ∧ ∃ log, s₃.user.2 = s₂.user.2 ++ log ∧
        (entered log).Sublist (below.nodes.map Value.startOf?) := by
      unfold Request.unlessSkipped at hinner
      split at hinner
      · obtain ⟨-, rfl⟩ := pure_eq_ok.1 hinner
        exact ⟨hs₂, [], (List.append_nil _).symm, List.nil_sublist _⟩
      · exact ihBelow hbelow hs₂ hinner
    obtain ⟨hs₅, e', he', hentered'⟩ := Walker.call_entered hw (v := ⟨r, slot, root⟩) hpart (hheap₄ ▸ hs₃) hcall'
    obtain ⟨hs', log', hlog', hsub'⟩ := ihRest hrest hs₅ hend
    refine ⟨hs', [e] ++ (log ++ ([e'] ++ log')), ?_, ?_⟩
    · rw [hlog', he', huser₄, hlog, he, huser₁]
      simp
    · rw [entered_append, entered_append, entered_append, hentered, hentered', if_pos rfl, if_neg (by decide),
        List.nil_append, Route.nodes, List.map_cons, List.map_append]
      exact (hsub.append hsub').cons_cons _

end

/-- What is shown on entering in a walk that observes a tree are nodes of the tree, in the order of its value. -/
theorem walk_entered {w : Walker σ} {t : Layout} (hw : w.Observes t) (hkeys : ∀ e ∈ t.cells, e.2.KeysOnce)
    (hn : t.isNode = true) {s s' : World σ} {d : Datum} (hs : s.heap.Holds t) {steps : Nat}
    (hsteps : t.steps ≤ steps) (hrun : w.walk steps t.datum s = .ok d s') :
    ∃ nodes : List (List (Key × Value)), (entered (w.log steps t.datum s)).Sublist (nodes.map Value.startOf?) ∧
      (∀ fields ∈ nodes, (Value.typeOf? fields).isSome = true) ∧
      nodes.Sublist ((Value.records none t.value).map Occurrence.fields) := by
  obtain ⟨rfl, hroute⟩ := walk_recorded_route hw hkeys hn hs hsteps hrun
  generalize w.log steps t.datum s = log at hroute ⊢
  have hs₀ : (s.withUser (s.user, ([] : List Showing))).heap.Holds t := hs
  obtain ⟨-, log', hlog', hsub⟩ := Route.run_entered hw t.datum (t.route_within .root) hs₀ hroute
  obtain rfl : log = log' := by simpa [World.withUser] using hlog'
  exact ⟨_, hsub, t.typed_of_mem_nodes .root, t.nodes_route_sublist.1 .root⟩

/-! ## Programs -/

namespace Lowering

/-- A program is a node. -/
theorem programOf_isNode (source : Source) (sourceType : Value) (root : Cst) :
    IfOk (fun program => program.isNode = true) (programOf source sourceType root) := by
  rw [programOf_eq]
  exact (ifOk_true _).bind fun body _ => Yields.pure.2 rfl

theorem Survey.Sound.exists_start {S : Survey} {holder? : Option Holder} {fields : List (Key × Value)}
    (h : S.Sound holder? fields) (htyped : (Value.typeOf? fields).isSome = true) :
    (Value.startOf? fields).isSome = true := by
  cases h with
  | bare _ type?_eq =>
    rw [type?_eq] at htyped
    cases htyped
  | node => rfl

end Lowering

/-- If a syntax tree is in order, a walk that observes its program comes to an end, and shows the nodes in the
    order in which they start. -/
theorem walk_in_source_order {source : Source} {sourceType : Scalar} {root : Cst} {program : Value}
    (hprogram : Lowering.programOf source (.scalar sourceType) root = .ok program)
    (horder : root.Everywhere fun u => Lowering.InOrder u.token (u.children.map Tree.token))
    (hsize : root.token.stop ≤ source.size) (h : Heap) {w : Walker σ} (hw : w.Observes (h.loaded program))
    (ha : w.Answers (h.loaded program)) {s : World σ} (hs : s.heap.Holds (h.loaded program)) {steps : Nat}
    (hsteps : (h.loaded program).steps ≤ steps) :
    ∃ s', w.walk steps (h.loaded program).datum s = .ok (h.loaded program).datum s' ∧
      ∃ offsets : List Int, entered (w.log steps (h.loaded program).datum s) = offsets.map some ∧
        offsets.Pairwise (· ≤ ·) := by
  have hvalue := (h.holds_loaded program).1
  have hn : (h.loaded program).isNode = true := by
    rw [← Layout.isNode_value, hvalue]
    exact (Lowering.programOf_isNode source (.scalar sourceType) root).of_eq_ok hprogram
  have htidy : (h.loaded program).value.Tidy := by
    rw [hvalue]
    have hallows : root.Everywhere fun u =>
        Lowering.Allows (fun _ => True) source u.token (u.children.map Tree.token) :=
      fun u _ => Lowering.allows_true source u.token _
    exact (Lowering.programOf_yields hallows (.scalar sourceType)).of_eq_ok hprogram (.scalar sourceType)
  have hkeys := Layout.keysOnce_of_tidy htidy
  obtain ⟨s', hrun, -⟩ := walk_returns hw ha (Layout.iterable_of_tidy htidy) hkeys hn hs hsteps
  obtain ⟨nodes, hentered, htyped, hnodes⟩ := walk_entered hw hkeys hn hs hsteps hrun
  rw [hvalue] at hnodes
  have hdrawn := Lowering.programOf_surveyed hprogram (id : True → True)
    (fun _ u hu => (horder u hu).nests) (fun _ => horder) fun _ => hsize
  -- every node has a start, and these stand in order
  have hstarts : nodes.map Value.startOf? = (nodes.filterMap Value.startOf?).map some := by
    rw [List.map_filterMap_some_eq_filter_map_isSome, List.filter_eq_self.2]
    refine List.forall_mem_map.2 fun fields hmem => ?_
    obtain ⟨o, ho, rfl⟩ := List.mem_map.1 (hnodes.subset hmem)
    exact (hdrawn.sound o ho).exists_start (htyped _ hmem)
  rw [hstarts] at hentered
  obtain ⟨offsets, hoffsets, heq⟩ := List.sublist_map_iff.1 hentered
  refine ⟨s', hrun, offsets, heq, List.Pairwise.sublist (hoffsets.trans (hnodes.filterMap _)) ?_⟩
  rw [← starts_eq]
  exact hdrawn.sorted trivial (List.pairwise_singleton _ _)

namespace Sample

/-- A walk that looks at every node on entering it. -/
def watcher : Walker Unit := ⟨some fun _ => pure .empty, none, false⟩

theorem watcher_observes (t : Layout) : watcher.Observes t := by
  intro phase c hc v s q s' h hs
  cases phase with
  | enter =>
    cases hc
    obtain ⟨rfl, rfl⟩ := pure_eq_ok.1 h
    exact ⟨⟨rfl, rfl⟩, hs, rfl⟩
  | leave => cases hc

theorem watcher_answers (t : Layout) : watcher.Answers t := by
  intro phase c hc v s _
  cases phase with
  | enter =>
    cases hc
    exact ⟨_, s, rfl⟩
  | leave => cases hc

/-- A walk starts with a program that has been loaded. -/
def loadedWorld (program : Value) : World Unit := ⟨(Heap.empty.load program).2, .fresh false, [], ()⟩

/-- The tree of `let a: T = b`. -/
def typedTree : Cst :=
  .branch "program" 0 12 none [
    .branch "lexical_declaration" 0 12 none [
      .leaf "let" false 0 3 (some "kind"),
      .branch "variable_declarator" 4 12 none [
        .leaf "identifier" true 4 5 (some "name"),
        .branch "type_annotation" 5 8 (some "type") [
          .leaf ":" false 5 6 none, .leaf "type_identifier" true 7 8 none],
        .leaf "=" false 9 10 none,
        .leaf "identifier" true 11 12 (some "value")]]]

def typedSource : Source := .ofText "let a: T = b"

def typedProgram : Value :=
  (Lowering.programOf typedSource (.text "module") typedTree).toOption.getD .null

/-- The name, its type and the value are shown one after another. -/
theorem walk_in_source_order_typed :
    entered (watcher.log 60 (Heap.empty.loaded typedProgram).datum (loadedWorld typedProgram)) =
        [some 0, some 0, some 4, some 4, some 5, some 7, some 7, some 11] ∧
      ∃ s', watcher.walk 60 (Heap.empty.loaded typedProgram).datum (loadedWorld typedProgram) =
          .ok (Heap.empty.loaded typedProgram).datum s' ∧
        ∃ offsets : List Int,
          entered (watcher.log 60 (Heap.empty.loaded typedProgram).datum (loadedWorld typedProgram)) =
            offsets.map some ∧ offsets.Pairwise (· ≤ ·) := by
  have hprogram : Lowering.programOf typedSource (.text "module") typedTree = .ok typedProgram := rfl
  refine ⟨by decide +kernel, ?_⟩
  exact walk_in_source_order hprogram (by decide +kernel) (by decide) .empty (watcher_observes _)
    (watcher_answers _) (Heap.empty.holds_loaded typedProgram).2.2 (by decide +kernel)

/-- The tree of `interface A extends B {}`. -/
def extending : Cst :=
  .branch "program" 0 24 none [
    .branch "interface_declaration" 0 24 none [
      .leaf "interface" false 0 9 none,
      .leaf "type_identifier" true 10 11 (some "name"),
      .branch "extends_type_clause" 12 21 none [
        .leaf "extends" false 12 19 none, .leaf "type_identifier" true 20 21 (some "type")],
      .branch "interface_body" 22 24 (some "body") [
        .leaf "\x7b" false 22 23 none, .leaf "\x7d" false 23 24 none]]]

def extendingSource : Source := .ofText "interface A extends B \x7b\x7d"

def extendingProgram : Value :=
  (Lowering.programOf extendingSource (.text "module") extending).toOption.getD .null

/-- All children of this tree stand in order, but the clause, which has no field, is shown after the body. -/
theorem entered_extending :
    (extending.Everywhere fun u => Lowering.Nests u.token (u.children.map Tree.token) ∧
      (u.children.map Tree.token).Pairwise (fun b c => b.stop ≤ c.start) ∧
      Lowering.Ranked (Lowering.grammarOrder u.kind) (u.children.map Tree.token)) ∧
    Lowering.programOf extendingSource (.text "module") extending = .ok extendingProgram ∧
    entered (watcher.log 60 (Heap.empty.loaded extendingProgram).datum (loadedWorld extendingProgram)) =
      [some 0, some 0, some 10, some 22, some 12, some 20] ∧
    ¬ ([0, 0, 10, 22, 12, 20] : List Int).Pairwise (· ≤ ·) := by
  exact ⟨by decide +kernel, rfl, by decide +kernel, by decide⟩

end Sample

end Arbor
