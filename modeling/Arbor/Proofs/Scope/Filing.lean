import Arbor.Proofs.Scope.Keeping
import Arbor.Proofs.Scope.Names
import Arbor.Proofs.Scope.Positions

set_option autoImplicit false

/-! # What is declared where

A tracker files every declaration under the path of the current scope. What it has stored under a path
after some steps is what it stored before, with the declarations filed there on the way recorded in their
order (`Tracker.applyAll_bindings`). What a node declares, and in which of the scopes around it or opened by
it, is told by the layout of the node (`Layout.declares`); a tracker that enters the node files just
this (`filed_ofNode`). -/

namespace Arbor

namespace Scope

open Actions

/-- A declaration with the path of the scope that it is made in. -/
abbrev Filing := ScopePath × Entry

/-- Declarations that are all made in one scope. -/
def filedIn (path : ScopePath) (entries : List Entry) : List Filing := entries.map fun e => (path, e)

/-- The declarations that are made in a given scope. -/
def under (path : ScopePath) (filings : List Filing) : List Entry :=
  (filings.filter fun f => f.1 = path).map Prod.snd

/-- Record declarations in a scope one after another. Of those of one name the last one counts. -/
def recordAll (path : ScopePath) (bindings : Bindings) (entries : List Entry) : Bindings :=
  entries.foldl (fun b e => Fields.set b e.name (e.declaration path)) bindings

@[simp] theorem filedIn_nil (path : ScopePath) : filedIn path [] = [] := rfl

theorem filedIn_append (path : ScopePath) (entries entries' : List Entry) :
    filedIn path (entries ++ entries') = filedIn path entries ++ filedIn path entries' :=
  List.map_append

theorem under_append (path : ScopePath) (filings filings' : List Filing) :
    under path (filings ++ filings') = under path filings ++ under path filings' := by
  rw [under, List.filter_append, List.map_append]
  rfl

theorem under_filedIn (path other : ScopePath) (entries : List Entry) :
    under path (filedIn other entries) = if other = path then entries else [] := by
  rw [under, filedIn, List.filter_map, List.map_map]
  by_cases h : other = path
  · rw [if_pos h, List.filter_eq_self.2 (by simp [h])]
    exact List.map_id entries
  · rw [if_neg h, List.filter_eq_nil_iff.2 (by simp [h])]
    rfl

theorem recordAll_append (path : ScopePath) (bindings : Bindings) (entries entries' : List Entry) :
    recordAll path bindings (entries ++ entries') =
      recordAll path (recordAll path bindings entries) entries' := List.foldl_append

theorem mem_keys_recordAll {path : ScopePath} {bindings : Bindings} {entries : List Entry}
    {name : Text} :
    name ∈ Fields.keys (recordAll path bindings entries) ↔
      name ∈ Fields.keys bindings ∨ ∃ e ∈ entries, e.name = name := by
  induction entries generalizing bindings with
  | nil => simp [recordAll]
  | cons e entries ih =>
    have hset : name ∈ Fields.keys (Fields.set bindings e.name (e.declaration path)) ↔
        name ∈ Fields.keys bindings ∨ e.name = name := by
      rw [Fields.keys_set]
      split
      · next h =>
        constructor
        · exact .inl
        · rintro (h' | rfl)
          · exact h'
          · exact h
      · rw [List.mem_append, List.mem_singleton, eq_comm (a := name)]
    rw [recordAll, List.foldl_cons, ← recordAll, ih, hset, or_assoc]
    simp only [List.mem_cons, exists_eq_or_imp]

theorem get?_recordAll_of_forall_ne {path : ScopePath} {bindings : Bindings} {entries : List Entry} {name : Text}
    (h : ∀ e ∈ entries, e.name ≠ name) :
    Fields.get? (recordAll path bindings entries) name = Fields.get? bindings name := by
  induction entries generalizing bindings with
  | nil => rfl
  | cons e entries ih =>
    obtain ⟨he, hentries⟩ := List.forall_mem_cons.1 h
    rw [recordAll, List.foldl_cons, ← recordAll, ih hentries, Fields.get?_set_of_ne _ _ he]

/-- A name that is declared has the record of one of its declarations. -/
theorem exists_get?_recordAll {entries : List Entry} {name : Text} (h : ∃ e ∈ entries, e.name = name)
    (path : ScopePath) (bindings : Bindings) :
    ∃ e ∈ entries, e.name = name ∧
      Fields.get? (recordAll path bindings entries) name = some (e.declaration path) := by
  induction entries generalizing bindings with
  | nil =>
    obtain ⟨e, he, -⟩ := h
    cases he
  | cons e entries ih =>
    rw [recordAll, List.foldl_cons, ← recordAll]
    by_cases hlater : ∃ e ∈ entries, e.name = name
    · obtain ⟨e', he', hname, hget⟩ := ih hlater _
      exact ⟨e', List.mem_cons_of_mem _ he', hname, hget⟩
    · have hnone : ∀ e' ∈ entries, e'.name ≠ name := fun e' he' hname => hlater ⟨e', he', hname⟩
      obtain ⟨e', he', hname⟩ := h
      obtain rfl | he' := List.mem_cons.1 he'
      · refine ⟨e', List.mem_cons_self .., hname, ?_⟩
        rw [get?_recordAll_of_forall_ne hnone, hname, Fields.get?_set_self]
      · exact absurd hname (hnone e' he')

/-- No name is recorded twice. -/
theorem nodup_keys_recordAll {path : ScopePath} {bindings : Bindings} {entries : List Entry}
    (h : (Fields.keys bindings).Nodup) : (Fields.keys (recordAll path bindings entries)).Nodup := by
  induction entries generalizing bindings with
  | nil => exact h
  | cons e entries ih =>
    refine ih ?_
    rw [Fields.keys_set]
    split
    · exact h
    · next hmem =>
      refine List.nodup_append.2 ⟨h, List.pairwise_singleton _ _, fun a ha b hb hab => hmem ?_⟩
      rwa [hab, List.mem_singleton.1 hb] at ha

/-- Every name that is declared in a scope has one record there. -/
theorem one_record {path : ScopePath} {entries : List Entry} {e : Entry} (he : e ∈ entries) :
    ((recordAll path [] entries).filter fun b => b.1 = e.name).length = 1 := by
  have hmem : e.name ∈ Fields.keys (recordAll path [] entries) :=
    mem_keys_recordAll.2 (.inr ⟨e, he, rfl⟩)
  have hnone : (Fields.keys ([] : Bindings)).Nodup := List.nodup_nil
  have hcount := List.count_eq_one_of_mem (nodup_keys_recordAll hnone) hmem
  rw [Fields.keys, List.count, List.countP_map, List.countP_eq_length_filter] at hcount
  exact hcount

/-! ## What is filed on the way -/

/-- The path of the current scope, by the counters of a tracker. -/
def pathOf (counters : List Nat) : ScopePath := counters.tail.reverse

/-- The declarations that several steps make, by the counters before. -/
def filed (counters : List Nat) : List Effect → List Filing
  | [] => []
  | .push :: effects => filed (0 :: counters) effects
  | e :: effects => filedIn (pathOf counters) e.entries ++ filed counters effects

/-- What is filed in scopes that are opened one inside the other, by the counters in the first of them. -/
def filedOpened (counters : List Nat) : List (List Entry) → List Filing
  | [] => []
  | entries :: inner => filedIn (pathOf counters) entries ++ filedOpened (0 :: counters) inner

/-- Steps file what they declare, scope by scope. -/
theorem filed_eq (counters : List Nat) (effects : List Effect) :
    filed counters effects = filedIn (pathOf counters) (Scoping.ofSteps effects).here ++
      filedOpened (0 :: counters) (Scoping.ofSteps effects).opened := by
  induction effects generalizing counters with
  | nil => rfl
  | cons e effects ih =>
    cases e with
    | push => exact ih (0 :: counters)
    | _ =>
      rw [filed, ih, Scoping.ofSteps, filedIn_append, List.append_assoc]
      all_goals simp

namespace Tracker

variable {T T' : Tracker}

theorem declareAll_bindings (T : Tracker) (entries : List Entry) (path : ScopePath) :
    (T.declareAll entries).bindings path =
      recordAll path (T.bindings path) (under path (filedIn T.path entries)) := by
  rw [under_filedIn]
  unfold declareAll
  induction entries generalizing T with
  | nil => split <;> rfl
  | cons e entries ih =>
    rw [List.foldl_cons, ih, bindings_declare, path_declare]
    split
    · next h =>
      subst h
      rfl
    · rfl

/-- What several steps store under a path. -/
theorem applyAll_bindings {effects : List Effect} {u : Unit} (hf : T.frozen = false)
    (hrun : applyAll effects T = .ok u T') (path : ScopePath) :
    T'.bindings path =
      recordAll path (T.bindings path) (under path (filed T.counters effects)) := by
  induction effects generalizing T with
  | nil =>
    obtain ⟨-, rfl⟩ := pure_eq_ok.1 hrun
    rfl
  | cons e effects ih =>
    obtain ⟨_, T₁, happly, hrun⟩ := bind_eq_ok.1 hrun
    have hf₁ := (keeps_apply happly).frozen.trans hf
    rw [ih hf₁ hrun]
    cases e with
    | push =>
      obtain rfl := modify_eq_ok.1 happly
      rfl
    | fail f => exact absurd happly throw_eq_ok
    | declare entries? =>
      rw [apply_declare_eq_ok, if_neg (by simp [hf])] at happly
      obtain ⟨entries, rfl, rfl⟩ := happly
      rw [filed, under_append, recordAll_append, declareAll_bindings, counters_declareAll]
      · rfl
      · simp

end Tracker

end Scope

/-! ## What a node declares -/

open Scope

namespace Layout

/-- The name of a node, as a declaration made by `node`. -/
def nameEntry (t : Layout) (kind : BindingKind) (node : Ref) (owner? : Option Ref) : List Entry :=
  (t.name?.map fun name => ⟨name, kind, node, owner?⟩).toList

/-- The identifiers that a pattern binds, as declarations made by `owner`. -/
def patternEntries (t : Layout) (kind : BindingKind) (owner : Ref) : List Entry :=
  t.bound.map fun b => ⟨b.2, kind, b.1, some owner⟩

/-- The parameters of the function `r`. -/
def paramEntries (t : Layout) (r : Ref) : List Entry :=
  (t.elements "params").flatMap fun u => u.patternEntries .param r

/-- The variables of the declaration `r`. -/
def variableEntries (t : Layout) (r : Ref) : List Entry :=
  (t.elements "declarations").flatMap fun u =>
    if u.isNode then (u.field "id").patternEntries .var r else []

/-- The variables that the head of a loop declares. -/
def headEntries (t : Layout) (head : Text) : List Entry :=
  match t.field head with
  | record x fields =>
    if (record x fields).type? = some "VariableDeclaration" then (record x fields).variableEntries x
    else []
  | _ => []

/-- The name of a class. -/
def classEntry (t : Layout) : List Entry :=
  match t.field "id" with
  | record id fields => (record id fields).nameEntry .identifier id none
  | _ => []

/-- The local names of the import `r`. -/
def importEntries (t : Layout) (r : Ref) : List Entry :=
  (t.elements "specifiers").flatMap fun u =>
    match u with
    | record x fields =>
      if (record x fields).isNode then
        ((record x fields).field "local").nameEntry .imported x (some r)
      else []
    | _ => []

/-- What the node `r` declares, as a node with a given role, in three scopes: the scope `outer` that it
    lies in, the scope `first` that it opens first, and the scope `inner` that is current inside it. -/
def declaresAs (t : Layout) (r : Ref) (outer first inner : ScopePath) : Role → List Filing
  | .functionDeclaration =>
    filedIn outer ((t.field "id").nameEntry .function r none) ++ filedIn inner (t.paramEntries r)
  | .functionExpression =>
    filedIn first ((t.field "id").nameEntry .function r none) ++ filedIn inner (t.paramEntries r)
  | .arrowFunction => filedIn inner (t.paramEntries r)
  | .variableDeclaration => filedIn outer (t.variableEntries r)
  | .classDeclaration => filedIn outer t.classEntry
  | .classExpression => filedIn inner t.classEntry
  | .importDeclaration => filedIn outer (t.importEntries r)
  | .catchClause => filedIn inner ((t.field "param").patternEntries .catchParam r)
  | .loop head => filedIn inner (t.headEntries head)
  | .block => []
  | .other => []

/-- What a node declares. -/
def declares (t : Layout) (outer first inner : ScopePath) : List Filing :=
  match t, t.type? with
  | record r fields, some type => (record r fields).declaresAs r outer first inner (.ofType type)
  | _, _ => []

/-- The declaration in the head of a loop. -/
def head? (t : Layout) : Option Layout :=
  match t.type?.map Role.ofType with
  | some (.loop head) =>
    if (t.field head).type? = some "VariableDeclaration" then some (t.field head) else none
  | _ => none

theorem declares_of_type {r : Ref} {fields : List (Key × Layout)} {type : Text}
    (ht : (record r fields).type? = some type) (outer first inner : ScopePath) :
    (record r fields).declares outer first inner =
      (record r fields).declaresAs r outer first inner (.ofType type) := by
  simp only [declares, ht]

/-- The head of a loop is in one of its fields. -/
theorem exists_field_of_head {r : Ref} {fields : List (Key × Layout)} {u : Layout}
    (h : (record r fields).head? = some u) : ∃ f ∈ fields, f.2 = u ∧ f.2.isNode = true := by
  unfold head? at h
  split at h
  · next head hrole =>
    split at h
    · next htype =>
      obtain rfl := Option.some.inj h
      have hn := isNode_of_type htype
      rcases field_of_record r fields head with hnull | ⟨f, hf, heq⟩
      · rw [hnull] at hn
        cases hn
      · refine ⟨f, hf, ?_⟩
        rw [heq]
        exact ⟨rfl, hn⟩
    · cases h
  · cases h

/-- A loop declares in its own scope what the declaration in its head declares there. -/
theorem declares_head {t u : Layout} (h : t.head? = some u) (outer first inner first' inner' : ScopePath) :
    t.declares outer first inner = u.declares inner first' inner' := by
  cases t with
  | record r fields =>
    cases ht : (record r fields).type? with
    | none => simp [head?, ht] at h
    | some type =>
      rw [declares_of_type ht]
      simp only [head?, ht, Option.map_some] at h
      split at h
      · next head hrole =>
        have hloop : Role.ofType type = .loop head := Option.some.inj hrole
        rw [hloop, declaresAs, headEntries]
        split at h
        · next htype =>
          obtain rfl := Option.some.inj h
          generalize (record r fields).field head = u at htype
          cases u with
          | record x fs =>
            rw [declares_of_type htype]
            simp only [htype, if_true]
            rfl
          | _ => cases htype
        · cases h
      · cases h
  | _ => simp [head?, type?] at h

theorem mem_filedIn {path : ScopePath} {entries : List Entry} {b : Filing}
    (hb : b ∈ filedIn path entries) : b.1 = path := by
  obtain ⟨e, -, rfl⟩ := List.mem_map.1 hb
  rfl

/-- A node declares in the scope that it lies in, or in those that it opens. -/
theorem declares_path {t : Layout} {outer first inner : ScopePath} {b : Filing}
    (hb : b ∈ t.declares outer first inner) :
    b.1 = outer ∨ b.1 = first ∧ t.opens = 2 ∨ b.1 = inner ∧ 0 < t.opens := by
  cases t with
  | record r fields =>
    cases ht : (record r fields).type? with
    | none => simp [declares, ht] at hb
    | some type =>
      rw [declares_of_type ht] at hb
      rw [opens, ht]
      simp only
      cases hrole : Role.ofType type <;> rw [hrole, declaresAs] at hb
      case block => cases hb
      case other => cases hb
      case functionDeclaration =>
        rcases List.mem_append.1 hb with hb | hb
        · exact .inl (mem_filedIn hb)
        · exact .inr (.inr ⟨mem_filedIn hb, Nat.one_pos⟩)
      case functionExpression =>
        rcases List.mem_append.1 hb with hb | hb
        · exact .inr (.inl ⟨mem_filedIn hb, rfl⟩)
        · exact .inr (.inr ⟨mem_filedIn hb, Nat.two_pos⟩)
      case variableDeclaration => exact .inl (mem_filedIn hb)
      case classDeclaration => exact .inl (mem_filedIn hb)
      case importDeclaration => exact .inl (mem_filedIn hb)
      all_goals exact .inr (.inr ⟨mem_filedIn hb, Nat.one_pos⟩)
  | _ => cases hb

end Layout

/-! ## What a tracker files for a node -/

namespace Scope

open Layout

variable {h : Heap} {r : Ref} {fields : List (Key × Layout)}

/-- The lists of a tree whose lists can be gone through are gone through. -/
theorem failsBy_of_holds {t : Layout} (ht : h.Holds t) (hw : t.Iterable) :
    DatumFailsBy h (fun _ => False) t.datum :=
  fun _ hr x hx hn name hname f hf => (ht.failsBy (mem_parts_self t) hr x hx hn name hname f hf).2 hw

theorem nameEntries_of_holds {t : Layout} (ht : h.Holds t) (kind : BindingKind) (node : Ref)
    (owner? : Option Ref) : h.nameEntries kind t.datum node owner? = t.nameEntry kind node owner? := by
  rw [nameEntries_eq, ht.name?_eq, nameEntry]

theorem patternEntries_of_holds {t : Layout} (ht : h.Holds t) (hw : t.Iterable) (kind : BindingKind)
    (owner : Ref) : h.patternEntries kind owner t.datum = t.patternEntries kind owner := by
  have hentries := (boundWithin_entries kind owner (h.cells.size + 1) (failsBy_of_holds ht hw)).of_eq_ok
    (boundIdentifiers_of_holds ht hw)
  rw [Heap.patternEntries, ← hentries, List.filterMap_map, patternEntries, ← List.filterMap_eq_map]
  refine List.filterMap_congr fun b hb => ?_
  obtain ⟨u, hu, hdatum, hname⟩ := exists_of_mem_bound hb
  rw [Function.comp_apply, entryOf?, ← hdatum, (ht.of_part hu).name?_eq, hname]
  rfl

/-- What is declared for each node of a list is declared for the list. -/
theorem flatMap_nodesIn_of_holds (ht : h.Holds (.record r fields)) (hw : (record r fields).Iterable)
    (hn : (record r fields).isNode = true) {name : Text} (hname : name ∈ Heap.listFields)
    {e : Ref → List Entry} {g : Layout → List Entry} (hdata : ∀ u, u.isNode = false → g u = [])
    (hnode : ∀ x fs, record x fs ∈ (record r fields).parts → (record x fs).isNode = true →
      e x = g (record x fs)) :
    (h.nodesIn r name).flatMap e = ((record r fields).elements name).flatMap g := by
  have hlisted : h.listed r name = ((record r fields).elements name).map datum := by
    have helements := elements_listed (failsBy_of_holds ht hw r rfl) (ht.isNode.trans hn) hname
    rw [ht.elements_eq hw hn hname] at helements
    exact (Except.ok.inj helements).symm
  rw [flatMap_nodesIn, hlisted, List.flatMap_map]
  refine List.flatMap_congr fun u hu => ?_
  have hpart := elements_parts r fields name hu
  have hisNode := (ht.of_part hpart).isNode
  cases u with
  | scalar s => exact (hdata _ rfl).symm
  | list x items =>
    rw [datum_list] at hisNode
    simp only [datum_list, hisNode]
    exact (hdata _ rfl).symm
  | record x fs =>
    rw [datum_record] at hisNode
    simp only [datum_record, hisNode]
    split
    · next hx => exact hnode x fs hpart hx
    · next hx => exact (hdata _ (Bool.eq_false_iff.2 hx)).symm

/-! ## The parts that nodes play -/

section

variable (ht : h.Holds (.record r fields)) (hw : (record r fields).Iterable)
  (hn : (record r fields).isNode = true)

include ht

theorem functionEntries_of_holds :
    h.functionEntries r = ((record r fields).field "id").nameEntry .function r none := by
  rw [Heap.functionEntries, ht.field_eq]
  exact nameEntries_of_holds (ht.of_field "id") ..

theorem classEntries_of_holds : h.classEntries r = (record r fields).classEntry := by
  have hheld := ht.of_field "id"
  rw [Heap.classEntries, ht.field_eq, classEntry]
  generalize (record r fields).field "id" = u at hheld
  cases u with
  | scalar s => rfl
  | list x items =>
    have htype : h.nodeType? (.ref x) = none := hheld.nodeType?
    simp [Heap.nameEntries, htype]
  | record x fs => exact nameEntries_of_holds hheld ..

include hw

theorem catchEntries_of_holds :
    h.catchEntries r = ((record r fields).field "param").patternEntries .catchParam r := by
  rw [Heap.catchEntries, ht.field_eq]
  exact patternEntries_of_holds (ht.of_field "param") (hw.of_field "param") ..

include hn

theorem paramEntries_of_holds : h.paramEntries r = (record r fields).paramEntries r := by
  refine flatMap_nodesIn_of_holds ht hw hn (by decide) (fun u hu => ?_) fun x fs hpart _ => ?_
  · rw [patternEntries, bound_of_not_isNode hu]
    rfl
  · exact patternEntries_of_holds (ht.of_part hpart) (hw.of_part hpart) ..

theorem variableEntries_of_holds : h.variableEntries r = (record r fields).variableEntries r := by
  refine flatMap_nodesIn_of_holds ht hw hn (by decide) (fun u hu => ?_) fun x fs hpart hx => ?_
  · rw [if_neg (by simp [hu])]
  · rw [if_pos hx, (ht.of_part hpart).field_eq]
    exact patternEntries_of_holds ((ht.of_part hpart).of_field "id") ((hw.of_part hpart).of_field "id") ..

theorem importEntries_of_holds : h.importEntries r = (record r fields).importEntries r := by
  refine flatMap_nodesIn_of_holds ht hw hn (by decide) (fun u hu => ?_) fun x fs hpart hx => ?_
  · cases u with
    | record x fs => exact if_neg (by simp [hu])
    | _ => rfl
  · simp only [hx, if_true]
    rw [(ht.of_part hpart).field_eq]
    exact nameEntries_of_holds ((ht.of_part hpart).of_field "local") ..

omit hn in
theorem headEntries_of_holds (head : Text) :
    h.headEntries r head = (record r fields).headEntries head := by
  have hheld := ht.of_field head
  have hshaped := hw.of_field head
  rw [Heap.headEntries, ht.field_eq, headEntries]
  generalize (record r fields).field head = u at hheld hshaped
  cases u with
  | scalar s => rfl
  | list x items =>
    have hnone : h.nodeType? (.ref x) = none := hheld.nodeType?
    have htype : h.field x "type" ≠ .text "VariableDeclaration" := fun htype => by
      rw [nodeType?_eq_some.2 htype] at hnone
      cases hnone
    exact if_neg htype
  | record x fs =>
    have htype : (record x fs).type? = some "VariableDeclaration" ↔
        h.field x "type" = .text "VariableDeclaration" := by
      rw [← hheld.nodeType?]
      exact nodeType?_eq_some
    simp only [datum_record, htype]
    split
    · next hdeclaration =>
      exact variableEntries_of_holds hheld hshaped (isNode_of_type (htype.2 hdeclaration))
    · rfl

/-- What a node files, as a node with the role of its type, after some counters. -/
theorem filed_scopingAs (counters : List Nat) (role : Role) :
    filedIn (pathOf counters) (scopingAs h r role).here ++
        filedOpened (0 :: counters) (scopingAs h r role).opened =
      (record r fields).declaresAs r (pathOf counters) (pathOf (0 :: counters))
        (pathOf (opened role.opens counters)) role := by
  have hvariables := variableEntries_of_holds ht hw hn
  have himports := importEntries_of_holds ht hw hn
  have hparams := paramEntries_of_holds ht hw hn
  cases role <;>
    simp [scopingAs, filedOpened, declaresAs, opened, Role.opens, functionEntries_of_holds ht,
      classEntries_of_holds ht, catchEntries_of_holds ht hw, headEntries_of_holds ht hw, hvariables,
      himports, hparams]

end

/-- What a tracker files for a node that it enters. -/
theorem filed_ofNode (ht : h.Holds (.record r fields)) (hw : (record r fields).Iterable)
    (hn : (record r fields).isNode = true) (counters : List Nat) :
    filed counters (Effect.ofNode h r) =
      (record r fields).declares (pathOf counters) (pathOf (0 :: counters))
        (pathOf (opened (record r fields).opens counters)) := by
  obtain ⟨type, htype⟩ := Option.isSome_iff_exists.1 hn
  have hnode := ht.nodeType?.trans htype
  rw [filed_eq, ofSteps_ofNode (failsBy_of_holds ht hw r rfl) hnode, scoping_of_type hnode,
    filed_scopingAs ht hw hn]
  simp only [declares, opens, htype]

end Scope

end Arbor
