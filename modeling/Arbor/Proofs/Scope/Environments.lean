import Arbor.Proofs.Scope.Order
import Arbor.Proofs.Scope.Scopings

set_option autoImplicit false

/-! # A tracker as a stack of environments

A tracker stores the declarations of all scopes in one table under their paths, and looks names up
along the path of the current scope. This module shows that it answers as a stack of environments
does, of which nothing is left when a scope is left (`lookup_environments`). What a node opens and
declares there is told by its type and its fields (`Heap.scoping`), and not by the steps that a tracker
takes.

What carries the proof is the order of paths. The counters of a tracker tell the path of the scope
that is opened next, and whatever is stored is stored under a path before it (`Stands.used`): so
nothing is stored yet under the path of a scope that is opened, even if the scopes that have been
left are kept. -/

namespace Arbor.Scope

open Actions

/-! ## Environments -/

/-- What each name is declared as in one scope. -/
abbrev Environment := Text → Option Entry

/-- The environments of the open scopes, the innermost first. -/
abbrev Environments := List Environment

namespace Environments

/-- Declare a name in the innermost scope. What it was declared as there before no longer counts. -/
def declare (envs : Environments) (e : Entry) : Environments :=
  match envs with
  | [] => []
  | env :: outer => (fun name => if name = e.name then some e else env name) :: outer

/-- Declare several names in the innermost scope, one after another. -/
def declareAll (envs : Environments) (entries : List Entry) : Environments := entries.foldl declare envs

/-- Open a scope. Nothing is declared in it yet. -/
def push (envs : Environments) : Environments := (fun _ => none) :: envs

/-- Go into a node: declare what it declares where it stands, then open its scopes one by one and declare
    in each of them what it declares there. -/
def enter (envs : Environments) (s : Scoping) : Environments :=
  s.opened.foldl (fun envs entries => envs.push.declareAll entries) (envs.declareAll s.here)

/-- Go out of a node: its scopes are left, and what has been declared in them is gone. -/
def leave (envs : Environments) (s : Scoping) : Environments := envs.drop s.opened.length

/-- The nearest declaration of a name, and the depth of the scope it was made in. -/
def lookup (name : Text) : Environments → Option (Nat × Entry)
  | [] => none
  | env :: outer =>
    match env name with
    | some e => some (outer.length, e)
    | none => lookup name outer

theorem length_declareAll (envs : Environments) (entries : List Entry) :
    (envs.declareAll entries).length = envs.length := by
  rw [declareAll]
  induction entries generalizing envs with
  | nil => rfl
  | cons e entries ih =>
    rw [List.foldl_cons, ih]
    cases envs <;> rfl

theorem length_enter (envs : Environments) (s : Scoping) :
    (envs.enter s).length = s.opened.length + envs.length := by
  rw [enter, ← length_declareAll envs s.here]
  generalize envs.declareAll s.here = envs
  induction s.opened generalizing envs with
  | nil => simp
  | cons entries opened ih =>
    rw [List.foldl_cons, ih, length_declareAll, push, List.length_cons, List.length_cons]
    omega

/-- Carry out a step of a node. -/
def step (envs : Environments) : Effect → Environments
  | .push => envs.push
  | e => envs.declareAll e.entries

/-- The steps of a node go where the node is told to go. -/
theorem foldl_step (effects : List Effect) (envs : Environments) :
    effects.foldl step envs = envs.enter (.ofSteps effects) := by
  induction effects generalizing envs with
  | nil => rfl
  | cons e effects ih =>
    rw [List.foldl_cons, ih]
    cases e with
    | push => rfl
    | _ =>
      rw [step, Scoping.ofSteps, enter, enter, declareAll, declareAll, declareAll, List.foldl_append]
      all_goals simp

theorem step_ne_nil {envs : Environments} (e : Effect) (hne : envs ≠ []) : envs.step e ≠ [] := by
  rw [← List.length_pos_iff] at hne ⊢
  cases e with
  | push => exact Nat.succ_pos _
  | _ => rwa [step, length_declareAll]; simp

end Environments

/-! ## Calls -/

def runAll : List Call → EStateM Fault Tracker Unit
  | [] => pure ()
  | c :: rest => do
    c.run
    runAll rest

/-- What a call does to environments. -/
def Environments.call (envs : Environments) (c : Call) : Environments :=
  match c.phase with
  | .enter => envs.enter (c.heap.scoping c.node)
  | .leave => envs.leave (c.heap.scoping c.node)

/-- The environments after several calls. -/
def Environments.after (calls : List Call) : Environments := calls.foldl call []

/-- Calls that are well nested, and the nodes that are entered and not left yet, the innermost first,
    with their types. The outermost one is a program. -/
inductive Nested : List Call → List (Ref × Text) → Prop
  | program {h : Heap} {r : Ref} (ht : h.nodeType? (.ref r) = some "Program") :
      Nested [⟨.enter, h, r⟩] [(r, "Program")]
  | enter {calls : List Call} {entered : List (Ref × Text)} {h : Heap} {r : Ref} {type : Text}
      (hn : Nested calls entered) (ht : h.nodeType? (.ref r) = some type) (hw : h.WellShaped r) :
      Nested (calls ++ [⟨.enter, h, r⟩]) ((r, type) :: entered)
  | leave {calls : List Call} {entered : List (Ref × Text)} {outer : Ref × Text} {h : Heap} {r : Ref}
      {type : Text} (hn : Nested calls ((r, type) :: outer :: entered))
      (ht : h.nodeType? (.ref r) = some type) :
      Nested (calls ++ [⟨.leave, h, r⟩]) (outer :: entered)

/-! ## What stands for an environment -/

theorem Tracker.frozen_pop (t : Tracker) : t.pop.frozen = t.frozen := by
  unfold pop
  split <;> rfl

/-- Of the scopes that are not left, the declarations stay. -/
theorem Tracker.bindings_pop {t : Tracker} {path : ScopePath} (h : t.path ≠ path) :
    t.pop.bindings path = t.bindings path := by
  unfold pop
  split
  · rfl
  · unfold bindings
    dsimp only
    split
    · rfl
    · rw [Fields.get?_erase_of_ne _ h]

/-- A declaration made in the scope with a given path. -/
def Entry.declaration (path : ScopePath) (e : Entry) : Declaration :=
  ⟨e.kind, e.node, path.key, e.owner?⟩

/-- A tracker stands where environments do: it has as many open scopes, and has stored for each of
    them what its environment holds. The path of the next scope comes after all that is stored. -/
structure Stands (t : Tracker) (envs : Environments) : Prop where
  recording : t.frozen = false
  length : t.counters.length = envs.length
  bindings : ∀ inner env outer, envs = inner ++ env :: outer → ∀ name,
    Fields.get? (t.bindings (t.path.take outer.length)) name =
      (env name).map (Entry.declaration (t.path.take outer.length))
  used : ∀ path, t.bindings path ≠ [] → path.before t.counters.reverse = true

namespace Stands

variable {t : Tracker} {env : Environment} {outer envs : Environments}

theorem fresh (preserves : Bool) : Stands (.fresh preserves) [] := by
  refine ⟨rfl, rfl, ?_, ?_⟩
  · intro inner env outer h
    exact absurd h.symm (by simp)
  · intro path h
    exact absurd rfl h

/-- The scope that is opened next lies directly inside the current one. -/
theorem next (hs : Stands t envs) (hne : envs ≠ []) :
    ∃ n, t.counters.reverse = t.path ++ [n] ∧ t.path.length + 1 = envs.length := by
  have hlen := hs.length
  rcases hc : t.counters with _ | ⟨n, counters⟩
  · rw [hc] at hlen
    exact absurd (List.length_eq_zero_iff.1 hlen.symm) hne
  · rw [hc] at hlen
    exact ⟨n, by simp [Tracker.path, hc], by simpa [Tracker.path, hc] using hlen⟩

/-- The paths of the scopes around a scope are shorter. -/
theorem take_ne {path : ScopePath} {k : Nat} (hk : k < path.length) : path.take k ≠ path := by
  intro h
  have hlen := congrArg List.length h
  rw [List.length_take_of_le (Nat.le_of_lt hk)] at hlen
  omega

/-- A scope that is opened is empty, whatever has been stored. -/
theorem push (hs : Stands t envs) : Stands t.push ((fun _ => none) :: envs) := by
  have hlen : t.counters.reverse.length = envs.length := by rw [List.length_reverse, hs.length]
  refine ⟨hs.recording, by simp [hs.length], ?_, ?_⟩
  · intro inner env outer h name
    show Fields.get? (t.bindings (t.counters.reverse.take outer.length)) name =
      (env name).map (Entry.declaration (t.counters.reverse.take outer.length))
    cases inner with
    | nil =>
      -- whatever is stored comes before the path of the new scope
      obtain ⟨rfl, rfl⟩ := List.cons.inj h
      have hempty : t.bindings t.counters.reverse = [] := Classical.byContradiction fun hne =>
        ScopePath.ne_of_before (hs.used _ hne) rfl
      rw [← hlen, List.take_length, hempty]
      rfl
    | cons _ inner =>
      have henvs : envs = inner ++ env :: outer := (List.cons.inj h).2
      obtain ⟨n, hnext, hpath⟩ := hs.next (by simp [henvs])
      have hle : outer.length ≤ t.path.length := by
        rw [henvs, List.length_append, List.length_cons] at hpath
        omega
      rw [hnext, List.take_append_of_le_length hle]
      exact hs.bindings inner env outer henvs name
  · intro path h
    rw [Tracker.counters_push, List.reverse_cons]
    exact ScopePath.before_trans (hs.used path h) (ScopePath.before_append_cons _ _ _)

/-- A declaration is stored for the current scope, and the scopes around it are as they were. -/
theorem declare (hs : Stands t (env :: outer)) (e : Entry) :
    Stands (t.declare e.name ⟨e.kind, e.node, t.key, e.owner?⟩)
      (Environments.declare (env :: outer) e) := by
  obtain ⟨n, hnext, hpath⟩ := hs.next (List.cons_ne_nil _ _)
  have hlen : t.path.length = outer.length := by simpa using hpath
  refine ⟨hs.recording, hs.length, ?_, ?_⟩
  · intro inner env' outer' h name
    rw [Tracker.path_declare, Tracker.bindings_declare]
    cases inner with
    | nil =>
      obtain ⟨rfl, rfl⟩ := List.cons.inj h
      rw [← hlen, List.take_length, if_pos rfl, Fields.get?_set]
      show _ = (if name = e.name then some e else env name).map _
      by_cases hname : name = e.name
      · rw [if_pos hname.symm, if_pos hname]
        rfl
      · rw [if_neg (Ne.symm hname), if_neg hname]
        have hb := hs.bindings [] env outer rfl name
        rwa [← hlen, List.take_length] at hb
    | cons _ inner =>
      have houter : outer = inner ++ env' :: outer' := (List.cons.inj h).2
      have hlt : outer'.length < t.path.length := by
        rw [hlen, houter, List.length_append, List.length_cons]
        omega
      rw [if_neg (take_ne hlt).symm]
      exact hs.bindings (env :: inner) env' outer' (by rw [houter]; rfl) name
  · intro path h
    rw [Tracker.bindings_declare] at h
    split at h
    · next hp =>
      rw [← hp]
      show ScopePath.before _ t.counters.reverse = true
      rw [hnext]
      exact ScopePath.before_append_cons _ _ _
    · exact hs.used path h

theorem declareAll (hs : Stands t envs) (hne : envs ≠ []) (entries : List Entry) :
    Stands (t.declareAll entries) (envs.declareAll entries) := by
  unfold Tracker.declareAll Environments.declareAll
  induction entries generalizing t envs with
  | nil => exact hs
  | cons e entries ih =>
    cases envs with
    | nil => exact absurd rfl hne
    | cons env outer => exact ih (hs.declare e) (List.cons_ne_nil _ _)

/-- Of a scope that is left nothing is seen any more, whether it is kept or not. -/
theorem pop (hs : Stands t (env :: outer)) (hne : outer ≠ []) : Stands t.pop outer := by
  obtain ⟨c, m, counters, hc⟩ : ∃ c m counters, t.counters = c :: m :: counters := by
    have hlen := hs.length
    rcases hc : t.counters with _ | ⟨c, _ | ⟨m, counters⟩⟩
    · simp [hc] at hlen
    · simp [hc] at hlen
      exact absurd hlen hne
    · exact ⟨c, m, counters, rfl⟩
  have hlen : counters.length + 1 = outer.length := by simpa [hc] using hs.length
  have hpath : t.path = counters.reverse ++ [m] := by simp [Tracker.path, hc]
  have hpop : t.pop.counters = (m + 1) :: counters := by simp [Tracker.pop, hc]
  refine ⟨t.frozen_pop.trans hs.recording, by simp [hpop, hlen], ?_, ?_⟩
  · intro inner env' outer' h name
    have hlt : outer'.length < t.path.length := by
      rw [hpath, List.length_append, List.length_reverse, List.length_singleton, hlen, h,
        List.length_append, List.length_cons]
      omega
    have htake : t.pop.path.take outer'.length = t.path.take outer'.length := by
      rw [Tracker.path_pop, List.dropLast_eq_take, List.take_take, Nat.min_eq_left (by omega)]
    rw [htake, Tracker.bindings_pop (take_ne hlt).symm]
    exact hs.bindings (env :: inner) env' outer' (by rw [h]; rfl) name
  · -- the next scope has an ordinal that none of those that have been closed here had
    intro path h
    rw [hpop, List.reverse_cons]
    by_cases hp : t.path = path
    · rw [← hp, hpath]
      exact ScopePath.append_cons_before (Nat.lt_succ_self m)
    · rw [Tracker.bindings_pop hp] at h
      refine ScopePath.before_trans (hs.used path h) ?_
      rw [hc, List.reverse_cons, List.reverse_cons, List.append_assoc]
      exact ScopePath.append_cons_before (Nat.lt_succ_self m)

theorem popMany (n : Nat) (hs : Stands t envs) (hn : n < envs.length) :
    Stands (t.popMany n) (envs.drop n) := by
  induction n generalizing t envs with
  | zero => exact hs
  | succ n ih =>
    cases envs with
    | nil => exact absurd hn (Nat.not_lt_zero _)
    | cons env outer =>
      have hlt : n < outer.length := Nat.lt_of_succ_lt_succ hn
      exact ih (hs.pop (List.length_pos_iff.1 (Nat.zero_lt_of_lt hlt))) hlt

theorem apply {e : Effect} (hs : Stands t envs) (hne : envs ≠ []) (he : e.Sound) :
    ∃ t', Tracker.apply e t = .ok () t' ∧ Stands t' (envs.step e) := by
  cases e with
  | push => exact ⟨t.push, rfl, hs.push⟩
  | fail f => exact he.elim
  | declare entries? =>
    obtain ⟨entries, rfl⟩ := he
    refine ⟨_, ?_, hs.declareAll hne entries⟩
    rw [Tracker.apply_declare_eq_ok, hs.recording]
    exact ⟨entries, rfl, rfl⟩

/-- The steps of a well-shaped node are carried out in the innermost scope. -/
theorem applyAll {effects : List Effect} (hs : Stands t envs) (hne : envs ≠ [])
    (he : AllSound effects) :
    ∃ t', Tracker.applyAll effects t = .ok () t' ∧ Stands t' (effects.foldl Environments.step envs) := by
  induction effects generalizing t envs with
  | nil => exact ⟨t, rfl, hs⟩
  | cons e effects ih =>
    obtain ⟨he, heffects⟩ := List.forall_mem_cons.1 he
    obtain ⟨t₁, happly, hs₁⟩ := hs.apply hne he
    obtain ⟨t', hrun, hs'⟩ := ih hs₁ (Environments.step_ne_nil e hne) heffects
    exact ⟨t', bind_eq_ok.2 ⟨(), t₁, happly, hrun⟩, hs'⟩

/-- The scopes around the current one are asked from the inside outwards, as environments are. -/
theorem lookupIn (hs : Stands t envs) (name : Text) (inner : Environments) {rest : Environments}
    (h : envs = inner ++ rest) :
    t.lookupIn name ((List.range rest.length).reverse.map t.path.take) =
      (rest.lookup name).map fun found => found.2.declaration (t.path.take found.1) := by
  induction rest generalizing inner with
  | nil => rfl
  | cons env rest ih =>
    rw [List.length_cons, List.range_succ, List.reverse_append, List.reverse_singleton,
      List.singleton_append, List.map_cons, Tracker.lookupIn, hs.bindings inner env rest h,
      Environments.lookup]
    cases env name with
    | some e => rfl
    | none => exact ih (inner ++ [env]) (by rw [h, List.append_assoc]; rfl)

theorem lookup (hs : Stands t envs) (hne : envs ≠ []) (name : Text) :
    t.lookup name =
      (envs.lookup name).map fun found => found.2.declaration (t.path.take found.1) := by
  obtain ⟨n, -, hlen⟩ := hs.next hne
  rw [Tracker.lookup, Tracker.enclosing, hlen]
  exact hs.lookupIn name [] rfl

end Stands

/-! ## Calls one after another -/

theorem runAll_concat {calls : List Call} {c : Call} {t t₁ t' : Tracker}
    (h : runAll calls t = .ok () t₁) (hc : c.run t₁ = .ok () t') :
    runAll (calls ++ [c]) t = .ok () t' := by
  induction calls generalizing t with
  | nil =>
    cases h
    exact bind_eq_ok.2 ⟨(), t', hc, rfl⟩
  | cons c₁ calls ih =>
    obtain ⟨_, t₂, h₁, h⟩ := bind_eq_ok.1 h
    exact bind_eq_ok.2 ⟨(), t₂, h₁, ih h⟩

theorem Environments.after_concat (calls : List Call) (c : Call) :
    after (calls ++ [c]) = (after calls).call c := by
  rw [after, List.foldl_append]
  rfl

/-- How many scopes the nodes open that are entered. -/
def depth : List (Ref × Text) → Nat
  | [] => 0
  | (_, type) :: outer => (Role.ofType type).opens + depth outer

theorem depth_append (entered outer : List (Ref × Text)) :
    depth (entered ++ outer) = depth entered + depth outer := by
  induction entered with
  | nil => exact (Nat.zero_add _).symm
  | cons e entered ih => rw [List.cons_append, depth, ih, depth, Nat.add_assoc]

/-- The program around everything is always open. -/
theorem Nested.depth_pos {calls : List Call} {entered : List (Ref × Text)}
    (hn : Nested calls entered) : 0 < depth entered := by
  have hlast : ∃ below r, entered = below ++ [(r, Text.ofString "Program")] := by
    induction hn with
    | program => exact ⟨[], _, rfl⟩
    | enter hn _ _ ih =>
      obtain ⟨below, r, rfl⟩ := ih
      exact ⟨_ :: below, r, rfl⟩
    | leave hn _ ih =>
      obtain ⟨_ | ⟨_, below⟩, r, h⟩ := ih
      · cases h
      · exact ⟨below, r, (List.cons.inj h).2⟩
  obtain ⟨below, r, rfl⟩ := hlast
  have hone : (Role.ofType "Program").opens = 1 := by decide
  rw [depth_append, depth, hone]
  exact Nat.succ_pos _

section

variable {t : Tracker} {envs : Environments} {h : Heap} {r : Ref} {type : Text}

theorem Environments.length_call_enter (envs : Environments) (ht : h.nodeType? (.ref r) = some type) :
    (envs.call ⟨.enter, h, r⟩).length = (Role.ofType type).opens + envs.length := by
  show (envs.enter (h.scoping r)).length = _
  rw [length_enter, length_opened ht]

theorem Environments.length_call_leave (envs : Environments) (ht : h.nodeType? (.ref r) = some type) :
    (envs.call ⟨.leave, h, r⟩).length = envs.length - (Role.ofType type).opens := by
  show (envs.drop (h.scoping r).opened.length).length = _
  rw [List.length_drop, length_opened ht]

/-- A tracker goes with the environments into a node. -/
theorem Stands.enter (hs : Stands t envs) (hne : envs ≠ []) (ht : h.nodeType? (.ref r) = some type)
    (hw : h.WellShaped r) :
    ∃ t', Call.run ⟨.enter, h, r⟩ t = .ok () t' ∧ Stands t' (envs.call ⟨.enter, h, r⟩) := by
  obtain ⟨t', happly, hs'⟩ := hs.applyAll hne (ofNode_sound hw)
  rw [← enter_of_type ht] at happly
  rw [Environments.foldl_step, ofSteps_ofNode hw.failsBy ht] at hs'
  exact ⟨t', happly, hs'⟩

/-- A tracker goes with the environments out of a node, as long as the outermost scope stays. -/
theorem Stands.leave (hs : Stands t envs) (ht : h.nodeType? (.ref r) = some type)
    (hn : (Role.ofType type).opens < envs.length) :
    ∃ t', Call.run ⟨.leave, h, r⟩ t = .ok () t' ∧ Stands t' (envs.call ⟨.leave, h, r⟩) := by
  have hpops : h.opens r = (h.scoping r).opened.length := by rw [opens_of_type ht, length_opened ht]
  rw [← opens_of_type ht, hpops] at hn
  refine ⟨t.popMany (h.scoping r).opened.length, ?_, hs.popMany _ hn⟩
  rw [← hpops]
  exact leave_of_type ht t

end

/-- A tracker that follows nested calls stands where the environments do, and what it preserves has
    no part in where it is. -/
theorem Nested.stands {calls : List Call} {entered : List (Ref × Text)}
    (hn : Nested calls entered) :
    (Environments.after calls).length = depth entered ∧
      ∃ counters, ∀ preserves, ∃ t, runAll calls (.fresh preserves) = .ok () t ∧
        t.counters = counters ∧ Stands t (Environments.after calls) := by
  induction hn with
  | @program h r ht =>
    -- there is no scope yet that the program could declare anything in, and it declares nothing
    have heffects : Effect.ofNode h r = [.push] := by
      rw [ofNode_of_type ht]
      rfl
    have hafter : Environments.after [⟨.enter, h, r⟩] = [fun _ => none] := by
      show Environments.enter [] (h.scoping r) = _
      rw [scoping_of_type ht]
      rfl
    have hone : (Role.ofType "Program").opens = 1 := by decide
    rw [hafter]
    refine ⟨by simp [depth, hone], [0], ?_⟩
    intro preserves
    refine ⟨(Tracker.fresh preserves).push, ?_, rfl, (Stands.fresh preserves).push⟩
    refine bind_eq_ok.2 ⟨(), _, ?_, rfl⟩
    show Tracker.enter h (.ref r) _ = _
    rw [enter_of_type ht, heffects]
    rfl
  | @enter calls entered h r type hn ht hw ih =>
    obtain ⟨hlen, counters, ih⟩ := ih
    have hne : Environments.after calls ≠ [] := by
      rw [← List.length_pos_iff, hlen]
      exact hn.depth_pos
    rw [Environments.after_concat]
    refine ⟨?_, advanced .enter (h.opens r) counters, ?_⟩
    · rw [Environments.length_call_enter _ ht, hlen]
      rfl
    · intro preserves
      obtain ⟨t, hrun, rfl, hs⟩ := ih preserves
      obtain ⟨t', hcall, hs'⟩ := hs.enter hne ht hw
      exact ⟨t', runAll_concat hrun hcall, Call.run_counters hcall, hs'⟩
  | @leave calls entered outer h r type hn ht ih =>
    obtain ⟨hlen, counters, ih⟩ := ih
    have hdepth : depth ((r, type) :: outer :: entered) =
        (Role.ofType type).opens + depth (outer :: entered) := rfl
    have hpos := (hn.leave ht).depth_pos
    rw [Environments.after_concat]
    refine ⟨?_, advanced .leave (h.opens r) counters, ?_⟩
    · rw [Environments.length_call_leave _ ht, hlen, hdepth, Nat.add_sub_cancel_left]
    · intro preserves
      obtain ⟨t, hrun, rfl, hs⟩ := ih preserves
      obtain ⟨t', hcall, hs'⟩ := hs.leave ht (by omega)
      exact ⟨t', runAll_concat hrun hcall, Call.run_counters hcall, hs'⟩

/-- Whatever calls a tracker has followed, it finds for every name the declaration that the environments
    hold, as one made in the scope at that depth. It does so whether it preserves the scopes that have
    been left or not. -/
theorem lookup_environments {calls : List Call} {entered : List (Ref × Text)}
    (hn : Nested calls entered) :
    ∃ path, ∀ preserves, ∃ t, (runAll calls).run (.fresh preserves) = .ok () t ∧ t.path = path ∧
      ∀ name,
        t.lookup name = (((Environments.after calls).lookup name).map fun found =>
          found.2.declaration (path.take found.1)) ∧
        t.isDeclared name = ((Environments.after calls).lookup name).isSome := by
  obtain ⟨hlen, counters, hstands⟩ := hn.stands
  have hne : Environments.after calls ≠ [] := by
    rw [← List.length_pos_iff, hlen]
    exact hn.depth_pos
  refine ⟨counters.tail.reverse, ?_⟩
  intro preserves
  obtain ⟨t, hrun, rfl, hs⟩ := hstands preserves
  refine ⟨t, hrun, rfl, fun name => ⟨hs.lookup hne name, ?_⟩⟩
  rw [Tracker.isDeclared, hs.lookup hne, Option.isSome_map]

namespace Sample

/-- A program of a function with a name and a parameter, and a block after it. -/
def nodes : Heap := ⟨#[
  .record [(.text "type", .text "Program"), (.text "body", .ref 1)],
  .list [.ref 2, .ref 6],
  .record [(.text "type", .text "FunctionExpression"), (.text "id", .ref 3), (.text "params", .ref 4)],
  .record [(.text "type", .text "Identifier"), (.text "name", .text "f")],
  .list [.ref 5],
  .record [(.text "type", .text "Identifier"), (.text "name", .text "a")],
  .record [(.text "type", .text "BlockStatement")]]⟩

/-- The calls of a walk through the function and into the block. -/
def calls : List Call :=
  [⟨.enter, nodes, 0⟩, ⟨.enter, nodes, 2⟩, ⟨.leave, nodes, 2⟩, ⟨.enter, nodes, 6⟩]

theorem wellShaped : ∀ r, nodes.WellShaped r := Heap.wellShaped_of_cells (by decide)

theorem nested : Nested calls [(6, "BlockStatement"), (0, "Program")] :=
  have htype : nodes.nodeType? (.ref 2) = some "FunctionExpression" := rfl
  (((Nested.program rfl).enter htype (wellShaped 2)).leave htype).enter rfl (wellShaped 6)

theorem lookup_environments_calls :
    ∃ path, ∀ preserves, ∃ t, (runAll calls).run (.fresh preserves) = .ok () t ∧ t.path = path ∧
      ∀ name,
        t.lookup name = (((Environments.after calls).lookup name).map fun found =>
          found.2.declaration (path.take found.1)) ∧
        t.isDeclared name = ((Environments.after calls).lookup name).isSome :=
  lookup_environments nested

/-- In the function its name is declared one scope further out than its parameter. -/
example : (Environments.after (calls.take 2)).lookup "f" = some (1, ⟨"f", .function, 2, none⟩) ∧
    (Environments.after (calls.take 2)).lookup "a" = some (2, ⟨"a", .param, 5, some 2⟩) := by decide

/-- In the block after the function neither of them is declared. -/
example : (Environments.after calls).lookup "f" = none ∧ (Environments.after calls).lookup "a" = none := by
  decide

end Sample

end Arbor.Scope
