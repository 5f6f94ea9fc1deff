import Arbor.Proofs.Walk.Recording

set_option autoImplicit false

/-! # Visits as a relation

The rules by which a walk visits a tree whose nodes are only changed by request: which calls are
made in which order, between which states of the world, and what becomes of each node
(`Visits`). The rules follow the layout of the tree and not the heap, so that what holds of every
such walk can be proved by going through the rules: what becomes of the nodes is what `rewrite` makes
of the answers (`visits_rewrites`), and the nodes are shown in the order that `trace` tells
(`visits_traces`). -/

namespace Arbor

variable {σ : Type}

/-- How the visit of a node in a slot goes: from one state of the world, by which calls, to what
    becomes of the node, and to which state. -/
abbrev VisitRel (σ : Type) :=
  Heap.Slot → Layout → World σ → List Showing → Fate → World σ → Prop

/-- The visits of the elements of a list, from the one that now has a given position on. -/
inductive VisitsItems (V : VisitRel σ) (parent : Ref) (key : Key) :
    Nat → List Layout → World σ → List Showing → List Outcome → World σ → Prop
  | nil {i : Nat} {s : World σ} : VisitsItems V parent key i [] s [] [] s
  | node {i : Nat} {t : Layout} {rest : List Layout} {s s₁ s₂ : World σ} {log log' : List Showing}
      {fate : Fate} {outcomes : List Outcome} (hnode : t.isNode = true)
      (hvisit : V ⟨some parent, key, some i⟩ t s log fate s₁)
      (hrest : VisitsItems V parent key (i + (fate.outcome.layout?.toList).length) rest s₁ log'
        outcomes s₂) :
      VisitsItems V parent key i (t :: rest) s (log ++ log') (fate.outcome :: outcomes) s₂
  | data {i : Nat} {t : Layout} {rest : List Layout} {s s' : World σ} {log : List Showing}
      {outcomes : List Outcome} (hnode : t.isNode = false)
      (hrest : VisitsItems V parent key (i + 1) rest s log outcomes s') :
      VisitsItems V parent key i (t :: rest) s log (.inPlace t :: outcomes) s'

/-- The visits in one field of a record. -/
inductive VisitsField (V : VisitRel σ) (parent : Ref) (key : Key) :
    Layout → World σ → List Showing → Outcome → World σ → Prop
  | list {r : Ref} {items : List Layout} {s s' : World σ} {log : List Showing}
      {outcomes : List Outcome} (hitems : VisitsItems V parent key 0 items s log outcomes s') :
      VisitsField V parent key (.list r items) s log
        (.inPlace (.list r (outcomes.filterMap Outcome.layout?))) s'
  | node {t : Layout} {s s' : World σ} {log : List Showing} {fate : Fate} (hnode : t.isNode = true)
      (hvisit : V ⟨some parent, key, none⟩ t s log fate s') :
      VisitsField V parent key t s log fate.outcome s'
  | data {t : Layout} {s : World σ} (hnode : t.isNode = false)
      (hlist : ∀ r items, t ≠ .list r items) : VisitsField V parent key t s [] (.inPlace t) s

/-- The visits in the fields of a record. -/
inductive VisitsFields (V : VisitRel σ) (parent : Ref) :
    List (Key × Layout) → World σ → List Showing → List (Key × Outcome) → World σ → Prop
  | nil {s : World σ} : VisitsFields V parent [] s [] [] s
  | cons {key : Key} {t : Layout} {rest : List (Key × Layout)} {s s₁ s₂ : World σ}
      {log log' : List Showing} {o : Outcome} {outcomes : List (Key × Outcome)}
      (hfield : VisitsField V parent key t s log o s₁)
      (hrest : VisitsFields V parent rest s₁ log' outcomes s₂) :
      VisitsFields V parent ((key, t) :: rest) s (log ++ log') ((key, o) :: outcomes) s₂

/-- The visits below what stands in the place of a node after entering. -/
inductive VisitsBelow (V : VisitRel σ) :
    Bool → Option Layout → World σ → List Showing → Option Layout → World σ → Prop
  | gone {skipped : Bool} {s : World σ} : VisitsBelow V skipped none s [] none s
  | skipped {t : Layout} {s : World σ} : VisitsBelow V true (some t) s [] (some t) s
  | walked {r : Ref} {fields : List (Key × Layout)} {s s' : World σ} {log : List Showing}
      {outcomes : List (Key × Outcome)} (hfields : VisitsFields V r fields s log outcomes s') :
      VisitsBelow V false (some (.record r fields)) s log
        (some (.record r (Rewriting.kept outcomes ++ Rewriting.moved outcomes))) s'

/-- The visit of a node, with the visits below it. -/
inductive VisitsNode (w : Walker σ) (root : Datum) (V : VisitRel σ) : VisitRel σ
  | node {slot : Heap.Slot} {r : Ref} {fields : List (Key × Layout)} {q q' : Request}
      {e : Walker.Entered} {log : List Showing} {current? : Option Layout} {d : Datum}
      {s s₁ s₂ s₃ s₄ s₅ s₆ s₇ : World σ}
      (hfollow : w.follow .enter r s = .ok () s₁)
      (hcall : w.call .enter ⟨r, slot, root⟩ s₁ = .ok q s₂)
      (hmake : w.makeEnter ⟨r, slot, root⟩ q s₂ = .ok e s₃)
      (hbelow : VisitsBelow V q.skipped ((q.answer s₂.heap).entered (.record r fields)) s₃ log
        current? s₄)
      (hfollow' : w.follow .leave r s₄ = .ok () s₅)
      (hcall' : w.call .leave ⟨r, slot, root⟩ s₅ = .ok q' s₆)
      (hmake' : w.makeLeave ⟨r, slot, root⟩ e q' s₆ = .ok d s₇) :
      VisitsNode w root V slot (.record r fields) s
        (⟨.enter, ⟨r, slot, root⟩, s₁.tracker, q, s₂.heap⟩ :: log ++
          [⟨.leave, ⟨r, slot, root⟩, s₅.tracker, q', s₆.heap⟩])
        ⟨(q'.answer s₆.heap).left current?,
          (q.answer s₂.heap).original (.record r fields) current?⟩ s₇

/-- The visit of a node by a walk that goes down through at most `depth` nodes. -/
def Visits (w : Walker σ) (root : Datum) : Nat → VisitRel σ
  | 0 => fun _ _ _ _ _ _ => False
  | depth + 1 => VisitsNode w root (Visits w root depth)

/-! ## What becomes of the nodes -/

/-- The calls of a log got the answers that `ask` gives. -/
def Answers.Agree (ask : Answers) (log : List Showing) : Prop :=
  ∀ e ∈ log, ask e.phase e.visit.node = e.answer

theorem Answers.agree_append {ask : Answers} {log log' : List Showing} :
    ask.Agree (log ++ log') ↔ ask.Agree log ∧ ask.Agree log' := List.forall_mem_append

/-- What becomes of the nodes in visits is what `fate` makes of them. -/
def VisitRel.Rewrites (V : VisitRel σ) (ask : Answers) (fate : Layout → Option Fate) : Prop :=
  ∀ slot t s log f s', V slot t s log f s' → ask.Agree log → fate t = some f

section

variable {V : VisitRel σ} {ask : Answers} {fate : Layout → Option Fate} (hV : V.Rewrites ask fate)

include hV

theorem VisitsItems.rewrite {parent : Ref} {key : Key} {i : Nat} {ts : List Layout}
    {s s' : World σ} {log : List Showing} {outcomes : List Outcome}
    (h : VisitsItems V parent key i ts s log outcomes s') (ha : ask.Agree log) :
    Rewriting.items fate ts = some outcomes := by
  induction h with
  | nil => rfl
  | node hnode hvisit hrest ih =>
    obtain ⟨ha, ha'⟩ := Answers.agree_append.1 ha
    rw [Rewriting.items, Rewriting.item, if_pos hnode, hV _ _ _ _ _ _ hvisit ha, ih ha']
    rfl
  | data hnode hrest ih =>
    rw [Rewriting.items, Rewriting.item, if_neg (by simp [hnode]), ih ha]
    rfl

theorem VisitsField.rewrite {parent : Ref} {key : Key} {t : Layout} {s s' : World σ}
    {log : List Showing} {o : Outcome} (h : VisitsField V parent key t s log o s')
    (ha : ask.Agree log) : Rewriting.field fate t = some o := by
  cases h with
  | list hitems =>
    rw [Rewriting.field, hitems.rewrite hV ha]
    rfl
  | node hnode hvisit =>
    cases t with
    | record r fields =>
      rw [Rewriting.field, Rewriting.item, if_pos hnode, hV _ _ _ _ _ _ hvisit ha]
      · rfl
      · simp
    | _ => cases hnode
  | data hnode hlist => rw [Rewriting.field, Rewriting.item, if_neg (by simp [hnode])]; exact hlist

theorem VisitsFields.rewrite {parent : Ref} {fs : List (Key × Layout)} {s s' : World σ}
    {log : List Showing} {outcomes : List (Key × Outcome)}
    (h : VisitsFields V parent fs s log outcomes s') (ha : ask.Agree log) :
    Rewriting.fields fate fs = some outcomes := by
  induction h with
  | nil => rfl
  | cons hfield hrest ih =>
    obtain ⟨ha, ha'⟩ := Answers.agree_append.1 ha
    rw [Rewriting.fields, hfield.rewrite hV ha, ih ha']
    rfl

theorem VisitsBelow.rewrite {skipped : Bool} {entered? current? : Option Layout} {s s' : World σ}
    {log : List Showing} (h : VisitsBelow V skipped entered? s log current? s')
    (ha : ask.Agree log) : Rewriting.current fate skipped entered? = some current? := by
  cases h with
  | gone => rfl
  | skipped => rfl
  | walked hfields =>
    rw [Rewriting.current, Rewriting.below, hfields.rewrite hV ha]
    rfl

end

/-- What becomes of a node that is visited is what the answers make of it. -/
theorem visits_rewrites (w : Walker σ) (root : Datum) (ask : Answers) (depth : Nat) :
    (Visits w root depth).Rewrites ask (rewrite ask depth) := by
  induction depth with
  | zero => exact fun _ _ _ _ _ _ h => h.elim
  | succ depth ih =>
    intro slot t s log fate s' h ha
    cases h with
    | node hfollow hcall hmake hbelow hfollow' hcall' hmake' =>
      obtain ⟨ha₁, ha⟩ := List.forall_mem_cons.1 ha
      obtain ⟨ha, ha₂⟩ := Answers.agree_append.1 ha
      have ha₂ := List.forall_mem_singleton.1 ha₂
      simp only [Showing.answer] at ha₁ ha₂
      rw [rewrite, ha₁, ha₂]
      simp only [Request.answer] at *
      rw [hbelow.rewrite ih ha]
      rfl

/-! ## The order of visits -/

/-- The calls made in visits are those that `visit` tells. -/
def VisitRel.Traces (V : VisitRel σ) (ask : Answers)
    (visit : Heap.Slot → Layout → Option (List Event)) : Prop :=
  ∀ slot t s log f s', V slot t s log f s' → ask.Agree log →
    visit slot t = some (log.map Showing.event)

section

variable {V : VisitRel σ} {ask : Answers} {fate : Layout → Option Fate}
  {visit : Heap.Slot → Layout → Option (List Event)} (hV : V.Rewrites ask fate)
  (hT : V.Traces ask visit)

include hV hT

theorem VisitsItems.trace {parent : Ref} {key : Key} {i : Nat} {ts : List Layout}
    {s s' : World σ} {log : List Showing} {outcomes : List Outcome}
    (h : VisitsItems V parent key i ts s log outcomes s') (ha : ask.Agree log) :
    Tracing.items fate visit parent key i ts = some (log.map Showing.event) := by
  induction h with
  | nil => rfl
  | node hnode hvisit hrest ih =>
    obtain ⟨ha, ha'⟩ := Answers.agree_append.1 ha
    rw [Tracing.items, if_pos hnode, hT _ _ _ _ _ _ hvisit ha, hV _ _ _ _ _ _ hvisit ha,
      List.map_append]
    simp only [Option.bind_eq_bind, Option.bind_some, ih ha']
    rfl
  | data hnode hrest ih => rw [Tracing.items, if_neg (by simp [hnode]), ih ha]

theorem VisitsField.trace {parent : Ref} {key : Key} {t : Layout} {s s' : World σ}
    {log : List Showing} {o : Outcome} (h : VisitsField V parent key t s log o s')
    (ha : ask.Agree log) :
    Tracing.field fate visit parent key t = some (log.map Showing.event) := by
  cases h with
  | list hitems => exact hitems.trace hV hT ha
  | node hnode hvisit =>
    cases t with
    | record r fields =>
      rw [Tracing.field, if_pos hnode, hT _ _ _ _ _ _ hvisit ha]
      simp
    | _ => cases hnode
  | data hnode hlist =>
    rw [Tracing.field, if_neg (by simp [hnode])]
    · rfl
    · exact hlist

theorem VisitsFields.trace {parent : Ref} {fs : List (Key × Layout)} {s s' : World σ}
    {log : List Showing} {outcomes : List (Key × Outcome)}
    (h : VisitsFields V parent fs s log outcomes s') (ha : ask.Agree log) :
    Tracing.fields fate visit parent fs = some (log.map Showing.event) := by
  induction h with
  | nil => rfl
  | cons hfield hrest ih =>
    obtain ⟨ha, ha'⟩ := Answers.agree_append.1 ha
    rw [Tracing.fields, hfield.trace hV hT ha, ih ha', List.map_append]
    rfl

theorem VisitsBelow.trace {skipped : Bool} {entered? current? : Option Layout} {s s' : World σ}
    {log : List Showing} (h : VisitsBelow V skipped entered? s log current? s')
    (ha : ask.Agree log) :
    Tracing.below fate visit skipped entered? = some (log.map Showing.event) := by
  cases h with
  | gone => rfl
  | @skipped t => cases t <;> rfl
  | walked hfields => exact hfields.trace hV hT ha

end

/-- The nodes are shown in the order that the answers lead to. -/
theorem visits_traces (w : Walker σ) (root : Datum) (ask : Answers) (depth : Nat) :
    (Visits w root depth).Traces ask (trace ask root depth) := by
  induction depth with
  | zero => exact fun _ _ _ _ _ _ h => h.elim
  | succ depth ih =>
    intro slot t s log fate s' h ha
    cases h with
    | node hfollow hcall hmake hbelow hfollow' hcall' hmake' =>
      obtain ⟨ha₁, ha⟩ := List.forall_mem_cons.1 ha
      have ha := (Answers.agree_append.1 ha).1
      simp only [Showing.answer, Request.answer] at ha₁ hbelow
      rw [trace, ha₁, hbelow.trace (visits_rewrites w root ask depth) ih ha]
      simp [Showing.event]

/-! ## Every node is shown once -/

/-- The node of a call and its phase. -/
def Showing.shown (e : Showing) : Phase × Ref := (e.phase, e.visit.node)

theorem Answer.entered_eq_some {a : Answer} {t u : Layout} (h : a.entered t = some u) :
    a.replacement? = some u ∨ a.replacement? = none ∧ u = t := by
  unfold entered at h
  split at h
  · cases h
  · cases ha : a.replacement? with
    | none =>
      rw [ha] at h
      exact .inr ⟨rfl, (Option.some.inj h).symm⟩
    | some v =>
      rw [ha] at h
      exact .inl h

/-- What stands in the place of `t` after the call `e`, with the replacements made below it: it lies
    in the area of the visit of `t`, and apart from `t` if it is a replacement. -/
structure EnteredArea (t u : Layout) (replaced : Bool) (inner log : List Showing) : Prop where
  nodup : (area [u] inner).Nodup
  sub : area [u] inner ⊆ area [t] log
  same : replaced = false → u = t
  apart : replaced = true → ∀ x ∈ t.refs, x ∉ area [u] inner

theorem Showing.entered_area {e e' : Showing} {inner : List Showing} {t u : Layout}
    (hu : e.answer.entered t = some u) (hnodup : (area [t] (e :: inner ++ [e'])).Nodup) :
    EnteredArea t u e.answer.replacement?.isSome inner (e :: inner ++ [e']) := by
  have harea (v : Layout) : area [v] inner = v.refs ++ allMade inner := by simp [area]
  have hlog : area [t] (e :: inner ++ [e']) = t.refs ++ (e.made ++ allMade inner ++ e'.made) := by
    simp [area]
  rw [hlog] at hnodup
  obtain ⟨htree, hmade, hdisjoint⟩ := List.nodup_append.1 hnodup
  rcases Answer.entered_eq_some hu with ha | ⟨ha, rfl⟩
  · have he : e.made = u.refs := by simp [Showing.made, ha]
    rw [he] at hlog hmade hdisjoint
    refine ⟨?_, ?_, ?_, ?_⟩
    · rw [harea]
      exact (List.nodup_append.1 hmade).1
    · intro x hx
      rw [harea] at hx
      rw [hlog]
      exact List.mem_append_right _ (List.mem_append_left _ hx)
    · intro h
      rw [ha] at h
      cases h
    · intro _ x hx hx'
      rw [harea] at hx'
      exact hdisjoint x hx x (List.mem_append_left _ hx') rfl
  · have he : e.made = [] := by simp [Showing.made, ha]
    rw [he, List.nil_append] at hlog hnodup
    rw [← List.append_assoc] at hlog hnodup
    refine ⟨?_, ?_, fun _ => rfl, ?_⟩
    · rw [harea]
      exact (List.nodup_append.1 hnodup).1
    · intro x hx
      rw [harea] at hx
      rw [hlog]
      exact List.mem_append_left _ hx
    · intro h
      rw [ha] at h
      cases h

/-- Each node is shown at most once in each phase, and all of them lie in the area of the visits. -/
structure ShownOnce (area : List Ref) (log : List Showing) : Prop where
  nodup : (log.map Showing.shown).Nodup
  mem : ∀ e ∈ log, e.visit.node ∈ area

theorem ShownOnce.nil (area : List Ref) : ShownOnce area [] :=
  ⟨List.nodup_nil, fun _ he => absurd he List.not_mem_nil⟩

theorem ShownOnce.mono {area area' : List Ref} {log : List Showing} (h : ShownOnce area log)
    (hsub : area ⊆ area') : ShownOnce area' log :=
  ⟨h.nodup, fun e he => hsub (h.mem e he)⟩

/-- In visits of parts that lie apart no node is shown twice. -/
theorem ShownOnce.append {t : Layout} {ts : List Layout} {log log' : List Showing}
    (h : ShownOnce (area [t] log) log) (h' : ShownOnce (area ts log') log')
    (hnodup : (area (t :: ts) (log ++ log')).Nodup) :
    ShownOnce (area (t :: ts) (log ++ log')) (log ++ log') := by
  obtain ⟨-, -, hdisjoint⟩ := area_apart hnodup
  constructor
  · rw [List.map_append]
    refine List.nodup_append.2 ⟨h.nodup, h'.nodup, ?_⟩
    intro x hx y hy hxy
    obtain ⟨e, he, rfl⟩ := List.mem_map.1 hx
    obtain ⟨e', he', rfl⟩ := List.mem_map.1 hy
    refine hdisjoint _ (h.mem e he) ?_
    rw [show e.visit.node = e'.visit.node from congrArg Prod.snd hxy]
    exact h'.mem e' he'
  · intro e he
    exact mem_area_cons_append.2 ((List.mem_append.1 he).imp (h.mem e) (h'.mem e))

/-- A node is shown before and after the nodes below it, which are others. -/
theorem ShownOnce.node {area : List Ref} {inner : List Showing} {e e' : Showing} {r : Ref}
    (h : ShownOnce area inner) (hne : ∀ e ∈ inner, e.visit.node ≠ r) (hr : r ∈ area)
    (he : e.shown = (.enter, r)) (he' : e'.shown = (.leave, r)) :
    ShownOnce area (e :: inner ++ [e']) := by
  have hmem : ∀ phase, (phase, r) ∉ inner.map Showing.shown := by
    intro phase hmem
    obtain ⟨d, hd, hshown⟩ := List.mem_map.1 hmem
    exact hne d hd (congrArg Prod.snd hshown)
  constructor
  · rw [List.cons_append, List.map_cons, List.map_append, List.map_singleton, he, he',
      List.nodup_cons, List.mem_append, not_or]
    refine ⟨⟨hmem _, by simp⟩, List.nodup_append.2 ⟨h.nodup, List.nodup_singleton _, ?_⟩⟩
    rintro x hx y hy rfl
    rw [List.mem_singleton.1 hy] at hx
    exact hmem _ hx
  · intro d hd
    rw [List.cons_append, List.mem_cons, List.mem_append, List.mem_singleton] at hd
    rcases hd with rfl | hd | rfl
    · rwa [show d.visit.node = r from congrArg Prod.snd he]
    · exact h.mem d hd
    · rwa [show d.visit.node = r from congrArg Prod.snd he']

/-- In visits without sharing no node is shown twice. -/
def VisitRel.Once (V : VisitRel σ) : Prop :=
  ∀ slot t s log f s', V slot t s log f s' → (area [t] log).Nodup → ShownOnce (area [t] log) log

section

variable {V : VisitRel σ} (hV : V.Once)

include hV

theorem VisitsItems.once {parent : Ref} {key : Key} {i : Nat} {ts : List Layout}
    {s s' : World σ} {log : List Showing} {outcomes : List Outcome}
    (h : VisitsItems V parent key i ts s log outcomes s') (hnodup : (area ts log).Nodup) :
    ShownOnce (area ts log) log := by
  induction h with
  | nil => exact .nil _
  | node hnode hvisit hrest ih =>
    obtain ⟨h₁, h₂, -⟩ := area_apart hnodup
    exact (hV _ _ _ _ _ _ hvisit h₁).append (ih h₂) hnodup
  | @data _ _ _ _ _ log _ hnode hrest ih =>
    rw [← List.nil_append log] at hnodup ⊢
    exact (ShownOnce.nil _).append (ih (area_apart hnodup).2.1) hnodup

theorem VisitsField.once {parent : Ref} {key : Key} {t : Layout} {s s' : World σ}
    {log : List Showing} {o : Outcome} (h : VisitsField V parent key t s log o s')
    (hnodup : (area [t] log).Nodup) : ShownOnce (area [t] log) log := by
  cases h with
  | list hitems =>
    rw [area_list] at hnodup ⊢
    exact (hitems.once hV (List.nodup_cons.1 hnodup).2).mono (List.subset_cons_self _ _)
  | node hnode hvisit => exact hV _ _ _ _ _ _ hvisit hnodup
  | data hnode hlist => exact .nil _

theorem VisitsFields.once {parent : Ref} {fs : List (Key × Layout)} {s s' : World σ}
    {log : List Showing} {outcomes : List (Key × Outcome)}
    (h : VisitsFields V parent fs s log outcomes s')
    (hnodup : (area (fs.map Prod.snd) log).Nodup) :
    ShownOnce (area (fs.map Prod.snd) log) log := by
  induction h with
  | nil => exact .nil _
  | cons hfield hrest ih =>
    obtain ⟨h₁, h₂, -⟩ := area_apart hnodup
    exact (hfield.once hV h₁).append (ih h₂) hnodup

/-- The nodes that are shown below a node are others than the node and its replacement. -/
theorem VisitsBelow.once {skipped : Bool} {t : Layout} {entered? current? : Option Layout}
    {s s' : World σ} {inner log : List Showing} {replaced : Bool}
    (h : VisitsBelow V skipped entered? s inner current? s')
    (hent : ∀ u, entered? = some u → EnteredArea t u replaced inner log) {r : Ref}
    {fields : List (Key × Layout)} (ht : t = .record r fields) :
    ShownOnce (area [t] log) inner ∧ ∀ e ∈ inner, e.visit.node ≠ r := by
  cases h with
  | gone => exact ⟨.nil _, fun _ he => absurd he List.not_mem_nil⟩
  | skipped => exact ⟨.nil _, fun _ he => absurd he List.not_mem_nil⟩
  | @walked r' fields' _ _ _ _ hfields =>
    have h := hent _ rfl
    have hnodup := h.nodup
    rw [area_record, List.nodup_cons] at hnodup
    have honce := hfields.once hV hnodup.2
    refine ⟨honce.mono fun x hx => h.sub (area_record r' fields' _ ▸ List.mem_cons_of_mem _ hx),
      ?_⟩
    rintro e he rfl
    have hmem := honce.mem e he
    cases hr : replaced with
    | false =>
      -- the node itself is walked, and its own cell is none of those of its fields
      cases (h.same hr).trans ht
      exact hnodup.1 hmem
    | true =>
      refine h.apart hr e.visit.node (by simp [ht]) ?_
      rw [area_record]
      exact List.mem_cons_of_mem _ hmem

end

/-- No node is shown twice in a walk whose replacements are fresh. -/
theorem visits_once (w : Walker σ) (root : Datum) (depth : Nat) : (Visits w root depth).Once := by
  induction depth with
  | zero => exact fun _ _ _ _ _ _ h => h.elim
  | succ depth ih =>
    intro slot t s log fate s' h hnodup
    cases h with
    | @node _ r fields q q' e inner current? d _ s₁ s₂ _ s₄ s₅ s₆ _ hfollow hcall hmake hbelow =>
      obtain ⟨honce, hne⟩ := hbelow.once ih
        (fun u hu => Showing.entered_area (e := ⟨.enter, ⟨r, slot, root⟩, s₁.tracker, q, s₂.heap⟩)
          hu hnodup) rfl
      exact honce.node hne (area_record r fields _ ▸ List.mem_cons_self ..) rfl rfl

end Arbor
