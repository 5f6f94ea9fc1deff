import Arbor.Proofs.Walk.Steps
import Arbor.Proofs.Scope.Shape

set_option autoImplicit false

/-! # Walks that go abreast

Two walks are compared step by step: whatever the one finds in the heap the other one finds as well,
and so they visit the same nodes. What their states have in common, and what it takes for a step to
keep this, differs from one comparison to the other; it is told by a `Pace`. All that is left to show
for a comparison is that the walks stay abreast when they come to a node and when they go away from
it (`Pace.AtNodes`, `Pace.visitBy_abreast`). A walk that is compared with itself shows what it keeps
to. -/

namespace Arbor

variable {σ τ ι α β : Type}

/-- The state in which an action has come to an end or has stopped. -/
def WalkM.endOf : EStateM.Result Stop (World σ) α → World σ
  | .ok _ s => s
  | .error _ s => s

/-- What an action has come to. -/
def WalkM.valueOf : EStateM.Result Stop (World σ) α → Except Stop α
  | .ok a _ => .ok a
  | .error e _ => .error e

theorem WalkM.valueOf_eq_ok {x : EStateM.Result Stop (World σ) α} {a : α}
    (h : valueOf x = .ok a) : ∃ s, x = .ok a s := by
  cases x with
  | ok b s =>
    obtain rfl := Except.ok.inj h
    exact ⟨s, rfl⟩
  | error e s => cases h

/-- How two walks go abreast. What their states have in common may change on the way from the one
    node to the other; `ι` tells in which ways. -/
structure Pace (σ τ ι : Type) where
  /-- What the two states have in common as long as the walks go on. -/
  Rel : ι → World σ → World τ → Prop
  /-- What they have in common when the walks have stopped without an answer. -/
  Stopped : World σ → World τ → Prop
  /-- The records in which the walks may visit nodes. None is the place of a root. -/
  Opens : ι → Option Ref → Prop
  /-- The records and lists to which the walks may come. -/
  Known : World σ → Ref → Prop
  /-- What is asked of the course of the first walk. Once it is lost it stays lost. -/
  Good : World σ → Prop
  stopped {i : ι} {s : World σ} {t : World τ} : Rel i s t → Stopped s t
  cell {i : ι} {s : World σ} {t : World τ} {x : Ref} :
    Rel i s t → Known s x → t.heap.cell? x = s.heap.cell? x
  links {i : ι} {s : World σ} {t : World τ} {x y : Ref} :
    Rel i s t → Known s x → s.heap.Links x y → Known s y

namespace Pace

open WalkM Actions

variable {P : Pace σ τ ι} {i j k : ι}

/-- What the first walk has known in `s` it knows in `s'`. -/
def Learns (P : Pace σ τ ι) (s s' : World σ) : Prop := ∀ x, P.Known s x → P.Known s' x

theorem Learns.refl (s : World σ) : P.Learns s s := fun _ h => h

theorem Learns.trans {s₁ s₂ s₃ : World σ} (h : P.Learns s₁ s₂) (h' : P.Learns s₂ s₃) :
    P.Learns s₁ s₃ := fun x hx => h' x (h x hx)

/-- Two actions that were begun in `s` and its counterpart end alike. -/
inductive Ends (P : Pace σ τ ι) (i : ι) (s : World σ) :
    EStateM.Result Stop (World σ) α → EStateM.Result Stop (World τ) α → Prop
  | ok {a : α} {s' : World σ} {t' : World τ} (h : P.Rel i s' t') (hl : P.Learns s s') :
      Ends P i s (.ok a s') (.ok a t')
  | error {e : Stop} {s' : World σ} {t' : World τ} (h : P.Stopped s' t') :
      Ends P i s (.error e s') (.error e t')

theorem Ends.learn {s s₁ : World σ} {x : EStateM.Result Stop (World σ) α}
    {y : EStateM.Result Stop (World τ) α} (hl : P.Learns s s₁) (h : P.Ends i s₁ x y) :
    P.Ends i s x y := by
  cases h with
  | ok h hl' => exact .ok h (hl.trans hl')
  | error h => exact .error h

theorem Ends.value {s : World σ} {x : EStateM.Result Stop (World σ) α}
    {y : EStateM.Result Stop (World τ) α} (h : P.Ends i s x y) : valueOf y = valueOf x := by
  cases h <;> rfl

theorem Ends.stopped {s : World σ} {x : EStateM.Result Stop (World σ) α}
    {y : EStateM.Result Stop (World τ) α} (h : P.Ends i s x y) : P.Stopped (endOf x) (endOf y) := by
  cases h with
  | ok h _ => exact P.stopped h
  | error h => exact h

/-- What is lost in the course of an action is lost at its end. -/
def Minds (P : Pace σ τ ι) (x : WalkM σ α) : Prop := ∀ s, P.Good (endOf (x s)) → P.Good s

/-- From states in which `pre` holds two actions go abreast. -/
structure Abreast (P : Pace σ τ ι) (i j : ι) (pre : World σ → Prop) (x : WalkM σ α)
    (y : WalkM τ α) : Prop where
  minds : P.Minds x
  ends : ∀ s t, pre s → P.Rel i s t → P.Good (endOf (x s)) → P.Ends j s (x s) (y t)

variable {pre pre' : World σ → Prop}

/-! ## Actions -/

theorem Minds.pure (a : α) : P.Minds (pure a) := fun _ h => h

theorem Minds.throw (e : Stop) : P.Minds (throw e : WalkM σ α) := fun _ h => h

/-- What is still there at the end of two actions was there at the end of the first one. -/
theorem good_first {x : WalkM σ α} {f : α → WalkM σ β} (hf : ∀ a, P.Minds (f a)) {s : World σ}
    (h : P.Good (endOf ((x >>= f) s))) : P.Good (endOf (x s)) := by
  simp only [Bind.bind, EStateM.bind] at h
  cases hx : x s with
  | ok a s₁ => rw [hx] at h; exact hf a s₁ h
  | error e s₁ => rw [hx] at h; exact h

theorem Minds.bind {x : WalkM σ α} {f : α → WalkM σ β} (hx : P.Minds x) (hf : ∀ a, P.Minds (f a)) :
    P.Minds (x >>= f) := fun s h => hx s (good_first hf h)

theorem Abreast.mono {x : WalkM σ α} {y : WalkM τ α} (h : P.Abreast i j pre x y)
    (hpre : ∀ s t, P.Rel i s t → pre' s → pre s) : P.Abreast i j pre' x y :=
  ⟨h.minds, fun s t hs hrel => h.ends s t (hpre s t hrel hs) hrel⟩

theorem Abreast.pure (a : α) : P.Abreast i i pre (pure a) (pure a) :=
  ⟨.pure a, fun s _ _ h _ => .ok h (.refl s)⟩

theorem Abreast.throw (e : Stop) : P.Abreast (α := α) i j pre (throw e) (throw e) :=
  ⟨.throw e, fun _ _ _ h _ => .error (P.stopped h)⟩

/-- One action after the other. What the second one relies on, `post`, is there after the first one,
    which keeps what is known. -/
theorem Abreast.bind {x : WalkM σ α} {y : WalkM τ α} {f : α → WalkM σ β} {g : α → WalkM τ β}
    (post : α → World σ → Prop) (hxy : P.Abreast i j pre x y)
    (hpost : ∀ s a s', pre s → P.Learns s s' → post a s')
    (hfg : ∀ a, P.Abreast j k (post a) (f a) (g a)) : P.Abreast i k pre (x >>= f) (y >>= g) := by
  refine ⟨.bind hxy.minds fun a => (hfg a).minds, fun s t hpre hrel hgood => ?_⟩
  have hends := hxy.ends s t hpre hrel (good_first (fun a => (hfg a).minds) hgood)
  simp only [Bind.bind, EStateM.bind] at hgood ⊢
  generalize y t = r at hends ⊢
  generalize x s = q at hends hgood ⊢
  cases hends with
  | ok h hl => exact ((hfg _).ends _ _ (hpost s _ _ hpre hl) h hgood).learn hl
  | error h => exact .error h

/-- What is looked up in the heap is the same for both, and what is done next may rely on it. -/
theorem Abreast.look {F : Heap → α} {f : α → WalkM σ β} {g : α → WalkM τ β}
    (hF : ∀ s t, pre s → P.Rel i s t → F t.heap = F s.heap)
    (hfg : ∀ a, P.Abreast i j (fun s => pre s ∧ F s.heap = a) (f a) (g a)) :
    P.Abreast i j pre (WalkM.look F >>= f) (WalkM.look F >>= g) := by
  refine ⟨.bind (fun _ h => h) fun a => (hfg a).minds, fun s t hpre hrel hgood => ?_⟩
  rw [look_bind] at hgood ⊢
  rw [look_bind, hF s t hpre hrel]
  exact (hfg _).ends s t ⟨hpre, rfl⟩ hrel hgood

/-! ## What is found in the heap -/

section

variable {s : World σ} {t : World τ} {x y : Ref} (hrel : P.Rel i s t)

include hrel

theorem fields? (hx : P.Known s x) : t.heap.fields? x = s.heap.fields? x := by
  rw [Heap.fields?, Heap.fields?, P.cell hrel hx]

theorem items? (hx : P.Known s x) : t.heap.items? x = s.heap.items? x := by
  rw [Heap.items?, Heap.items?, P.cell hrel hx]

theorem field (hx : P.Known s x) (name : Text) : t.heap.field x name = s.heap.field x name := by
  rw [Heap.field, Heap.field, P.fields? hrel hx]

theorem isNode {d : Datum} (hd : ∀ x, d = .ref x → P.Known s x) :
    t.heap.isNode d = s.heap.isNode d := by
  cases d with
  | scalar _ => rfl
  | ref x => simp only [Heap.isNode, Heap.nodeType?, P.field hrel (hd x rfl)]

theorem known_item {items : List Datum} (hx : P.Known s x) (hi : s.heap.items? x = some items)
    (hy : .ref y ∈ items) : P.Known s y := P.links hrel hx (.inr ⟨items, hi, hy⟩)

theorem known_field {key : Key} (hx : P.Known s x)
    (hy : (s.heap.fields? x).bind (Fields.get? · key) = some (.ref y)) : P.Known s y := by
  obtain ⟨fields, hf, hg⟩ := Option.bind_eq_some_iff.1 hy
  exact P.links hrel hx (.inl ⟨fields, key, hf, Fields.mem_of_get? hg⟩)

end

/-! ## Lists and fields -/

/-- A node to which the walks may come. It hangs in a slot of a record, or is a root. -/
structure Hung (P : Pace σ τ ι) (i : ι) (r : Ref) (slot : Heap.Slot) (s : World σ) : Prop where
  node : s.heap.isNode (.ref r) = true
  known : P.Known s r
  opens : P.Opens i slot.parent?
  parent : ∀ p, slot.parent? = some p → P.Known s p
  held : ∀ p, slot.parent? = some p → slot.index? = none →
    (s.heap.fields? p).bind (Fields.get? · slot.key) = some (.ref r)

section

variable {f : Ref → Heap.Slot → WalkM σ Datum} {g : Ref → Heap.Slot → WalkM τ Datum}
  (hfg : ∀ r slot, P.Abreast i i (P.Hung i r slot) (f r slot) (g r slot)) {p : Ref}

include hfg

theorem visitItems_abreast (hp : P.Opens i (some p)) (key : Key) (list : Ref) (steps n : Nat) :
    P.Abreast i i (fun s => P.Known s p ∧ P.Known s list)
      (Walker.visitItems f p key list steps n) (Walker.visitItems g p key list steps n) := by
  induction steps generalizing n with
  | zero => exact .throw _
  | succ steps ih =>
    have hitem {s : World σ} {t : World τ} {d : Datum} (hrel : P.Rel i s t)
        (hlist : P.Known s list) (hd : ((s.heap.items? list).getD [])[n]? = some d) :
        ∀ x, d = .ref x → P.Known s x := by
      rintro x rfl
      cases hi : s.heap.items? list with
      | none => simp [hi] at hd
      | some items =>
        rw [hi] at hd
        exact P.known_item hrel hlist hi (List.mem_of_getElem? hd)
    refine .look ?_ fun item => ?_
    · rintro s t ⟨-, hlist⟩ hrel
      rw [P.items? hrel hlist]
      rcases hd : ((s.heap.items? list).getD [])[n]? with _ | d
      · rfl
      · rw [Option.map_some, Option.map_some, P.isNode hrel (hitem hrel hlist hd)]
    · split
      · exact .pure ()
      · next child =>
        refine .bind (fun _ s => P.Known s p ∧ P.Known s list)
          ((hfg child ⟨some p, key, some n⟩).mono ?_) ?_ fun result => ih _
        · rintro s t hrel ⟨⟨hparent, hlist⟩, hlook⟩
          obtain ⟨d, hd, hnode⟩ := Option.map_eq_some_iff.1 hlook
          obtain ⟨rfl, hnode⟩ := Prod.mk.inj hnode
          refine ⟨hnode, hitem hrel hlist hd child rfl, hp, ?_, fun _ _ h => nomatch h⟩
          rintro _ ⟨⟩
          exact hparent
        · rintro s _ s' ⟨⟨hparent, hlist⟩, -⟩ hl
          exact ⟨hl p hparent, hl list hlist⟩
      · exact (ih _).mono fun s t _ h => h.1

theorem visitField_abreast (hp : P.Opens i (some p)) (steps : Nat) (key : Key) (d : Datum) :
    P.Abreast i i (fun s => P.Known s p ∧ (s.heap.fields? p).bind (Fields.get? · key) = some d)
      (Walker.visitField f p steps key d) (Walker.visitField g p steps key d) := by
  cases d with
  | scalar _ => exact .pure ()
  | ref r =>
    refine .look ?_ fun found => ?_
    · rintro s t ⟨hparent, hget⟩ hrel
      have hr : P.Known s r := P.known_field hrel hparent hget
      rw [P.cell hrel hr, P.isNode hrel (by rintro x ⟨⟩; exact hr)]
    · split
      · refine (visitItems_abreast hfg hp _ _ _ _).mono ?_
        rintro s t hrel ⟨⟨hparent, hget⟩, -⟩
        exact ⟨hparent, P.known_field hrel hparent hget⟩
      · refine .bind (fun _ _ => True) ((hfg r ⟨some p, key, none⟩).mono ?_)
          (fun _ _ _ _ _ => trivial) fun _ => .pure ()
        rintro s t hrel ⟨⟨hparent, hget⟩, hlook⟩
        refine ⟨(Prod.mk.inj hlook).2, P.known_field hrel hparent hget, hp, ?_, ?_⟩
        · rintro _ ⟨⟩
          exact hparent
        · rintro _ ⟨⟩ -
          exact hget
      · exact .pure ()

theorem forPresent_abreast (hp : P.Opens i (some p)) (steps : Nat) (keys : List Key) :
    P.Abreast i i (fun s => P.Known s p)
      (Fields.forPresent (fun key => look fun h => (h.fields? p).bind (Fields.get? · key))
        (Walker.visitField f p steps) keys)
      (Fields.forPresent (fun key => look fun h => (h.fields? p).bind (Fields.get? · key))
        (Walker.visitField g p steps) keys) := by
  induction keys with
  | nil => exact .pure ()
  | cons key rest ih =>
    refine .look (fun s t hparent hrel => by rw [P.fields? hrel hparent]) fun d? => ?_
    split
    · refine .bind (fun _ s => P.Known s p) (visitField_abreast hfg hp steps key _) ?_ fun _ => ih
      intro s _ s' h hl
      exact hl p h.1
    · exact ih.mono fun s t _ h => h.1

theorem visitFields_abreast (hp : P.Opens i (some p)) (steps : Nat) :
    P.Abreast i i (fun s => P.Known s p) (Walker.visitFields f steps (.ref p))
      (Walker.visitFields g steps (.ref p)) := by
  rw [Walker.visitFields_ref, Walker.visitFields_ref]
  refine .look (fun s t hparent hrel => by rw [P.fields? hrel hparent]) fun keys? => ?_
  split
  · exact (forPresent_abreast hfg hp _ _).mono fun s t _ h => h.1
  · exact .throw _

/-- Below what stands in the place of a node two walks go abreast, if they do at every node. -/
theorem visitBelow_abreast (steps : Nat) {entered : Walker.Entered}
    (he : entered.skipped = false → ∀ p, entered.current = .ref p → P.Opens i (some p)) :
    P.Abreast i i (fun s => ∀ p, entered.current = .ref p → P.Known s p)
      (Walker.visitBelow f steps entered) (Walker.visitBelow g steps entered) := by
  obtain ⟨current, skipped⟩ := entered
  cases skipped with
  | true => exact .pure ()
  | false =>
    cases current with
    | scalar x =>
      by_cases hx : (Datum.scalar x).isNull = true
      · simp only [Walker.visitBelow, hx]
        exact .pure ()
      · simp only [Walker.visitBelow, hx]
        exact .throw (.fault .notARecord)
    | ref p => exact (visitFields_abreast hfg (he rfl p rfl) steps).mono fun s t _ h => h p rfl

end

/-- The pace at which nothing needs to be kept in common. -/
def free (P : Pace σ τ ι) : Pace σ τ ι where
  Rel := fun _ _ _ => False
  Stopped := P.Stopped
  Opens := fun _ _ => True
  Known := P.Known
  Good := P.Good
  stopped := False.elim
  cell := False.elim
  links := False.elim

theorem visitBelow_minds {f : Ref → Heap.Slot → WalkM σ Datum} (hf : ∀ r slot, P.Minds (f r slot))
    (i : ι) (steps : Nat) (entered : Walker.Entered) :
    P.Minds (Walker.visitBelow f steps entered) := by
  have hfree (r : Ref) (slot : Heap.Slot) :
      P.free.Abreast i i (P.free.Hung i r slot) (f r slot) (throw .outOfSteps) :=
    ⟨hf r slot, fun _ _ _ h => h.elim⟩
  exact (visitBelow_abreast hfree steps fun _ _ _ => trivial).minds

/-! ## Nodes -/

/-- Two walks have come to a node, one in `s` and its counterpart, and go abreast below it. Then they
    come away from it abreast, and are as they were before. -/
structure Arrived (P : Pace σ τ ι) (i j : ι) (s : World σ) (entered : Walker.Entered)
    (depart : WalkM σ Datum) (depart' : WalkM τ Datum) (s₁ : World σ) (t₁ : World τ) : Prop where
  rel : P.Rel j s₁ t₁
  learns : P.Learns s s₁
  opens : entered.skipped = false → ∀ p, entered.current = .ref p → P.Opens j (some p)
  known : ∀ p, entered.current = .ref p → P.Known s₁ p
  departs : ∀ s₂ t₂, P.Rel j s₂ t₂ → P.Learns s₁ s₂ → P.Good (endOf (depart s₂)) →
    P.Ends i s₂ (depart s₂) (depart' t₂)

/-- Two walks stay abreast when they come to a node and when they go away from it. -/
structure AtNodes (P : Pace σ τ ι) (arrive : Ref → Heap.Slot → WalkM σ Walker.Entered)
    (arrive' : Ref → Heap.Slot → WalkM τ Walker.Entered)
    (depart : Ref → Heap.Slot → Walker.Entered → WalkM σ Datum)
    (depart' : Ref → Heap.Slot → Walker.Entered → WalkM τ Datum) : Prop where
  minds_arrive : ∀ r slot, P.Minds (arrive r slot)
  minds_depart : ∀ r slot entered, P.Minds (depart r slot entered)
  arrives : ∀ i r slot s t, P.Hung i r slot s → P.Rel i s t → P.Good (endOf (arrive r slot s)) →
    (∃ j entered s₁ t₁, arrive r slot s = .ok entered s₁ ∧ arrive' r slot t = .ok entered t₁ ∧
        P.Arrived i j s entered (depart r slot entered) (depart' r slot entered) s₁ t₁) ∨
      ∃ e s₁ t₁, arrive r slot s = .error e s₁ ∧ arrive' r slot t = .error e t₁ ∧ P.Stopped s₁ t₁

/-- Walks that stay abreast at nodes are abreast all the way. -/
theorem visitBy_abreast {arrive : Ref → Heap.Slot → WalkM σ Walker.Entered}
    {arrive' : Ref → Heap.Slot → WalkM τ Walker.Entered}
    {depart : Ref → Heap.Slot → Walker.Entered → WalkM σ Datum}
    {depart' : Ref → Heap.Slot → Walker.Entered → WalkM τ Datum}
    (h : P.AtNodes arrive arrive' depart depart') (steps : Nat) (i : ι) (r : Ref)
    (slot : Heap.Slot) :
    P.Abreast i i (P.Hung i r slot) (Walker.visitBy arrive depart steps r slot)
      (Walker.visitBy arrive' depart' steps r slot) := by
  induction steps generalizing i r slot with
  | zero => exact .throw _
  | succ steps ih =>
    have hminds (entered : Walker.Entered) :
        P.Minds (Walker.visitBelow (Walker.visitBy arrive depart steps) steps entered >>= fun _ =>
          depart r slot entered) :=
      .bind (visitBelow_minds (fun r slot => (ih i r slot).minds) i _ _) fun _ =>
        h.minds_depart r slot entered
    refine ⟨.bind (h.minds_arrive r slot) hminds, fun s t hhung hrel hgood => ?_⟩
    rcases h.arrives i r slot s t hhung hrel (good_first hminds hgood) with
      ⟨j, entered, s₁, t₁, hs, ht, ha⟩ | ⟨e, s₁, t₁, hs, ht, hstop⟩
    · rw [Walker.visitBy, bind_of_eq_ok hs] at hgood ⊢
      rw [Walker.visitBy, bind_of_eq_ok ht]
      have hbelow := (visitBelow_abreast (ih j) steps ha.opens).mono fun s₂ _ _ (hs : s₂ = s₁) =>
        hs ▸ ha.known
      have hdepart : P.Abreast j i (fun s₂ => P.Learns s₁ s₂) (depart r slot entered)
          (depart' r slot entered) :=
        ⟨h.minds_depart r slot entered, fun s₂ t₂ hl hrel hgood => ha.departs s₂ t₂ hrel hl hgood⟩
      have hboth := hbelow.bind (fun _ s₂ => P.Learns s₁ s₂) (fun _ _ _ hs hl => hs ▸ hl)
        fun _ => hdepart
      exact (hboth.ends s₁ t₁ rfl ha.rel hgood).learn ha.learns
    · simp only [Walker.visitBy, Bind.bind, EStateM.bind, hs, ht]
      exact .error hstop

end Pace

/-! ## What a walk keeps -/

/-- The pace at which a walk is compared with itself to see that it keeps an invariant. -/
def Pace.keeping (I : World σ → Prop) : Pace σ σ Unit where
  Rel _ s t := s = t ∧ I s
  Stopped _ _ := True
  Opens _ _ := True
  Known _ _ := True
  Good _ := True
  stopped _ := trivial
  cell h _ := by rw [h.1]
  links _ _ _ := trivial

theorem Pace.keeping_ends {I : World σ → Prop} {s : World σ}
    {x : EStateM.Result Stop (World σ) α} (h : ∀ a s', x = .ok a s' → I s') :
    (Pace.keeping I).Ends () s x x := by
  cases x with
  | ok a s' => exact .ok ⟨rfl, h a s' rfl⟩ fun _ _ => trivial
  | error e s' => exact .error trivial

/-- What is kept when a walk comes to a node and when it goes away from it is kept by the walk. -/
theorem Walker.walk_invariant {w : Walker σ} {I : World σ → Prop}
    (harrive : ∀ root r slot s entered s', I s → w.arrive root r slot s = .ok entered s' → I s')
    (hdepart : ∀ root r slot entered s d s', I s → w.depart root r slot entered s = .ok d s' → I s')
    {steps : Nat} {root d : Datum} {s s' : World σ} (hs : I s)
    (hrun : w.walk steps root s = .ok d s') : I s' := by
  cases hn : s.heap.isNode root with
  | false =>
    rw [walk_data hn] at hrun
    cases hrun
    exact hs
  | true =>
    cases root with
    | scalar _ => cases hn
    | ref r =>
      rw [walk_node hn, visit_eq_visitBy] at hrun
      have hnodes : (Pace.keeping I).AtNodes (w.arrive (.ref r)) (w.arrive (.ref r))
          (w.depart (.ref r)) (w.depart (.ref r)) := by
        refine ⟨fun _ _ _ _ => trivial, fun _ _ _ _ _ => trivial, ?_⟩
        rintro _ x slot s₁ _ - ⟨rfl, hs₁⟩ -
        cases hx : w.arrive (.ref r) x slot s₁ with
        | error e s₂ => exact .inr ⟨e, s₂, s₂, rfl, rfl, trivial⟩
        | ok entered s₂ =>
          refine .inl ⟨(), entered, s₂, s₂, rfl, rfl, ⟨rfl, harrive _ _ _ _ _ _ hs₁ hx⟩,
            fun _ _ => trivial, fun _ _ _ => trivial, fun _ _ => trivial, ?_⟩
          rintro s₃ _ ⟨rfl, hs₃⟩ - -
          exact Pace.keeping_ends fun d s₄ h => hdepart _ _ _ _ _ _ _ hs₃ h
      have hhung : (Pace.keeping I).Hung () r .root s := by
        refine ⟨hn, trivial, trivial, fun _ _ => trivial, ?_⟩
        rintro _ ⟨⟩
      have hends := (Pace.visitBy_abreast hnodes steps () r .root).ends s s hhung ⟨rfl, hs⟩ trivial
      rw [hrun] at hends
      cases hends with
      | ok h _ => exact h.2

end Arbor
