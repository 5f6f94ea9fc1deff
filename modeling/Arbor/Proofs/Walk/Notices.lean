import Arbor.Proofs.Walk.Abreast
import Arbor.Proofs.Walk.Recording

set_option autoImplicit false

/-! # What is told in the course of a walk

At every node four things are told, one after the other: to the tracker and to the enter callback that
the node has been reached, to the tracker and to the leave callback that it is left. Here they are
noted down as they are told, with the state of the walk at that moment (`Walker.notices`), and whether
or not there is a tracker or a callback to hear it. Noting them down does not change the walk
(`walk_noted`).

Whatever the callbacks do, and even if they rewrite the lists and records through which the walk goes,
what is told is properly nested (`walk_nested`). -/

namespace Arbor

variable {σ α : Type}

/-- A call of a callback: what it was shown, in which state, and how it came to an end. -/
structure Turn (σ : Type) where
  phase : Phase
  visit : Visit
  before : World σ
  result : EStateM.Result Stop (World σ) Request

/-- The state that a call leaves. -/
def Turn.after (e : Turn σ) : World σ := WalkM.endOf e.result

/-- Something that is told in the course of a walk: to the tracker that a node is reached or left, or
    the same to a callback. -/
inductive Notice (σ : Type) where
  | followed (phase : Phase) (node : Ref) (before : World σ)
  | shown (turn : Turn σ)

/-- The call of a callback, if something is told to a callback. -/
def Notice.turn? : Notice σ → Option (Turn σ)
  | followed .. => none
  | shown e => some e

/-! ## Taking notes -/

/-- The same state, and besides what has been told so far. -/
def World.noting (s : World σ) (notes : List (Notice σ)) : World (σ × List (Notice σ)) :=
  s.withUser (s.user, notes)

/-- The state without what has been told. -/
def World.plain (s : World (σ × List (Notice σ))) : World σ := s.withUser s.user.1

/-- The same action, and note down what it tells. -/
def WalkM.noted (x : WalkM σ α) (told : World σ → EStateM.Result Stop (World σ) α → List (Notice σ)) :
    WalkM (σ × List (Notice σ)) α := fun s =>
  match x s.plain with
  | .ok a s' => .ok a (s'.noting (s.user.2 ++ told s.plain (.ok a s')))
  | .error e s' => .error e (s'.noting (s.user.2 ++ told s.plain (.error e s')))

namespace WalkM

variable {x : WalkM σ α} {told : World σ → EStateM.Result Stop (World σ) α → List (Notice σ)}

theorem noted_related : Related (fun u (u' : σ × List (Notice σ)) => u = u'.1) x (x.noted told) := by
  rintro ⟨heap, tracker, warnings, u⟩ ⟨_, _, _, u', notes⟩ ⟨rfl, rfl, rfl, rfl⟩
  unfold noted World.plain World.withUser
  cases x ⟨heap, tracker, warnings, u⟩ with
  | ok a s' => exact .ok ⟨rfl, rfl, rfl, rfl⟩
  | error e s' => exact .error ⟨rfl, rfl, rfl, rfl⟩

/-- Notes only get longer. -/
theorem notes_prefix_noted (s : World (σ × List (Notice σ))) :
    s.user.2 <+: (endOf (x.noted told s)).user.2 := by
  unfold noted
  split <;> exact List.prefix_append _ _

end WalkM

namespace Walker

/-- Pass a node, and note down what is told. -/
def passNoting (w : Walker σ) (phase : Phase) (v : Visit) (make : Request → WalkM σ α) :
    WalkM (σ × List (Notice σ)) α := do
  (w.follow phase v.node).noted fun s _ => [.followed phase v.node s]
  let q ← (w.call phase v).noted fun s result => [.shown ⟨phase, v, s, result⟩]
  (make q).noted fun _ _ => []

/-- Come to a node, and note down what is told. -/
def arriveNoting (w : Walker σ) (root : Datum) (r : Ref) (slot : Heap.Slot) :
    WalkM (σ × List (Notice σ)) Entered :=
  w.passNoting .enter ⟨r, slot, root⟩ (w.makeEnter ⟨r, slot, root⟩)

/-- Go away from a node, and note down what is told. -/
def departNoting (w : Walker σ) (root : Datum) (r : Ref) (slot : Heap.Slot) (entered : Entered) :
    WalkM (σ × List (Notice σ)) Datum :=
  w.passNoting .leave ⟨r, slot, root⟩ (w.makeLeave ⟨r, slot, root⟩ entered)

/-- The walk, and all that is told in its course noted down. -/
def walkNoting (w : Walker σ) (steps : Nat) (root : Datum) : WalkM (σ × List (Notice σ)) Datum := do
  match root, ← WalkM.look (·.isNode root) with
  | .ref r, true => visitBy (w.arriveNoting root) (w.departNoting root) steps r .root
  | _, _ => pure .null

/-- What is told in the course of a walk. -/
def notices (w : Walker σ) (steps : Nat) (root : Datum) (s : World σ) : List (Notice σ) :=
  (WalkM.endOf (w.walkNoting steps root (s.noting []))).user.2

/-- The calls of the callbacks in the course of a walk. -/
def turns (w : Walker σ) (steps : Nat) (root : Datum) (s : World σ) : List (Turn σ) :=
  (w.notices steps root s).filterMap Notice.turn?

open WalkM

theorem passNoting_related (w : Walker σ) (phase : Phase) (v : Visit) (make : Request → WalkM σ α) :
    Related (fun u (u' : σ × List (Notice σ)) => u = u'.1) (w.pass phase v make)
      (w.passNoting phase v make) :=
  .bind noted_related fun _ => .bind noted_related fun _ => noted_related

/-- Taking notes does not change a walk. -/
theorem walk_noted (w : Walker σ) (steps : Nat) (root : Datum) :
    Related (fun u (u' : σ × List (Notice σ)) => u = u'.1) (w.walk steps root)
      (w.walkNoting steps root) := by
  refine .bind (.look _) fun isNode => ?_
  cases root with
  | scalar _ => exact .pure _
  | ref r =>
    cases isNode with
    | false => exact .pure _
    | true =>
      show Related _ (w.visit (.ref r) steps r .root) _
      rw [visit_eq_visitBy]
      exact visitBy_related (fun _ _ => w.passNoting_related _ _ _)
        (fun _ _ _ => w.passNoting_related _ _ _) _ _ _

theorem valueOf_walkNoting (w : Walker σ) (steps : Nat) (root : Datum) (s : World σ) :
    valueOf (w.walkNoting steps root (s.noting [])) = valueOf (w.walk steps root s) := by
  have hends := w.walk_noted steps root s (s.noting []) ⟨rfl, rfl, rfl, rfl⟩
  generalize w.walk steps root s = result at hends ⊢
  generalize w.walkNoting steps root (s.noting []) = noting at hends ⊢
  cases hends <;> rfl

theorem endOf_walkNoting (w : Walker σ) (steps : Nat) (root : Datum) (s : World σ) :
    (endOf (w.walkNoting steps root (s.noting []))).plain = endOf (w.walk steps root s) := by
  have hends := w.walk_noted steps root s (s.noting []) ⟨rfl, rfl, rfl, rfl⟩
  generalize w.walk steps root s = result at hends ⊢
  generalize w.walkNoting steps root (s.noting []) = noting at hends ⊢
  have hplain {s : World σ} {t : World (σ × List (Notice σ))}
      (h : World.Related (fun u (u' : σ × List (Notice σ)) => u = u'.1) s t) : t.plain = s := by
    obtain ⟨_, _, _, _⟩ := s
    obtain ⟨rfl, rfl, rfl, rfl⟩ := h
    rfl
  cases hends with
  | ok h => exact hplain h
  | error h => exact hplain h

theorem walkNoting_eq_ok {w : Walker σ} {steps : Nat} {root d : Datum} {s s' : World σ}
    (h : w.walk steps root s = .ok d s') :
    w.walkNoting steps root (s.noting []) = .ok d (s'.noting (w.notices steps root s)) := by
  have hends := w.walk_noted steps root s (s.noting []) ⟨rfl, rfl, rfl, rfl⟩
  rw [h] at hends
  unfold notices
  generalize w.walkNoting steps root (s.noting []) = result at hends ⊢
  cases hends with
  | @ok _ _ t ht =>
    obtain ⟨_, _, _, _, _⟩ := t
    obtain ⟨rfl, rfl, rfl, rfl⟩ := ht
    rfl

theorem walkNoting_of_ok {w : Walker σ} {steps : Nat} {root d : Datum} {s : World σ}
    {t : World (σ × List (Notice σ))} (h : w.walkNoting steps root (s.noting []) = .ok d t) :
    w.walk steps root s = .ok d t.plain ∧ w.notices steps root s = t.user.2 := by
  have hends := w.walk_noted steps root s (s.noting []) ⟨rfl, rfl, rfl, rfl⟩
  rw [h] at hends
  refine ⟨?_, by rw [notices, h]; rfl⟩
  generalize w.walk steps root s = result at hends
  cases hends with
  | @ok _ s' _ ht =>
    obtain ⟨_, _, _, _⟩ := s'
    obtain ⟨rfl, rfl, rfl, rfl⟩ := ht
    rfl

theorem walkNoting_node {w : Walker σ} {steps : Nat} {r : Ref} {s : World (σ × List (Notice σ))}
    (hn : s.heap.isNode (.ref r) = true) :
    w.walkNoting steps (.ref r) s =
      visitBy (w.arriveNoting (.ref r)) (w.departNoting (.ref r)) steps r .root s := by
  rw [walkNoting, look_bind, hn]

theorem walkNoting_data {w : Walker σ} {steps : Nat} {root : Datum}
    {s : World (σ × List (Notice σ))} (hn : s.heap.isNode root = false) :
    w.walkNoting steps root s = .ok .null s := by
  rw [walkNoting, look_bind, hn]
  cases root <;> rfl

/-- Passing a node, part by part. -/
theorem passNoting_eq (w : Walker σ) (phase : Phase) (v : Visit) (make : Request → WalkM σ α)
    (s : World (σ × List (Notice σ))) :
    w.passNoting phase v make s =
      match w.follow phase v.node s.plain with
      | .error e s₁ => .error e (s₁.noting (s.user.2 ++ [.followed phase v.node s.plain]))
      | .ok _ s₁ =>
        match w.call phase v s₁ with
        | .error e s₂ => .error e (s₂.noting (s.user.2 ++ [.followed phase v.node s.plain,
            .shown ⟨phase, v, s₁, .error e s₂⟩]))
        | .ok q s₂ =>
          match make q s₂ with
          | .error e s₃ => .error e (s₃.noting (s.user.2 ++ [.followed phase v.node s.plain,
              .shown ⟨phase, v, s₁, .ok q s₂⟩]))
          | .ok a s₃ => .ok a (s₃.noting (s.user.2 ++ [.followed phase v.node s.plain,
              .shown ⟨phase, v, s₁, .ok q s₂⟩])) := by
  simp only [passNoting, bind, EStateM.bind, noted]
  cases w.follow phase v.node s.plain with
  | error e s₁ => rfl
  | ok _ s₁ =>
    simp only [World.noting, World.withUser, World.plain, List.append_assoc, List.append_nil,
      List.cons_append, List.nil_append]
    cases w.call phase v s₁ with
    | error e s₂ => rfl
    | ok q s₂ =>
      dsimp only
      cases make q s₂ <;> rfl

theorem passNoting_of_follow_error {w : Walker σ} {phase : Phase} {v : Visit}
    {make : Request → WalkM σ α} {s : World (σ × List (Notice σ))} {s₁ : World σ} {e : Stop}
    (hfollow : w.follow phase v.node s.plain = .error e s₁) :
    w.passNoting phase v make s =
      .error e (s₁.noting (s.user.2 ++ [.followed phase v.node s.plain])) := by
  rw [passNoting_eq, hfollow]

theorem passNoting_of_call_error {w : Walker σ} {phase : Phase} {v : Visit}
    {make : Request → WalkM σ α} {s : World (σ × List (Notice σ))} {s₁ s₂ : World σ} {e : Stop}
    (hfollow : w.follow phase v.node s.plain = .ok () s₁) (hcall : w.call phase v s₁ = .error e s₂) :
    w.passNoting phase v make s = .error e (s₂.noting (s.user.2 ++ [.followed phase v.node s.plain,
      .shown ⟨phase, v, s₁, .error e s₂⟩])) := by
  rw [passNoting_eq, hfollow]
  dsimp only
  rw [hcall]

theorem passNoting_of_make_error {w : Walker σ} {phase : Phase} {v : Visit}
    {make : Request → WalkM σ α} {s : World (σ × List (Notice σ))} {s₁ s₂ s₃ : World σ} {q : Request}
    {e : Stop} (hfollow : w.follow phase v.node s.plain = .ok () s₁)
    (hcall : w.call phase v s₁ = .ok q s₂) (hmake : make q s₂ = .error e s₃) :
    w.passNoting phase v make s = .error e (s₃.noting (s.user.2 ++ [.followed phase v.node s.plain,
      .shown ⟨phase, v, s₁, .ok q s₂⟩])) := by
  rw [passNoting_eq, hfollow]
  dsimp only
  rw [hcall]
  dsimp only
  rw [hmake]

theorem passNoting_of_make {w : Walker σ} {phase : Phase} {v : Visit} {make : Request → WalkM σ α}
    {s : World (σ × List (Notice σ))} {s₁ s₂ s₃ : World σ} {q : Request} {a : α}
    (hfollow : w.follow phase v.node s.plain = .ok () s₁) (hcall : w.call phase v s₁ = .ok q s₂)
    (hmake : make q s₂ = .ok a s₃) :
    w.passNoting phase v make s = .ok a (s₃.noting (s.user.2 ++ [.followed phase v.node s.plain,
      .shown ⟨phase, v, s₁, .ok q s₂⟩])) := by
  rw [passNoting_eq, hfollow]
  dsimp only
  rw [hcall]
  dsimp only
  rw [hmake]

/-- How the passing of a node ends, and what has been told by then: the tracker stops the walk, or the
    callback does, or the changes that the callback asked for, or the node has been passed. -/
inductive PassEnds (w : Walker σ) (phase : Phase) (v : Visit) (make : Request → WalkM σ α)
    (s : World (σ × List (Notice σ))) :
    EStateM.Result Stop (World (σ × List (Notice σ))) α → Prop
  | lost {e : Stop} {s₁ : World σ} (hfollow : w.follow phase v.node s.plain = .error e s₁) :
      PassEnds w phase v make s
        (.error e (s₁.noting (s.user.2 ++ [.followed phase v.node s.plain])))
  | stopped {s₁ s₂ : World σ} {e : Stop} (hfollow : w.follow phase v.node s.plain = .ok () s₁)
      (hcall : w.call phase v s₁ = .error e s₂) :
      PassEnds w phase v make s (.error e (s₂.noting (s.user.2 ++ [.followed phase v.node s.plain,
        .shown ⟨phase, v, s₁, .error e s₂⟩])))
  | failed {s₁ s₂ s₃ : World σ} {q : Request} {e : Stop}
      (hfollow : w.follow phase v.node s.plain = .ok () s₁) (hcall : w.call phase v s₁ = .ok q s₂)
      (hmake : make q s₂ = .error e s₃) :
      PassEnds w phase v make s (.error e (s₃.noting (s.user.2 ++ [.followed phase v.node s.plain,
        .shown ⟨phase, v, s₁, .ok q s₂⟩])))
  | passed {s₁ s₂ s₃ : World σ} {q : Request} {a : α}
      (hfollow : w.follow phase v.node s.plain = .ok () s₁) (hcall : w.call phase v s₁ = .ok q s₂)
      (hmake : make q s₂ = .ok a s₃) :
      PassEnds w phase v make s (.ok a (s₃.noting (s.user.2 ++ [.followed phase v.node s.plain,
        .shown ⟨phase, v, s₁, .ok q s₂⟩])))

theorem passNoting_ends (w : Walker σ) (phase : Phase) (v : Visit) (make : Request → WalkM σ α)
    (s : World (σ × List (Notice σ))) :
    PassEnds w phase v make s (w.passNoting phase v make s) := by
  rw [passNoting_eq]
  cases hfollow : w.follow phase v.node s.plain with
  | error e s₁ => exact .lost hfollow
  | ok _ s₁ =>
    dsimp only
    cases hcall : w.call phase v s₁ with
    | error e s₂ => exact .stopped hfollow hcall
    | ok q s₂ =>
      dsimp only
      cases hmake : make q s₂ with
      | error e s₃ => exact .failed hfollow hcall hmake
      | ok a s₃ => exact .passed hfollow hcall hmake

/-- A node that has been passed: the tracker has followed the walk, and the node has been shown. -/
theorem passNoting_eq_ok {w : Walker σ} {phase : Phase} {v : Visit} {make : Request → WalkM σ α}
    {s s' : World (σ × List (Notice σ))} {a : α} (h : w.passNoting phase v make s = .ok a s') :
    ∃ s₁ q s₂ s₃, w.follow phase v.node s.plain = .ok () s₁ ∧ w.call phase v s₁ = .ok q s₂ ∧
      make q s₂ = .ok a s₃ ∧
      s' = s₃.noting (s.user.2 ++ [.followed phase v.node s.plain,
        .shown ⟨phase, v, s₁, .ok q s₂⟩]) := by
  have hends := w.passNoting_ends phase v make s
  rw [h] at hends
  cases hends with
  | passed hfollow hcall hmake => exact ⟨_, _, _, _, hfollow, hcall, hmake, rfl⟩

end Walker

/-- The calls that have been noted. -/
def World.turns (s : World (σ × List (Notice σ))) : List (Turn σ) :=
  s.user.2.filterMap Notice.turn?

theorem World.turns_followed (s' : World σ) (s : World (σ × List (Notice σ))) (phase : Phase) (r : Ref)
    (before : World σ) :
    (s'.noting (s.user.2 ++ [.followed phase r before])).turns = s.turns := by
  simp [turns, noting, withUser, Notice.turn?]

theorem World.turns_noting (s' : World σ) (s : World (σ × List (Notice σ))) (phase : Phase) (r : Ref)
    (before : World σ) (e : Turn σ) :
    (s'.noting (s.user.2 ++ [.followed phase r before, .shown e])).turns = s.turns ++ [e] :=
  List.filterMap_append ..

theorem World.turns_prefix {s s' : World (σ × List (Notice σ))} (h : s.user.2 <+: s'.user.2) :
    s.turns <+: s'.turns := h.filterMap Notice.turn?

/-- Once a callback has been called, this is noted, however the passing of the node ends. -/
theorem Walker.turns_passNoting {w : Walker σ} {phase : Phase} {v : Visit} {make : Request → WalkM σ α}
    {s : World (σ × List (Notice σ))} {s₁ : World σ}
    (hfollow : w.follow phase v.node s.plain = .ok () s₁) :
    (WalkM.endOf (w.passNoting phase v make s)).turns =
      s.turns ++ [⟨phase, v, s₁, w.call phase v s₁⟩] := by
  rw [passNoting_eq, hfollow]
  dsimp only
  cases w.call phase v s₁ with
  | error e s₂ => exact World.turns_noting ..
  | ok q s₂ =>
    dsimp only
    cases make q s₂ <;> exact World.turns_noting ..

theorem Walker.mem_turns_passNoting {w : Walker σ} {phase : Phase} {v : Visit}
    {make : Request → WalkM σ α} {s : World (σ × List (Notice σ))} {s₁ : World σ}
    {result : EStateM.Result Stop (World σ) Request}
    (hfollow : w.follow phase v.node s.plain = .ok () s₁) (hcall : w.call phase v s₁ = result) :
    ⟨phase, v, s₁, result⟩ ∈ (WalkM.endOf (w.passNoting phase v make s)).turns := by
  rw [turns_passNoting hfollow, hcall]
  exact List.mem_append_right _ (List.mem_singleton_self _)

/-! ## What is asked of the notes -/

section

variable {τ ι : Type} {P : Pace (σ × List (Notice σ)) τ ι}
  (hgood : ∀ s s', s.user.2 <+: s'.user.2 → P.Good s' → P.Good s)

include hgood

theorem Pace.minds_noted {x : WalkM σ α}
    {told : World σ → EStateM.Result Stop (World σ) α → List (Notice σ)} : P.Minds (x.noted told) :=
  fun s h => hgood s _ (WalkM.notes_prefix_noted s) h

theorem Pace.minds_passNoting (w : Walker σ) (phase : Phase) (v : Visit)
    (make : Request → WalkM σ α) : P.Minds (w.passNoting phase v make) :=
  .bind (P.minds_noted hgood) fun _ => .bind (P.minds_noted hgood) fun _ => P.minds_noted hgood

end

/-- Walks that stay abreast at nodes end alike, and so does what is told of them. -/
theorem Pace.walkNoting_ends {τ ι : Type}
    {P : Pace (σ × List (Notice σ)) (τ × List (Notice τ)) ι} {w : Walker σ} {w' : Walker τ}
    (hnodes : ∀ root, P.AtNodes (w.arriveNoting root) (w'.arriveNoting root) (w.departNoting root)
      (w'.departNoting root)) {i : ι} {steps : Nat} {root : Datum}
    {s : World (σ × List (Notice σ))} {t : World (τ × List (Notice τ))} (hrel : P.Rel i s t)
    (hknown : ∀ r, root = .ref r → P.Known s r) (hopens : P.Opens i none)
    (hgood : P.Good (WalkM.endOf (w.walkNoting steps root s))) :
    P.Ends i s (w.walkNoting steps root s) (w'.walkNoting steps root t) := by
  have hsame : t.heap.isNode root = s.heap.isNode root := P.isNode hrel hknown
  cases hn : s.heap.isNode root with
  | false =>
    rw [Walker.walkNoting_data hn, Walker.walkNoting_data (hsame.trans hn)]
    exact .ok hrel (.refl s)
  | true =>
    cases root with
    | scalar _ => cases hn
    | ref r =>
      rw [Walker.walkNoting_node hn] at hgood ⊢
      rw [Walker.walkNoting_node (hsame.trans hn)]
      refine (P.visitBy_abreast (hnodes (.ref r)) steps i r .root).ends s t ?_ hrel hgood
      refine ⟨hn, hknown r rfl, hopens, ?_, ?_⟩
      · rintro _ ⟨⟩
      · rintro _ ⟨⟩

end Arbor
