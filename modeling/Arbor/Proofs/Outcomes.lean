import Mathlib.Data.List.Forall2

set_option autoImplicit false

/-! # Outcomes

What is known of an answer, and of the fault if there is no answer (`Yields`). The rules follow the ways in
which answers are put together, so that what holds of the parts of a computation is told of the whole. -/

namespace Arbor

variable {ε α β : Type}

/-- An answer with the property `Q`, or else a fault with the property `F`. -/
def Yields (F : ε → Prop) (Q : α → Prop) : Except ε α → Prop
  | .ok a => Q a
  | .error f => F f

namespace Yields

variable {F : ε → Prop} {P Q : α → Prop} {R : β → Prop} {x : Except ε α}

@[simp] theorem ok {a : α} : Yields F Q (.ok a) ↔ Q a := Iff.rfl

@[simp] theorem pure {a : α} : Yields F Q (Pure.pure a) ↔ Q a := Iff.rfl

@[simp] theorem error {f : ε} : Yields F Q (.error f) ↔ F f := Iff.rfl

theorem mono (hx : Yields F P x) (h : ∀ a, P a → Q a) : Yields F Q x := by
  cases x with
  | ok a => exact h a hx
  | error f => exact hx

theorem imp_fault {F' : ε → Prop} (hx : Yields F Q x) (h : ∀ f, F f → F' f) : Yields F' Q x := by
  cases x with
  | ok a => exact hx
  | error f => exact h f hx

/-- What is known of an answer holds of it if there is one. -/
theorem of_eq_ok (hx : Yields F Q x) {a : α} (h : x = .ok a) : Q a := by
  rwa [h] at hx

/-- What is known of an answer in two ways is known of it together. -/
theorem and (hp : Yields F P x) (hq : Yields F Q x) : Yields F (fun a => P a ∧ Q a) x := by
  cases x with
  | ok a => exact ⟨hp, hq⟩
  | error f => exact hp

theorem bind {f : α → Except ε β} (hx : Yields F P x) (hf : ∀ a, P a → Yields F R (f a)) :
    Yields F R (x >>= f) := by
  cases x with
  | ok a => exact hf a hx
  | error f => exact hx

theorem map {f : α → β} (hx : Yields F P x) (hf : ∀ a, P a → R (f a)) : Yields F R (f <$> x) := by
  cases x with
  | ok a => exact hf a hx
  | error f => exact hx

/-- What each element yields, all of them yield together. -/
theorem mapM {f : α → Except ε β} {l : List α} (hf : ∀ a ∈ l, Yields F R (f a)) :
    Yields F (fun bs => ∀ b ∈ bs, R b) (l.mapM f) := by
  induction l with
  | nil => exact fun _ hb => absurd hb List.not_mem_nil
  | cons a l ih =>
    obtain ⟨ha, hl⟩ := List.forall_mem_cons.1 hf
    rw [List.mapM_cons]
    refine bind ha fun b hb => bind (ih hl) fun bs hbs => ?_
    exact List.forall_mem_cons.2 ⟨hb, hbs⟩

/-- What each element yields, the outcomes of all of them yield in the same order. -/
theorem mapM_forall₂ {R : α → β → Prop} {f : α → Except ε β} {l : List α} (hf : ∀ a ∈ l, Yields F (R a) (f a)) :
    Yields F (List.Forall₂ R l) (l.mapM f) := by
  induction l with
  | nil => exact .nil
  | cons a l ih =>
    obtain ⟨ha, hl⟩ := List.forall_mem_cons.1 hf
    rw [List.mapM_cons]
    refine bind ha fun b hb => bind (ih hl) fun bs hbs => ?_
    exact .cons hb hbs

/-- If no fault is possible, there is an answer. -/
theorem exists_ok (hx : Yields (fun _ : ε => False) Q x) : ∃ a, x = .ok a ∧ Q a := by
  cases x with
  | ok a => exact ⟨a, rfl, hx⟩
  | error f => exact hx.elim

end Yields

end Arbor
