import Mathlib.Data.List.Basic

/-!
# Shades.Ends

How a computation that may fail ends.

`Ends x P E` says that `P` holds of the result of `x`, or `E` of its failure.  So
one statement has what a function establishes and in which ways it can fail, and
such statements are put together along `>>=`.
-/

namespace Shades

/-- The result meets `P`, or the failure meets `E`. -/
def Ends {ε α : Type} (x : Except ε α) (P : α → Prop) (E : ε → Prop) : Prop :=
  match x with
  | .ok a => P a
  | .error e => E e

section ends

variable {ε α β : Type} {x : Except ε α} {P P' : α → Prop} {E E' : ε → Prop} {Q : β → Prop}
  {f : α → Except ε β} {a : α} {e : ε}

@[simp] theorem ends_ok : Ends (.ok a) P E ↔ P a := Iff.rfl

@[simp] theorem ends_error : Ends (.error e) P E ↔ E e := Iff.rfl

theorem Ends.of_ok (h : Ends x P E) (hx : x = .ok a) : P a := by
  rw [hx] at h
  exact h

theorem Ends.of_error (h : Ends x P E) (hx : x = .error e) : E e := by
  rw [hx] at h
  exact h

theorem Ends.mono (h : Ends x P E) (hP : ∀ a, P a → P' a) (hE : ∀ e, E e → E' e) :
    Ends x P' E' := by
  cases x with
  | ok a => exact hP a h
  | error e => exact hE e h

theorem Ends.imp (h : Ends x P E) (hP : ∀ a, P a → P' a) : Ends x P' E := h.mono hP fun _ he => he

/-- One computation after the other. -/
theorem Ends.bind (h : Ends x P E) (hf : ∀ a, P a → Ends (f a) Q E) : Ends (x >>= f) Q E := by
  cases x with
  | ok a => exact hf a h
  | error e => exact h

/-- Two computations that are known together. -/
theorem Ends.bind_bind {γ : Type} {g : β → Except ε γ} {R : γ → Prop} (h : Ends (x >>= f) Q E)
    (hg : ∀ b, Q b → Ends (g b) R E) : Ends (x >>= fun a => f a >>= g) R E := by
  cases x with
  | ok a => exact Ends.bind (x := f a) h hg
  | error e => exact h

@[simp] theorem ends_ok_bind : Ends (.ok a >>= f) Q E ↔ Ends (f a) Q E := Iff.rfl

theorem ends_ite {p : Prop} [Decidable p] {y : Except ε α} (hx : p → Ends x P E)
    (hy : ¬ p → Ends y P E) : Ends (if p then x else y) P E := by
  split
  case isTrue h => exact hx h
  case isFalse h => exact hy h

/-- A loop over a list, with an invariant that speaks of what is left of it. -/
theorem ends_foldlM {f : β → α → Except ε β} {I : List α → β → Prop}
    (hstep : ∀ a as b, I (a :: as) b → Ends (f b a) (I as) E) {as : List α} {b : β}
    (hb : I as b) : Ends (as.foldlM f b) (I []) E := by
  induction as generalizing b with
  | nil => exact hb
  | cons a as ih =>
    rw [List.foldlM_cons]
    exact (hstep a as b hb).bind fun b' hb' => ih hb'

/-- The second of two computations, when the first has a result. -/
theorem bind_of_ok (h : x = .ok a) : (x >>= f) = f a := by
  rw [h]
  rfl

/-- The first of two computations that both have a result. -/
theorem exists_of_bind_eq_ok {b : β} (h : (x >>= f) = .ok b) :
    ∃ a, x = .ok a ∧ f a = .ok b := by
  cases x with
  | ok a => exact ⟨a, rfl, h⟩
  | error e => cases h

theorem exists_of_map_eq_ok {f : α → β} {b : β} (h : x.map f = .ok b) :
    ∃ a, x = .ok a ∧ f a = b := by
  cases x with
  | ok a => exact ⟨a, rfl, Except.ok.inj h⟩
  | error e => cases h

end ends

end Shades
