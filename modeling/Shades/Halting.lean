import Mathlib.Logic.Relation
import Mathlib.Order.RelClasses

/-!
# Shades.Halting

Programs that take one step after another and may never stop.

A step leads to the next state or to the end.  `runSteps` takes a bounded number
of steps, and `Halts` says that some number is enough.  Where a measure goes down
in every step that changes the state, the program stops exactly when it never
comes to a state that steps to itself.
-/

namespace Shades

section halting

variable {σ τ ε φ : Type} {step : σ → σ ⊕ ε} {step' : τ → τ ⊕ φ} {s t : σ} {e : ε} {fuel : Nat}

/-- At most so many steps. -/
def runSteps (step : σ → σ ⊕ ε) : Nat → σ → Option ε
  | 0, _ => none
  | fuel + 1, s =>
    match step s with
    | .inl s' => runSteps step fuel s'
    | .inr e => some e

/-- The states that one comes to. -/
def Reaches (step : σ → σ ⊕ ε) : σ → σ → Prop :=
  Relation.ReflTransGen fun s s' => step s = .inl s'

def Halts (step : σ → σ ⊕ ε) (s : σ) : Prop := ∃ fuel, runSteps step fuel s ≠ none

theorem runSteps_inl (h : step s = .inl t) (fuel : Nat) :
    runSteps step (fuel + 1) s = runSteps step fuel t := by
  simp only [runSteps, h]

theorem runSteps_inr (h : step s = .inr e) (fuel : Nat) : runSteps step (fuel + 1) s = some e := by
  simp only [runSteps, h]

theorem halts_of_inr (h : step s = .inr e) : Halts step s :=
  ⟨1, by simp [runSteps_inr h]⟩

theorem halts_iff_of_inl (h : step s = .inl t) : Halts step s ↔ Halts step t := by
  constructor
  · rintro ⟨fuel, hfuel⟩
    cases fuel with
    | zero => exact absurd rfl hfuel
    | succ fuel => exact ⟨fuel, by rwa [runSteps_inl h] at hfuel⟩
  · rintro ⟨fuel, hfuel⟩
    exact ⟨fuel + 1, by rwa [runSteps_inl h]⟩

theorem Reaches.halts (h : Reaches step s t) : Halts step s ↔ Halts step t := by
  induction h with
  | refl => exact Iff.rfl
  | tail _ hstep ih => exact ih.trans (halts_iff_of_inl hstep)

/-- One comes to the states that come after the first one. -/
theorem Reaches.cases_inl (h : Reaches step s t) {s' : σ} (hs : step s = .inl s') :
    t = s ∨ Reaches step s' t := by
  cases Relation.ReflTransGen.cases_head h with
  | inl hsame => exact .inl hsame.symm
  | inr hnext =>
    obtain ⟨u, hu, hrest⟩ := hnext
    obtain rfl := Sum.inl.inj (hs.symm.trans hu)
    exact .inr hrest

theorem Reaches.cases_inr (h : Reaches step s t) (hs : step s = .inr e) : t = s := by
  cases Relation.ReflTransGen.cases_head h with
  | inl hsame => exact hsame.symm
  | inr hnext =>
    obtain ⟨u, hu, -⟩ := hnext
    cases hs.symm.trans hu

/-- The check `p` succeeds in all states until the program stops, which takes at most so
many steps. -/
def holdsAlong (p : σ → Bool) (step : σ → σ ⊕ ε) : Nat → σ → Bool
  | 0, _ => false
  | fuel + 1, s => p s &&
    match step s with
    | .inl s' => holdsAlong p step fuel s'
    | .inr _ => true

/-- Then it succeeds in all states that one comes to. -/
theorem Reaches.of_holdsAlong {p : σ → Bool} (h : Reaches step s t)
    (hall : holdsAlong p step fuel s = true) : p t = true := by
  induction fuel generalizing s with
  | zero => cases hall
  | succ fuel ih =>
    rw [holdsAlong, Bool.and_eq_true] at hall
    obtain ⟨hp, hrest⟩ := hall
    cases hs : step s with
    | inl s' =>
      rw [hs] at hrest
      cases h.cases_inl hs with
      | inl hsame => exact hsame ▸ hp
      | inr hnext => exact ih hnext hrest
    | inr e => exact h.cases_inr hs ▸ hp

/-- A program does not stop while every step keeps an invariant that lets it go on. -/
theorem not_halts_of_inv {inv : σ → Prop} (hinv : ∀ s, inv s → ∃ t, step s = .inl t ∧ inv t)
    (hs : inv s) : ¬ Halts step s := by
  rintro ⟨fuel, hfuel⟩
  induction fuel generalizing s with
  | zero => exact hfuel rfl
  | succ fuel ih =>
    obtain ⟨t, hstep, ht⟩ := hinv s hs
    rw [runSteps_inl hstep] at hfuel
    exact ih ht hfuel

/-- A state that steps to itself is never left. -/
theorem not_halts_of_stuck (h : step s = .inl s) : ¬ Halts step s :=
  not_halts_of_inv (fun t (ht : t = s) => ⟨t, ht ▸ h, ht⟩) rfl

/-- With a measure that goes down in every other step, these are the only states from
which the program does not stop. -/
theorem halts_iff_not_stuck {α : Type} [LT α] [WellFoundedLT α] {inv stuck : σ → Prop}
    (measure : σ → α) (hstuck : ∀ s, stuck s → step s = .inl s)
    (hstep : ∀ s t, inv s → step s = .inl t → stuck s ∨ inv t ∧ measure t < measure s)
    (hinv : inv s) : Halts step s ↔ ∀ t, Reaches step s t → ¬ stuck t := by
  constructor
  · intro hhalts t hreach ht
    exact not_halts_of_stuck (hstuck t ht) (hreach.halts.mp hhalts)
  · intro hnot
    induction hm : measure s using WellFoundedLT.induction generalizing s with
    | ind m ih =>
      subst hm
      cases hs : step s with
      | inr e => exact halts_of_inr hs
      | inl t =>
        rw [halts_iff_of_inl hs]
        cases hstep s t hinv hs with
        | inl hsame => exact absurd hsame (hnot s Relation.ReflTransGen.refl)
        | inr hless =>
          exact ih (measure t) hless.2 hless.1
            (fun u hu => hnot u (Relation.ReflTransGen.head hs hu)) rfl

/-- Two programs whose steps correspond, as far as the first one comes. -/
theorem runSteps_map (f : σ → τ) (g : ε → φ)
    (hstep : ∀ t, Reaches step s t → step' (f t) = Sum.map f g (step t)) (fuel : Nat) :
    runSteps step' fuel (f s) = (runSteps step fuel s).map g := by
  induction fuel generalizing s with
  | zero => rfl
  | succ fuel ih =>
    have hs := hstep s Relation.ReflTransGen.refl
    cases h : step s with
    | inl t =>
      rw [h, Sum.map_inl] at hs
      rw [runSteps_inl hs, runSteps_inl h]
      exact ih fun u hu => hstep u (Relation.ReflTransGen.head h hu)
    | inr e =>
      rw [h, Sum.map_inr] at hs
      rw [runSteps_inr hs, runSteps_inr h]
      rfl

end halting

end Shades
