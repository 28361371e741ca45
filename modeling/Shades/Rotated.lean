import Mathlib.Order.Lattice

/-!
# Shades.Rotated

Rotated increasing sequences.  Some places `0, 1, 2, …` hold a value; from the
place `c` on, and then from `0` up to `c`, the values increase.  Such a sequence
comes about when values are written round and round, each greater than all
before it.

The greatest value is found by bisection: a value greater than the one at the
left end of the range is not behind the greatest one, and a value less than
that is.
-/

namespace Rotated

variable {ν : Type} [LinearOrder ν]

/-- The values increase from the place `c` on, all the way round. -/
def From (r : Nat → Option ν) (c : Nat) : Prop :=
  ∀ ⦃i j a b⦄, i < j → r i = some a → r j = some b →
    (i < c ∧ c ≤ j → b < a) ∧ (¬ (i < c ∧ c ≤ j) → a < b)

/-- The place `i` holds the greatest value. -/
def Greatest (r : Nat → Option ν) (i : Nat) (a : ν) : Prop :=
  r i = some a ∧ ∀ ⦃j b⦄, r j = some b → b ≤ a

variable {r : Nat → Option ν} {c i j p x : Nat} {a b d : ν}

/-- Some place holds the greatest value, if only places below `n` hold values. -/
theorem exists_greatest {n : Nat} (hbound : ∀ j a, r j = some a → j < n) (hi : r i = some a) :
    ∃ p d, Greatest r p d := by
  have hbelow : ∀ m, (∀ j < m, r j = none) ∨
      ∃ p d, r p = some d ∧ ∀ j < m, ∀ b, r j = some b → b ≤ d := by
    intro m
    induction m with
    | zero => exact .inl fun j hj => absurd hj (Nat.not_lt_zero j)
    | succ m ih =>
      cases hm : r m with
      | none =>
        refine ih.imp (fun hnone j hj => ?_) fun ⟨p, d, hp, hle⟩ => ⟨p, d, hp, fun j hj b hb => ?_⟩
        · rcases Nat.lt_succ_iff_lt_or_eq.mp hj with hlt | rfl
          · exact hnone j hlt
          · exact hm
        · rcases Nat.lt_succ_iff_lt_or_eq.mp hj with hlt | rfl
          · exact hle j hlt b hb
          · cases hm.symm.trans hb
      | some b =>
        rcases ih with hnone | ⟨p, d, hp, hle⟩
        · refine .inr ⟨m, b, hm, fun j hj b' hb' => ?_⟩
          rcases Nat.lt_succ_iff_lt_or_eq.mp hj with hlt | rfl
          · cases (hnone j hlt).symm.trans hb'
          · exact (Option.some.inj (hm.symm.trans hb')).ge
        · rcases le_total b d with hbd | hdb
          · refine .inr ⟨p, d, hp, fun j hj b' hb' => ?_⟩
            rcases Nat.lt_succ_iff_lt_or_eq.mp hj with hlt | rfl
            · exact hle j hlt b' hb'
            · exact (Option.some.inj (hm.symm.trans hb')) ▸ hbd
          · refine .inr ⟨m, b, hm, fun j hj b' hb' => ?_⟩
            rcases Nat.lt_succ_iff_lt_or_eq.mp hj with hlt | rfl
            · exact (hle j hlt b' hb').trans hdb
            · exact (Option.some.inj (hm.symm.trans hb')).ge
  rcases hbelow n with hnone | ⟨p, d, hp, hle⟩
  · cases (hnone i (hbound i a hi)).symm.trans hi
  · exact ⟨p, d, hp, fun j b hj => hle j (hbound j b hj) b hj⟩

/-- Different places hold different values. -/
theorem From.ne (h : From r c) (hij : i ≠ j) (hi : r i = some a) (hj : r j = some b) : a ≠ b := by
  rcases Nat.lt_or_gt_of_ne hij with hlt | hlt
  · by_cases hc : i < c ∧ c ≤ j
    · exact ((h hlt hi hj).1 hc).ne'
    · exact ((h hlt hi hj).2 hc).ne
  · by_cases hc : j < c ∧ c ≤ i
    · exact ((h hlt hj hi).1 hc).ne
    · exact ((h hlt hj hi).2 hc).ne'

theorem Greatest.lt (h : Greatest r p a) (hr : From r c) (hne : i ≠ p) (hi : r i = some b) :
    b < a :=
  lt_of_le_of_ne (h.2 hi) (hr.ne hne hi h.1)

/-- The sequence starts behind its greatest value. -/
theorem From.behind (h : From r c) (hp : Greatest r p a) : From r (p + 1) := by
  intro i j b d hij hi hj
  have hpi : i ≠ p → b < a := fun hne => hp.lt h hne hi
  have hpj : j ≠ p → d < a := fun hne => hp.lt h hne hj
  refine ⟨fun hpass => ?_, fun hpass => ?_⟩
  · -- the greatest value stands between them
    by_cases hip : i = p
    · subst hip
      obtain rfl : a = b := Option.some.inj (hp.1.symm.trans hi)
      exact hpj (by omega)
    · by_contra hle
      have hbd : ¬ (i < c ∧ c ≤ j) := fun hc => hle ((h hij hi hj).1 hc)
      have hjp : ¬ ¬ (p < c ∧ c ≤ j) := fun hc =>
        lt_asymm ((h (by omega) hp.1 hj).2 hc) (hpj (by omega))
      omega
  · by_contra hle
    have hc : i < c ∧ c ≤ j := by
      by_contra hc
      exact hle ((h hij hi hj).2 hc)
    by_cases hjp : j = p
    · subst hjp
      obtain rfl : a = d := Option.some.inj (hp.1.symm.trans hj)
      exact hle (hpi (by omega))
    · by_cases hlt : j < p
      · have hip : ¬ (i < c ∧ c ≤ p) := fun hcp =>
          lt_asymm ((h (by omega) hi hp.1).1 hcp) (hpi (by omega))
        omega
      · have hpi' : ¬ ¬ (p < c ∧ c ≤ i) := fun hcp =>
          lt_asymm ((h (by omega) hp.1 hi).2 hcp) (hpi (by omega))
        omega

/-- The places that are passed on the way round from `c` to `p`. -/
def Passed (n c p x : Nat) : Prop :=
  (c ≤ p ∧ c ≤ x ∧ x < p) ∨ (p < c ∧ x < n ∧ (c ≤ x ∨ x < p))

/-- The place `p` is written on the way round from `c`.  Only the greatest value
is passed, and the new value, if there is one, is greater than all others. -/
theorem From.write {r' : Nat → Option ν} {n c₀ : Nat} (h : From r c₀) (hc₀ : c₀ = c ∨ c₀ = c + 1)
    (hbound : ∀ x a, r x = some a → x < n)
    (hpassed : ∀ x a, Passed n c p x → r x = some a → Greatest r x a)
    (hsame : ∀ x, x ≠ p → r' x = r x)
    (hnew : ∀ a, r' p = some a → ∀ x b, x ≠ p → r x = some b → b < a) : From r' (p + 1) := by
  intro i j a b hij hi hj
  have hi' : i ≠ p → r i = some a := fun hne => (hsame i hne) ▸ hi
  have hj' : j ≠ p → r j = some b := fun hne => (hsame j hne) ▸ hj
  by_cases hip : i = p
  · subst hip
    have hba := hnew a hi j b (by omega) (hj' (by omega))
    exact ⟨fun _ => hba, fun hpass => absurd ⟨Nat.lt_succ_self i, hij⟩ hpass⟩
  · by_cases hjp : j = p
    · subst hjp
      have hab := hnew b hj i a hip (hi' hip)
      exact ⟨fun hpass => absurd hpass.2 (by omega), fun _ => hab⟩
    · have hold := h hij (hi' hip) (hj' hjp)
      have hin := hbound i a (hi' hip)
      have hjn := hbound j b (hj' hjp)
      by_cases hpi : Passed n c p i
      · -- the greatest value is passed
        have hba := (hpassed i a hpi (hi' hip)).lt h (by omega) (hj' hjp)
        refine ⟨fun _ => hba, fun hpass => ?_⟩
        by_cases hpj : Passed n c p j
        · exact absurd hba (lt_asymm ((hpassed j b hpj (hj' hjp)).lt h (by omega) (hi' hip)))
        · unfold Passed at hpi hpj
          omega
      · by_cases hpj : Passed n c p j
        · have hab := (hpassed j b hpj (hj' hjp)).lt h (by omega) (hi' hip)
          refine ⟨fun hpass => ?_, fun _ => hab⟩
          unfold Passed at hpi hpj
          omega
        · unfold Passed at hpi hpj
          exact ⟨fun hpass => hold.1 (by omega), fun hpass => hold.2 (by omega)⟩

/-- A greater value than the one on the left is not behind the greatest. -/
theorem From.le_of_greater (h : From r c) (hp : Greatest r p d) (hi : r i = some a)
    (hj : r j = some b) (hij : i < j) (hip : i ≤ p) (hgreater : a < b) : j ≤ p := by
  by_contra hlt
  have hne : i ≠ p := by
    rintro rfl
    obtain rfl : a = d := Option.some.inj (hi.symm.trans hp.1)
    exact absurd hgreater (not_lt.mpr (hp.2 hj))
  have hpj : p < c ∧ c ≤ j := by
    by_contra hc
    exact lt_asymm ((h (by omega) hp.1 hj).2 hc) (hp.lt h (by omega) hj)
  exact lt_asymm hgreater ((h hij hi hj).1 ⟨by omega, hpj.2⟩)

/-- A lesser value than the one on the left is behind the greatest. -/
theorem From.lt_of_not_greater (h : From r c) (hp : Greatest r p d) (hi : r i = some a)
    (hj : r j = some b) (hij : i < j) (hip : i ≤ p) (hgreater : ¬ a < b) : p < j := by
  have hpass : i < c ∧ c ≤ j := by
    by_contra hc
    exact hgreater ((h hij hi hj).2 hc)
  by_contra hle
  have hne : i ≠ p := by omega
  have hip' : ¬ (i < c ∧ c ≤ p) := fun hc =>
    lt_asymm ((h (by omega) hi hp.1).1 hc) (hp.lt h hne hi)
  omega

end Rotated
