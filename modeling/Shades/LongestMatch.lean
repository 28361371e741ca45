import Mathlib.Data.List.Basic

/-!
# Shades.LongestMatch

Scanners that take, at each point of their input, the rule whose pattern matches the
longest text, and the first of these rules if there are several.
-/

namespace Shades

/-- The patterns: one character of a class, or a given text. -/
inductive Pattern (α : Type) where
  | char (p : α → Bool)
  | text (c : α) (cs : List α)

/-- A pattern and what to do where it matches. -/
structure ScanRule (α β : Type) where
  pattern : Pattern α
  action : β

namespace Pattern

variable {α : Type} [DecidableEq α]

/-- The length of the text that a pattern matches at the beginning of the input. -/
def matchLength : Pattern α → List α → Option Nat
  | char _, [] => none
  | char p, c :: _ => if p c then some 1 else none
  | text c cs, input => if (c :: cs).isPrefixOf input then some (cs.length + 1) else none

theorem matchLength_bounds {pattern : Pattern α} {input : List α} {n : Nat}
    (h : pattern.matchLength input = some n) : 0 < n ∧ n ≤ input.length := by
  cases pattern with
  | char p =>
    cases input with
    | nil => cases h
    | cons c input =>
      by_cases hp : p c
      · simp [matchLength, hp] at h
        simp [← h]
      · simp [matchLength, hp] at h
  | text c cs =>
    by_cases hprefix : (c :: cs).isPrefixOf input
    · have hlength := (List.isPrefixOf_iff_prefix.mp hprefix).length_le
      simp only [matchLength, hprefix, if_true, Option.some.injEq] at h
      rw [List.length_cons] at hlength
      omega
    · simp [matchLength, hprefix] at h

end Pattern

section longest

variable {α β : Type} [DecidableEq α]

/-- The longest match, with the action of its rule. -/
def longest (input : List α) : List (ScanRule α β) → Option (Nat × β)
  | [] => none
  | rule :: rules =>
    match rule.pattern.matchLength input, longest input rules with
    | some n, some (k, b) => if k ≤ n then some (n, rule.action) else some (k, b)
    | some n, none => some (n, rule.action)
    | none, later => later

/-- A match takes at least one character of the input. -/
theorem longest_bounds {input : List α} {rules : List (ScanRule α β)} {n : Nat} {b : β}
    (h : longest input rules = some (n, b)) : 0 < n ∧ n ≤ input.length := by
  induction rules generalizing n b with
  | nil => cases h
  | cons rule rules ih =>
    rw [longest] at h
    cases hrule : rule.pattern.matchLength input with
    | none =>
      rw [hrule] at h
      exact ih h
    | some k =>
      have hk := Pattern.matchLength_bounds hrule
      cases hlater : longest input rules with
      | none =>
        simp only [hrule, hlater, Option.some.injEq, Prod.mk.injEq] at h
        exact h.1 ▸ hk
      | some later =>
        simp only [hrule, hlater] at h
        split at h
        · simp only [Option.some.injEq, Prod.mk.injEq] at h
          exact h.1 ▸ hk
        · simp only [Option.some.injEq, Prod.mk.injEq] at h
          exact h.1 ▸ ih hlater

theorem length_drop_longest {input : List α} {rules : List (ScanRule α β)} {n : Nat} {b : β}
    (h : longest input rules = some (n, b)) : (input.drop n).length < input.length := by
  have hn := longest_bounds h
  rw [List.length_drop]
  omega

end longest

end Shades
