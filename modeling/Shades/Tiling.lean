import Mathlib.Data.List.Nodup
import Mathlib.Data.List.Flatten

/-!
# Shades.Tiling

Items that lie one behind the other.

`Tiled place size a xs stop` says that the items `xs` fill the addresses from `a` up to
`stop` in their order: each one is at the place where the one before ends.  So no two of
them overlap, and together they are as large as what they fill.
-/

namespace Shades

/-- The items lie one behind the other, from `a` to `stop`. -/
def Tiled {α : Type} (place size : α → Nat) : Nat → List α → Nat → Prop
  | a, [], stop => a = stop
  | a, x :: xs, stop => place x = a ∧ Tiled place size (a + size x) xs stop

namespace Tiled

variable {α : Type} {place place' size size' : α → Nat} {a stop : Nat} {x y : α} {xs : List α}

theorem le (h : Tiled place size a xs stop) : a ≤ stop := by
  induction xs generalizing a with
  | nil => exact Nat.le_of_eq h
  | cons x xs ih => exact Nat.le_trans (Nat.le_add_right _ _) (ih h.2)

/-- Every item lies in between. -/
theorem bounds (h : Tiled place size a xs stop) (hx : x ∈ xs) :
    a ≤ place x ∧ place x + size x ≤ stop := by
  induction xs generalizing a with
  | nil => cases hx
  | cons y ys ih =>
    obtain ⟨hy, hrest⟩ := h
    cases hx with
    | head => exact ⟨Nat.le_of_eq hy.symm, hy ▸ hrest.le⟩
    | tail _ hx =>
      obtain ⟨hle, hstop⟩ := ih hrest hx
      exact ⟨by omega, hstop⟩

/-- One more item at the end. -/
theorem snoc (h : Tiled place size a xs stop) (hx : place x = stop) :
    Tiled place size a (xs ++ [x]) (stop + size x) := by
  induction xs generalizing a with
  | nil =>
    obtain rfl : a = stop := h
    exact ⟨hx, rfl⟩
  | cons y ys ih => exact ⟨h.1, ih h.2⟩

/-- Only the items themselves matter. -/
theorem congr (h : Tiled place size a xs stop) (hplace : ∀ x ∈ xs, place' x = place x)
    (hsize : ∀ x ∈ xs, size' x = size x) : Tiled place' size' a xs stop := by
  induction xs generalizing a with
  | nil => exact h
  | cons y ys ih =>
    obtain ⟨hy, hrest⟩ := h
    rw [List.forall_mem_cons] at hplace hsize
    refine ⟨hplace.1.trans hy, ?_⟩
    rw [hsize.1]
    exact ih hrest hplace.2 hsize.2

/-- The items under other names. -/
theorem map {β : Type} {f : α → β} {placeB sizeB : β → Nat} (h : Tiled place size a xs stop)
    (hplace : ∀ x ∈ xs, placeB (f x) = place x) (hsize : ∀ x ∈ xs, sizeB (f x) = size x) :
    Tiled placeB sizeB a (xs.map f) stop := by
  induction xs generalizing a with
  | nil => exact h
  | cons y ys ih =>
    obtain ⟨hy, hrest⟩ := h
    rw [List.forall_mem_cons] at hplace hsize
    refine ⟨hplace.1.trans hy, ?_⟩
    rw [hsize.1]
    exact ih hrest hplace.2 hsize.2

/-- Items that are not empty are all different. -/
theorem nodup (h : Tiled place size a xs stop) (hpos : ∀ x ∈ xs, 0 < size x) : xs.Nodup := by
  induction xs generalizing a with
  | nil => exact List.nodup_nil
  | cons y ys ih =>
    obtain ⟨hy, hrest⟩ := h
    rw [List.forall_mem_cons] at hpos
    refine List.nodup_cons.mpr ⟨fun hmem => ?_, ih hrest hpos.2⟩
    have := (hrest.bounds hmem).1
    omega

/-- Two items do not overlap. -/
theorem apart (h : Tiled place size a xs stop) (hnodup : xs.Nodup) (hx : x ∈ xs) (hy : y ∈ xs)
    (hne : x ≠ y) : place x + size x ≤ place y ∨ place y + size y ≤ place x := by
  induction xs generalizing a with
  | nil => cases hx
  | cons z zs ih =>
    obtain ⟨hz, hrest⟩ := h
    obtain ⟨-, hnodup⟩ := List.nodup_cons.mp hnodup
    rcases List.mem_cons.mp hx with rfl | hxs
    · have hys := (List.mem_cons.mp hy).resolve_left (Ne.symm hne)
      exact .inl (hz ▸ (hrest.bounds hys).1)
    · rcases List.mem_cons.mp hy with rfl | hys
      · exact .inr (hz ▸ (hrest.bounds hxs).1)
      · exact ih hrest hnodup hxs hys

/-- Together the items are as large as what they fill. -/
theorem length_eq (h : Tiled place size a xs stop) :
    stop = a + (xs.flatMap fun x => List.range' (place x) (size x)).length := by
  induction xs generalizing a with
  | nil => exact h.symm
  | cons y ys ih =>
    have hrest := ih h.2
    simp only [List.flatMap_cons, List.length_append, List.length_range']
    omega

end Tiled

end Shades
