import Mathlib.Order.Lattice
import Mathlib.Data.List.Pairwise

/-!
# Shades.SortedItems

Finite maps as lists of items, a key and a value each, sorted by the keys.  The
module is about any keys with a linear order and any values.

`put` and `remove` work on one place of the list, so they commute with items
before and after that place; search trees that keep their items in order use
these lemmas to reduce an operation on a tree to the operation on a subtree.
-/

namespace SortedItems

variable {κ ν : Type} [LinearOrder κ]

/-- The keys increase. -/
def Sorted (items : List (κ × ν)) : Prop := items.Pairwise fun a b => a.1 < b.1

/-- All items come before the key. -/
def KeysBelow (items : List (κ × ν)) (k : κ) : Prop := ∀ a ∈ items, a.1 < k

/-- All items come after the key. -/
def KeysAbove (items : List (κ × ν)) (k : κ) : Prop := ∀ a ∈ items, k < a.1

/-- The value of the key is set. -/
def put (k : κ) (x : ν) : List (κ × ν) → List (κ × ν)
  | [] => [(k, x)]
  | a :: items =>
    if k < a.1 then (k, x) :: a :: items
    else if a.1 < k then a :: put k x items
    else (k, x) :: items

/-- The item with the key is left out. -/
def remove (k : κ) : List (κ × ν) → List (κ × ν)
  | [] => []
  | a :: items => if a.1 = k then items else a :: remove k items

variable {k : κ} {x y : ν} {items P Q X : List (κ × ν)}

@[simp] theorem put_nil : put k x [] = [(k, x)] := rfl

theorem put_cons (a : κ × ν) (items : List (κ × ν)) : put k x (a :: items) =
    if k < a.1 then (k, x) :: a :: items
    else if a.1 < k then a :: put k x items
    else (k, x) :: items := rfl

@[simp] theorem remove_nil : remove k ([] : List (κ × ν)) = [] := rfl

theorem remove_cons (a : κ × ν) (items : List (κ × ν)) :
    remove k (a :: items) = if a.1 = k then items else a :: remove k items := rfl

/-! ## items before and after a key -/

@[simp] theorem sorted_nil : Sorted ([] : List (κ × ν)) := List.Pairwise.nil

@[simp] theorem sorted_cons {a : κ × ν} :
    Sorted (a :: items) ↔ KeysAbove items a.1 ∧ Sorted items :=
  List.pairwise_cons

@[simp] theorem below_nil : KeysBelow ([] : List (κ × ν)) k := by simp [KeysBelow]

@[simp] theorem above_nil : KeysAbove ([] : List (κ × ν)) k := by simp [KeysAbove]

@[simp] theorem below_cons {a : κ × ν} :
    KeysBelow (a :: items) k ↔ a.1 < k ∧ KeysBelow items k := by
  simp [KeysBelow]

@[simp] theorem above_cons {a : κ × ν} :
    KeysAbove (a :: items) k ↔ k < a.1 ∧ KeysAbove items k := by
  simp [KeysAbove]

@[simp] theorem below_append : KeysBelow (P ++ Q) k ↔ KeysBelow P k ∧ KeysBelow Q k := by
  simp [KeysBelow, or_imp, forall_and]

@[simp] theorem above_append : KeysAbove (P ++ Q) k ↔ KeysAbove P k ∧ KeysAbove Q k := by
  simp [KeysAbove, or_imp, forall_and]

theorem KeysBelow.mono {k' : κ} (h : KeysBelow items k) (hk : k ≤ k') : KeysBelow items k' :=
  fun a ha => lt_of_lt_of_le (h a ha) hk

theorem KeysAbove.mono {k' : κ} (h : KeysAbove items k) (hk : k' ≤ k) : KeysAbove items k' :=
  fun a ha => lt_of_le_of_lt hk (h a ha)

/-- The items around one item. -/
theorem sorted_middle {a : κ × ν} :
    Sorted (P ++ a :: Q) ↔ Sorted P ∧ Sorted Q ∧ KeysBelow P a.1 ∧ KeysAbove Q a.1 := by
  unfold Sorted KeysBelow KeysAbove
  rw [List.pairwise_append, List.pairwise_cons]
  constructor
  · rintro ⟨hP, ⟨ha, hQ⟩, hPQ⟩
    exact ⟨hP, hQ, fun b hb => hPQ b hb a List.mem_cons_self, ha⟩
  · rintro ⟨hP, hQ, hPa, ha⟩
    refine ⟨hP, ⟨ha, hQ⟩, fun b hb c hc => ?_⟩
    rcases List.mem_cons.mp hc with rfl | hc
    · exact hPa b hb
    · exact lt_trans (hPa b hb) (ha c hc)

theorem sorted_append : Sorted (P ++ Q) ↔
    Sorted P ∧ Sorted Q ∧ ∀ a ∈ P, ∀ b ∈ Q, a.1 < b.1 := List.pairwise_append

/-- A part of a sorted list. -/
theorem Sorted.part (h : Sorted (P ++ X ++ Q)) : Sorted X := by
  rw [sorted_append, sorted_append] at h
  exact h.1.2.1

/-! ## looking a key up -/

theorem lookup_eq_none_of_below (h : KeysBelow items k) : items.lookup k = none := by
  rw [List.lookup_eq_none_iff]
  intro a ha
  simpa using (h a ha).ne'

theorem lookup_eq_none_of_above (h : KeysAbove items k) : items.lookup k = none := by
  rw [List.lookup_eq_none_iff]
  intro a ha
  simpa using (h a ha).ne

theorem lookup_cons_of_ne {k' : κ} (h : k' ≠ k) :
    ((k, x) :: items).lookup k' = items.lookup k' := by
  rw [List.lookup_cons, beq_false_of_ne h]

theorem lookup_middle (hP : KeysBelow P k) (hQ : KeysAbove Q k) :
    (P ++ X ++ Q).lookup k = X.lookup k := by
  rw [List.lookup_append, List.lookup_append, lookup_eq_none_of_below hP,
    lookup_eq_none_of_above hQ]
  simp

theorem lookup_self (hP : KeysBelow P k) : (P ++ (k, x) :: Q).lookup k = some x := by
  rw [List.lookup_append, lookup_eq_none_of_below hP]
  simp

/-! ## setting a value -/

theorem put_append (hP : KeysBelow P k) : put k x (P ++ X) = P ++ put k x X := by
  induction P with
  | nil => rfl
  | cons a P ih =>
    rw [below_cons] at hP
    rw [List.cons_append, put_cons, if_neg (not_lt_of_gt hP.1), if_pos hP.1, ih hP.2,
      List.cons_append]

theorem put_of_above (hQ : KeysAbove Q k) : put k x Q = (k, x) :: Q := by
  cases Q with
  | nil => rfl
  | cons a Q =>
    rw [above_cons] at hQ
    rw [put_cons, if_pos hQ.1]

/-- The key is absent. -/
theorem put_absent (hP : KeysBelow P k) (hQ : KeysAbove Q k) :
    put k x (P ++ Q) = P ++ (k, x) :: Q := by
  rw [put_append hP, put_of_above hQ]

/-- The key is there. -/
theorem put_present (hP : KeysBelow P k) : put k x (P ++ (k, y) :: Q) = P ++ (k, x) :: Q := by
  rw [put_append hP]
  simp [put_cons]

theorem above_put {k' : κ} (hk : k' < k) (h : KeysAbove items k') :
    KeysAbove (put k x items) k' := by
  induction items with
  | nil => simpa using hk
  | cons a items ih =>
    rw [above_cons] at h
    rw [put_cons]
    split_ifs <;> simp [hk, h.1, h.2, ih h.2]

theorem Sorted.put (h : Sorted items) (k : κ) (x : ν) : Sorted (put k x items) := by
  induction items with
  | nil => simp
  | cons a items ih =>
    rw [sorted_cons] at h
    rw [put_cons]
    split_ifs with hlt hgt
    · simp [hlt, h.1, h.2, h.1.mono hlt.le]
    · simp [above_put hgt h.1, ih h.2]
    · have heq : k = a.1 := le_antisymm (not_lt.mp hgt) (not_lt.mp hlt)
      simp [heq, h.1, h.2]

theorem lookup_put (k' : κ) :
    (put k x items).lookup k' = if k' = k then some x else items.lookup k' := by
  induction items with
  | nil =>
    by_cases hk : k' = k
    · simp [hk]
    · simp [lookup_cons_of_ne hk, hk]
  | cons a items ih =>
    obtain ⟨ak, ax⟩ := a
    by_cases hk : k' = k
    · subst hk
      rw [if_pos rfl] at ih ⊢
      rw [put_cons]
      split_ifs with hlt hgt
      · simp
      · rw [lookup_cons_of_ne hgt.ne', ih]
      · simp
    · rw [if_neg hk] at ih ⊢
      rw [put_cons]
      split_ifs with hlt hgt
      · rw [lookup_cons_of_ne hk]
      · rw [List.lookup_cons, List.lookup_cons, ih]
      · obtain rfl : k = ak := le_antisymm (not_lt.mp hgt) (not_lt.mp hlt)
        rw [lookup_cons_of_ne hk, lookup_cons_of_ne hk]

/-! ## leaving a key out -/

theorem remove_append (hP : KeysBelow P k) : remove k (P ++ X) = P ++ remove k X := by
  induction P with
  | nil => rfl
  | cons a P ih =>
    rw [below_cons] at hP
    rw [List.cons_append, remove_cons, if_neg hP.1.ne, ih hP.2, List.cons_append]

theorem remove_of_above (hQ : KeysAbove Q k) : remove k Q = Q := by
  induction Q with
  | nil => rfl
  | cons a Q ih =>
    rw [above_cons] at hQ
    rw [remove_cons, if_neg hQ.1.ne', ih hQ.2]

theorem remove_eq_self (h : items.lookup k = none) : remove k items = items := by
  induction items with
  | nil => rfl
  | cons a items ih =>
    rw [List.lookup_eq_none_iff] at h
    have hne : a.1 ≠ k := fun heq => by simpa [heq] using h a List.mem_cons_self
    rw [remove_cons, if_neg hne, ih]
    rw [List.lookup_eq_none_iff]
    exact fun b hb => h b (List.mem_cons_of_mem a hb)

/-- The items around those where the key is. -/
theorem remove_middle (hP : KeysBelow P k) (hQ : KeysAbove Q k) :
    remove k (P ++ X ++ Q) = P ++ remove k X ++ Q := by
  rw [List.append_assoc, remove_append hP, List.append_assoc]
  congr 1
  induction X with
  | nil => exact remove_of_above hQ
  | cons a X ih =>
    rw [List.cons_append, remove_cons, remove_cons, ih]
    split <;> simp

/-- The key is there. -/
theorem remove_present (hP : KeysBelow P k) : remove k (P ++ (k, x) :: Q) = P ++ Q := by
  rw [remove_append hP]
  simp [remove_cons]

theorem above_remove {k' : κ} (h : KeysAbove items k') : KeysAbove (remove k items) k' := by
  induction items with
  | nil => exact h
  | cons a items ih =>
    rw [above_cons] at h
    rw [remove_cons]
    split_ifs <;> simp [h.1, h.2, ih h.2]

theorem Sorted.remove (h : Sorted items) (k : κ) : Sorted (remove k items) := by
  induction items with
  | nil => exact h
  | cons a items ih =>
    rw [sorted_cons] at h
    rw [remove_cons]
    split_ifs
    · exact h.2
    · simp [above_remove h.1, ih h.2]

theorem lookup_remove (h : Sorted items) (k' : κ) :
    (remove k items).lookup k' = if k' = k then none else items.lookup k' := by
  induction items with
  | nil => simp
  | cons a items ih =>
    obtain ⟨ak, ax⟩ := a
    rw [sorted_cons] at h
    rw [remove_cons]
    by_cases hak : ak = k
    · rw [if_pos hak]
      subst hak
      by_cases hk : k' = ak
      · rw [if_pos hk, hk, lookup_eq_none_of_above h.1]
      · rw [if_neg hk, lookup_cons_of_ne hk]
    · rw [if_neg hak]
      by_cases hk : k' = k
      · rw [lookup_cons_of_ne (hk ▸ Ne.symm hak), ih h.2]
        simp [hk]
      · rw [List.lookup_cons, List.lookup_cons, ih h.2, if_neg hk, if_neg hk]

end SortedItems
