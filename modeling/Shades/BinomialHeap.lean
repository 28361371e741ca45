import Mathlib.Algebra.Order.Group.Multiset
import Mathlib.Data.Multiset.AddSub
import Mathlib.Order.Lattice
import Mathlib.Tactic.Ring

/-!
# Shades.BinomialHeap

Binomial heaps.  A heap is a list of trees of increasing heights.  A tree of the
height `h` has an item that is not greater than the items below it, and sons of
the heights `h - 1, …, 0` in this order.

Two heaps are melded like two binary numbers are added: of two trees of the
same height the one with the greater item becomes a son of the other one, which
is the carry.  The carry is put in front of one of the lists, so this list may
start with two trees of the same height.  A step of the addition also has a
price, the number of words of new cells: `4` for a cell.
-/

namespace BinomialHeap

/-! ## heaps -/

/-- A list of trees: the first tree with its height, its item and the list of
its sons, and the next trees. -/
inductive Heap (α : Type) where
  | nil
  | tree (height : Nat) (item : α) (sons next : Heap α)
deriving DecidableEq, Repr

namespace Heap

variable {α κ : Type}

/-- All items. -/
@[simp] def items : Heap α → Multiset α
  | nil => 0
  | tree _ x sons next => x ::ₘ (sons.items + next.items)

/-- The number of trees in the list. -/
@[simp] def length : Heap α → Nat
  | nil => 0
  | tree _ _ _ next => next.length + 1

@[simp] def append : Heap α → Heap α → Heap α
  | nil, q => q
  | tree h x sons next, q => tree h x sons (next.append q)

/-- The trees in reverse order, and then the trees `q`. -/
@[simp] def reverseOnto : Heap α → Heap α → Heap α
  | nil, q => q
  | tree h x sons next, q => next.reverseOnto (tree h x sons q)

/-- The items of the roots. -/
@[simp] def roots : Heap α → List α
  | nil => []
  | tree _ x _ next => x :: next.roots

/-- Trees of the heights `n - 1, …, 0`. -/
@[simp] def Sons : Heap α → Nat → Prop
  | nil, n => n = 0
  | tree h _ sons next, n => n = h + 1 ∧ sons.Sons h ∧ next.Sons h

/-- Trees of increasing heights, not less than `low`. -/
@[simp] def Roots : Nat → Heap α → Prop
  | _, nil => True
  | low, tree h _ sons next => low ≤ h ∧ sons.Sons h ∧ next.Roots (h + 1)

/-- The same, but the second tree may be as high as the first one. -/
@[simp] def Carried (low : Nat) : Heap α → Prop
  | nil => True
  | tree h _ sons next => low ≤ h ∧ sons.Sons h ∧ next.Roots h

/-- The trees of the list are less high than `n`. -/
@[simp] def Below (n : Nat) : Heap α → Prop
  | nil => True
  | tree h _ _ next => h < n ∧ next.Below n

/-- No item is greater than the items below it. -/
@[simp] def Ordered [LE κ] (rank : α → κ) : Heap α → Prop
  | nil => True
  | tree _ x sons next =>
    (∀ y ∈ sons.items, rank x ≤ rank y) ∧ sons.Ordered rank ∧ next.Ordered rank

variable {p q r s t rest : Heap α} {h k n low low' : Nat} {x y : α}

theorem tree_ne_nil : tree h x s p ≠ nil := nofun

theorem append_tree_ne_nil : p.append (tree h x s q) ≠ nil := by
  cases p <;> exact tree_ne_nil

@[simp] theorem items_append : (p.append q).items = p.items + q.items := by
  induction p with
  | nil => simp
  | tree h x sons next _ ih => simp [ih, add_assoc]

@[simp] theorem append_nil : p.append nil = p := by
  induction p with
  | nil => rfl
  | tree h x sons next _ ih => simp [ih]

theorem append_assoc : (p.append q).append r = p.append (q.append r) := by
  induction p with
  | nil => rfl
  | tree h x sons next _ ih => simp [ih]

@[simp] theorem items_reverseOnto : (p.reverseOnto q).items = p.items + q.items := by
  induction p generalizing q with
  | nil => simp
  | tree h x sons next _ ih =>
    simp only [reverseOnto, ih, items, ← Multiset.singleton_add]
    ac_rfl

@[simp] theorem length_append : (p.append q).length = p.length + q.length := by
  induction p with
  | nil => simp
  | tree h x sons next _ ih =>
    simp only [append, length, ih]
    omega

@[simp] theorem roots_append : (p.append q).roots = p.roots ++ q.roots := by
  induction p with
  | nil => rfl
  | tree h x sons next _ ih => simp [ih]

@[simp] theorem length_reverseOnto : (p.reverseOnto q).length = p.length + q.length := by
  induction p generalizing q with
  | nil => simp
  | tree h x sons next _ ih =>
    simp only [reverseOnto, ih, length]
    omega

theorem Roots.mono (hp : p.Roots low) (hle : low' ≤ low) : p.Roots low' := by
  cases p with
  | nil => trivial
  | tree h x sons next => exact ⟨Nat.le_trans hle hp.1, hp.2⟩

theorem Roots.carried (hp : p.Roots low) : p.Carried low := by
  cases p with
  | nil => trivial
  | tree h x sons next => exact ⟨hp.1, hp.2.1, hp.2.2.mono (Nat.le_succ h)⟩

/-- The heights are all different if the first two are. -/
theorem Carried.tail (hp : (tree h x s rest).Carried low)
    (hne : ∀ k y t r, rest = tree k y t r → h ≠ k) : rest.Roots (h + 1) := by
  obtain ⟨-, -, hnext⟩ := hp
  cases rest with
  | nil => trivial
  | tree k y t r =>
    obtain ⟨hle, hrest⟩ := hnext
    exact ⟨Nat.lt_of_le_of_ne hle (hne k y t r rfl), hrest⟩

/-- Without its last trees. -/
theorem Roots.remove (hp : (p.append (tree h x s q)).Roots low) :
    (p.append q).Roots low ∧ s.Sons h := by
  induction p generalizing low with
  | nil => exact ⟨hp.2.2.mono (Nat.le_succ_of_le hp.1), hp.2.1⟩
  | tree k y t next _ ih =>
    obtain ⟨hle, hsons, hnext⟩ := hp
    exact ⟨⟨hle, hsons, (ih hnext).1⟩, (ih hnext).2⟩

/-- The trees before and after a tree. -/
theorem Roots.split (hp : (p.append (tree h x s q)).Roots low) :
    p.Roots low ∧ p.Below h ∧ low ≤ h ∧ s.Sons h ∧ q.Roots (h + 1) := by
  induction p generalizing low with
  | nil => exact ⟨trivial, trivial, hp⟩
  | tree k y t next _ ih =>
    obtain ⟨hle, hsons, hnext⟩ := hp
    obtain ⟨hroots, hbelow, hlt, hrest⟩ := ih hnext
    exact ⟨⟨hle, hsons, hroots⟩, ⟨hlt, hbelow⟩, by omega, hrest⟩

theorem Ordered.append [LE κ] {rank : α → κ} (hp : p.Ordered rank) (hq : q.Ordered rank) :
    (p.append q).Ordered rank := by
  induction p with
  | nil => exact hq
  | tree h x sons next _ ih => exact ⟨hp.1, hp.2.1, ih hp.2.2⟩

theorem Ordered.left [LE κ] {rank : α → κ} (hp : (p.append q).Ordered rank) : p.Ordered rank := by
  induction p with
  | nil => trivial
  | tree h x sons next _ ih => exact ⟨hp.1, hp.2.1, ih hp.2.2⟩

theorem Ordered.right [LE κ] {rank : α → κ} (hp : (p.append q).Ordered rank) :
    q.Ordered rank := by
  induction p with
  | nil => exact hp
  | tree h x sons next _ ih => exact ih hp.2.2

/-! ## sons become roots -/

theorem Sons.reverseOnto (hp : p.Sons n) (hq : q.Roots n) : (p.reverseOnto q).Roots 0 := by
  induction p generalizing n q with
  | nil =>
    obtain rfl : n = 0 := hp
    exact hq
  | tree h x sons next _ ih =>
    obtain ⟨rfl, hsons, hnext⟩ := hp
    exact ih hnext ⟨Nat.le_refl h, hsons, hq⟩

theorem Ordered.reverseOnto [LE κ] {rank : α → κ} (hp : p.Ordered rank) (hq : q.Ordered rank) :
    (p.reverseOnto q).Ordered rank := by
  induction p generalizing q with
  | nil => exact hq
  | tree h x sons next _ ih => exact ih hp.2.2 ⟨hp.1, hp.2.1, hq⟩

/-! ## sizes -/

/-- The sons of a tree have all its items but one. -/
theorem Sons.card (hp : p.Sons n) : p.items.card + 1 = 2 ^ n := by
  induction p generalizing n with
  | nil =>
    obtain rfl : n = 0 := hp
    rfl
  | tree h x sons next ihsons ihnext =>
    obtain ⟨rfl, hsons, hnext⟩ := hp
    have hcard := ihsons hsons
    have hcard' := ihnext hnext
    simp only [items, Multiset.card_cons, Multiset.card_add]
    rw [pow_succ]
    omega

/-- A tree has as many sons as its height. -/
theorem Sons.length_eq (hp : p.Sons n) : p.length = n := by
  induction p generalizing n with
  | nil => exact hp.symm
  | tree h x sons next _ ih =>
    obtain ⟨rfl, -, hnext⟩ := hp
    rw [length, ih hnext]

/-- A tree of the height `h` has `2 ^ h` items. -/
theorem Carried.card (hp : (tree h x s rest).Carried low) :
    2 ^ h ≤ (tree h x s rest).items.card := by
  have hcard := hp.2.1.card
  simp only [items, Multiset.card_cons, Multiset.card_add]
  omega

/-- Two trees of the same height have the items of a higher one. -/
theorem Carried.card_two (hp : (tree h x s (tree h y t rest)).Carried low) :
    2 ^ (h + 1) ≤ (tree h x s (tree h y t rest)).items.card := by
  obtain ⟨-, hs, -, ht, -⟩ := hp
  have hcard := hs.card
  have hcard' := ht.card
  simp only [items, Multiset.card_cons, Multiset.card_add]
  rw [pow_succ]
  omega

/-- Trees of increasing heights less than `n` have less than `2 ^ n` items. -/
theorem Roots.card_le (hp : p.Roots low) (hn : p.Below n) (hle : low ≤ n) :
    p.items.card + 2 ^ low ≤ 2 ^ n := by
  induction p generalizing low with
  | nil => simpa [items] using Nat.pow_le_pow_right (by decide) hle
  | tree h x sons next _ ih =>
    obtain ⟨hlow, hsons, hnext⟩ := hp
    have hcard := hsons.card
    have hcard' := ih hnext hn.2 hn.1
    have hpow : 2 ^ low ≤ 2 ^ h := Nat.pow_le_pow_right (by decide) hlow
    rw [pow_succ] at hcard'
    simp only [items, Multiset.card_cons, Multiset.card_add]
    omega

/-- There are less trees than heights. -/
theorem Roots.length_le (hp : p.Roots low) (hn : p.Below n) (hle : low ≤ n) :
    p.length + low ≤ n := by
  induction p generalizing low with
  | nil => simpa [length] using hle
  | tree h x sons next _ ih =>
    have hnext := ih hp.2.2 hn.2 hn.1
    have hlow := hp.1
    simp only [length]
    omega

end Heap

/-! ## melding -/

open Heap

section melding

variable {α κ : Type} [LinearOrder κ] (rank : α → κ)

/-- Two trees of the height `h` become one. -/
def link (h : Nat) (x : α) (s : Heap α) (y : α) (t next : Heap α) : Heap α :=
  if rank y < rank x then tree (h + 1) y (tree h x s t) next
  else tree (h + 1) x (tree h y t s) next

/-- The first two trees are linked if they are of the same height. -/
def carry? : Heap α → Option (Heap α)
  | tree h x s (tree k y t next) => if h = k then some (link rank h x s y t next) else none
  | _ => none

/-- The trees that are done, and the two lists.  The carry is in the left one. -/
structure Melding (α : Type) where
  out : Heap α
  left : Heap α
  right : Heap α
deriving DecidableEq, Repr

/-- A step and its price, or nothing if the rest of a list can be taken as it
is. -/
def Melding.step (M : Melding α) : Option (Nat × Melding α) :=
  match M.left with
  | nil => none
  | tree h x s p =>
    match carry? rank M.left with
    | some left => some (4, { M with left })
    | none =>
      match M.right with
      | nil => none
      | tree k y t q =>
        if h < k then some (4, ⟨M.out.append (tree h x s nil), p, M.right⟩)
        else if k < h then some (4, ⟨M.out.append (tree k y t nil), M.left, q⟩)
        else if rank y < rank x then some (8, ⟨M.out, tree (h + 1) y (tree h x s t) q, p⟩)
        else some (8, ⟨M.out, tree (h + 1) x (tree h y t s) p, q⟩)

/-- The rest of a list is taken. -/
def Melding.finish (M : Melding α) : Heap α :=
  M.out.append (match M.left with
    | nil => M.right
    | left => left)

/-- At most `n` steps, with their price. -/
def Melding.run : Nat → Melding α → Nat × Heap α
  | 0, M => (0, M.finish)
  | n + 1, M =>
    match M.step rank with
    | none => (0, M.finish)
    | some (words, M') => (words + (Melding.run n M').1, (Melding.run n M').2)

/-- Two heaps become one, and the price of this. -/
def meld (p q : Heap α) : Nat × Heap α := Melding.run rank (p.length + q.length) ⟨nil, p, q⟩

/-- All items of the three lists. -/
def Melding.items (M : Melding α) : Multiset α := M.out.items + M.left.items + M.right.items

/-- The trees of both lists are not less high than `low`, those that are done
are less high. -/
structure Melding.Inv (low : Nat) (M : Melding α) : Prop where
  out : ∀ r : Heap α, r.Roots low → (M.out.append r).Roots 0
  left : M.left.Carried low
  right : M.right.Roots low

/-- All three lists are ordered. -/
structure Melding.Ordered (M : Melding α) : Prop where
  out : M.out.Ordered rank
  left : M.left.Ordered rank
  right : M.right.Ordered rank

/-- The trees that can be taken. -/
def Melding.length (M : Melding α) : Nat := M.left.length + M.right.length

variable {rank} {M M' : Melding α} {words low h : Nat} {x y : α} {s t p q rest left : Heap α}

/-! ## linking -/

theorem link_items : (link rank h x s y t rest).items =
    (tree h x s (tree h y t rest)).items := by
  unfold link
  split <;>
  · simp only [Heap.items, ← Multiset.singleton_add]
    ac_rfl

theorem link_carried (hs : s.Sons h) (ht : t.Sons h) (hrest : rest.Roots (h + 1))
    (hle : low ≤ h + 1) : (link rank h x s y t rest).Carried low := by
  unfold link
  split
  · exact ⟨hle, ⟨rfl, hs, ht⟩, hrest⟩
  · exact ⟨hle, ⟨rfl, ht, hs⟩, hrest⟩

theorem link_ordered (hp : (tree h x s (tree h y t rest)).Ordered rank) :
    (link rank h x s y t rest).Ordered rank := by
  obtain ⟨hx, hs, hy, ht, hnext⟩ := hp
  unfold link
  split
  · next hlt =>
    refine ⟨fun z hz => ?_, ⟨hx, hs, ht⟩, hnext⟩
    simp only [Heap.items, Multiset.mem_cons, Multiset.mem_add] at hz
    rcases hz with rfl | hz | hz
    · exact le_of_lt hlt
    · exact (le_of_lt hlt).trans (hx z hz)
    · exact hy z hz
  · next hlt =>
    refine ⟨fun z hz => ?_, ⟨hy, ht, hs⟩, hnext⟩
    simp only [Heap.items, Multiset.mem_cons, Multiset.mem_add] at hz
    rcases hz with rfl | hz | hz
    · exact le_of_not_gt hlt
    · exact (le_of_not_gt hlt).trans (hy z hz)
    · exact hx z hz

/-- What a carry is made of. -/
theorem carry?_some (hc : carry? rank p = some left) :
    ∃ h x s y t next, p = tree h x s (tree h y t next) ∧ left = link rank h x s y t next := by
  unfold carry? at hc
  split at hc
  · next h x s k y t next =>
    split at hc
    · next heq =>
      subst heq
      exact ⟨h, x, s, y, t, next, rfl, (Option.some.inj hc).symm⟩
    · cases hc
  · cases hc

theorem carry?_none (hc : carry? rank (tree h x s rest) = none) (k : Nat) (y : α) (t r : Heap α)
    (hrest : rest = tree k y t r) : h ≠ k := by
  subst hrest
  simpa [carry?] using hc

/-! ## a step -/

/-- The steps. -/
theorem Melding.step_cases (hstep : M.step rank = some (words, M')) :
    (∃ h x s y t next, M.left = tree h x s (tree h y t next) ∧ words = 4 ∧
      M' = ⟨M.out, link rank h x s y t next, M.right⟩) ∨
    ∃ h x s p k y t q, M.left = tree h x s p ∧ M.right = tree k y t q ∧
      (∀ k y t r, p = tree k y t r → h ≠ k) ∧
      ((h < k ∧ words = 4 ∧ M' = ⟨M.out.append (tree h x s nil), p, M.right⟩) ∨
      (k < h ∧ words = 4 ∧ M' = ⟨M.out.append (tree k y t nil), M.left, q⟩) ∨
      (h = k ∧ rank y < rank x ∧ words = 8 ∧ M' = ⟨M.out, tree (h + 1) y (tree h x s t) q, p⟩) ∨
      (h = k ∧ ¬ rank y < rank x ∧ words = 8 ∧
        M' = ⟨M.out, tree (h + 1) x (tree h y t s) p, q⟩)) := by
  unfold Melding.step at hstep
  split at hstep
  · cases hstep
  · next h x s p hleft =>
    split at hstep
    · next left hcarry =>
      obtain ⟨h', x', s', y, t, next, heq, rfl⟩ := carry?_some hcarry
      obtain ⟨rfl, rfl⟩ := Prod.mk.inj (Option.some.inj hstep)
      exact .inl ⟨h', x', s', y, t, next, heq, rfl, rfl⟩
    · next hnone =>
      rw [hleft] at hnone
      split at hstep
      · cases hstep
      · next k y t q hright =>
        refine .inr ⟨h, x, s, p, k, y, t, q, hleft, hright, carry?_none hnone, ?_⟩
        split_ifs at hstep with hlt hgt hrank
        all_goals
          obtain ⟨rfl, rfl⟩ := Prod.mk.inj (Option.some.inj hstep)
        · exact .inl ⟨hlt, rfl, rfl⟩
        · exact .inr (.inl ⟨hgt, rfl, rfl⟩)
        · exact .inr (.inr (.inl ⟨by omega, hrank, rfl, rfl⟩))
        · exact .inr (.inr (.inr ⟨by omega, hrank, rfl, rfl⟩))

theorem Melding.step_items (hstep : M.step rank = some (words, M')) : M'.items = M.items := by
  obtain ⟨out, left, right⟩ := M
  rcases Melding.step_cases hstep with ⟨h, x, s, y, t, next, hleft, -, rfl⟩ |
    ⟨h, x, s, p, k, y, t, q, hleft, hright, -, ⟨-, -, rfl⟩ | ⟨-, -, rfl⟩ | ⟨rfl, -, -, rfl⟩ |
      ⟨rfl, -, -, rfl⟩⟩
  · obtain rfl : left = _ := hleft
    simp only [Melding.items, link_items]
  all_goals
    obtain rfl : left = _ := hleft
    obtain rfl : right = _ := hright
    simp only [Melding.items, items_append, Heap.items, ← Multiset.singleton_add, add_zero]
    ac_rfl

/-- Each step takes one tree. -/
theorem Melding.step_length (hstep : M.step rank = some (words, M')) :
    M'.length + 1 = M.length := by
  obtain ⟨out, left, right⟩ := M
  rcases Melding.step_cases hstep with ⟨h, x, s, y, t, next, hleft, -, rfl⟩ |
    ⟨h, x, s, p, k, y, t, q, hleft, hright, -, ⟨-, -, rfl⟩ | ⟨-, -, rfl⟩ | ⟨rfl, -, -, rfl⟩ |
      ⟨rfl, -, -, rfl⟩⟩
  · obtain rfl : left = _ := hleft
    unfold Melding.length link
    split <;> (simp only [Heap.length]; omega)
  all_goals
    obtain rfl : left = _ := hleft
    obtain rfl : right = _ := hright
    simp only [Melding.length, Heap.length]
    omega

/-- A tree less high than all others is done. -/
theorem out_append {out : Heap α} (hout : ∀ r : Heap α, r.Roots low → (out.append r).Roots 0)
    (hle : low ≤ h) (hs : s.Sons h) (r : Heap α) (hr : r.Roots (h + 1)) :
    ((out.append (tree h x s nil)).append r).Roots 0 := by
  rw [append_assoc]
  exact hout _ ⟨hle, hs, hr⟩

theorem Melding.Inv.step (hM : M.Inv low) (hstep : M.step rank = some (words, M')) :
    ∃ low', M'.Inv low' := by
  obtain ⟨out, left, right⟩ := M
  obtain ⟨hout, hl, hr⟩ := hM
  rcases Melding.step_cases hstep with ⟨h, x, s, y, t, next, hleft, -, rfl⟩ |
    ⟨h, x, s, p, k, y, t, q, hleft, hright, hne, hcase⟩
  · obtain rfl : left = _ := hleft
    obtain ⟨hle, hs, -, ht, hnext⟩ := hl
    exact ⟨low, hout, link_carried hs ht hnext (Nat.le_succ_of_le hle), hr⟩
  · obtain rfl : left = _ := hleft
    obtain rfl : right = _ := hright
    have hp := hl.tail hne
    obtain ⟨hle, hs, hpcarried⟩ := hl
    obtain ⟨hle', ht, hq⟩ := hr
    rcases hcase with ⟨hlt, -, rfl⟩ | ⟨hlt, -, rfl⟩ | ⟨rfl, -, -, rfl⟩ | ⟨rfl, -, -, rfl⟩
    · exact ⟨h + 1, fun r => out_append hout hle hs r, hp.carried, hlt, ht, hq⟩
    · exact ⟨k + 1, fun r => out_append hout hle' ht r, ⟨hlt, hs, hpcarried⟩, hq⟩
    · exact ⟨h + 1, fun r hr => hout r (hr.mono (Nat.le_succ_of_le hle)),
        ⟨Nat.le_refl _, ⟨rfl, hs, ht⟩, hq⟩, hp⟩
    · exact ⟨h + 1, fun r hr => hout r (hr.mono (Nat.le_succ_of_le hle)),
        ⟨Nat.le_refl _, ⟨rfl, ht, hs⟩, hp⟩, hq⟩

theorem Melding.Ordered.step (hM : M.Ordered rank) (hstep : M.step rank = some (words, M')) :
    M'.Ordered rank := by
  obtain ⟨out, left, right⟩ := M
  obtain ⟨hout, hl, hr⟩ := hM
  rcases Melding.step_cases hstep with ⟨h, x, s, y, t, next, hleft, -, rfl⟩ |
    ⟨h, x, s, p, k, y, t, q, hleft, hright, -, hcase⟩
  · obtain rfl : left = _ := hleft
    exact ⟨hout, link_ordered hl, hr⟩
  · obtain rfl : left = _ := hleft
    obtain rfl : right = _ := hright
    obtain ⟨hx, hs, hp⟩ := hl
    obtain ⟨hy, ht, hq⟩ := hr
    rcases hcase with ⟨hlt, -, rfl⟩ | ⟨hlt, -, rfl⟩ | ⟨rfl, hlt, -, rfl⟩ | ⟨rfl, hlt, -, rfl⟩
    · exact ⟨hout.append ⟨hx, hs, trivial⟩, hp, hy, ht, hq⟩
    · exact ⟨hout.append ⟨hy, ht, trivial⟩, ⟨hx, hs, hp⟩, hq⟩
    · have hlink := link_ordered (h := h) (show (tree h x s (tree h y t q)).Ordered rank from
        ⟨hx, hs, hy, ht, hq⟩)
      rw [link, if_pos hlt] at hlink
      exact ⟨hout, hlink, hp⟩
    · have hlink := link_ordered (h := h) (show (tree h x s (tree h y t p)).Ordered rank from
        ⟨hx, hs, hy, ht, hp⟩)
      rw [link, if_neg hlt] at hlink
      exact ⟨hout, hlink, hq⟩

/-! ## the result -/

/-- When no step is left. -/
theorem Melding.step_none (hstep : M.step rank = none) :
    M.left = nil ∨ M.right = nil ∧ carry? rank M.left = none := by
  unfold Melding.step at hstep
  split at hstep
  · next hleft => exact .inl hleft
  · split at hstep
    · cases hstep
    · next hcarry =>
      split at hstep
      · next hright => exact .inr ⟨hright, hcarry⟩
      · split_ifs at hstep

variable (rank) in
/-- While both lists have trees there is a step. -/
theorem Melding.exists_step (hleft : M.left ≠ nil) (hright : M.right ≠ nil) :
    ∃ words M', M.step rank = some (words, M') := by
  cases hstep : M.step rank with
  | some r => exact ⟨r.1, r.2, rfl⟩
  | none => exact absurd (Melding.step_none hstep) (by simp [hleft, hright])

/-- The run of as many steps as there are trees. -/
theorem Melding.run_step (hstep : M.step rank = some (words, M')) :
    Melding.run rank M.length M =
      (words + (Melding.run rank M'.length M').1, (Melding.run rank M'.length M').2) := by
  rw [← Melding.step_length hstep, Melding.run, hstep]

theorem Melding.run_none {n : Nat} (hstep : M.step rank = none) :
    Melding.run rank n M = (0, M.finish) := by
  cases n with
  | zero => rfl
  | succ n => rw [Melding.run, hstep]

theorem Melding.Inv.finish (hM : M.Inv low) (hstep : M.step rank = none) :
    M.finish.Roots 0 ∧ M.finish.items = M.items := by
  obtain ⟨out, left, right⟩ := M
  obtain ⟨hout, hl, hr⟩ := hM
  rcases Melding.step_none hstep with hnil | ⟨hnil, hcarry⟩
  · obtain rfl : left = nil := hnil
    exact ⟨hout _ hr, by simp [Melding.finish, Melding.items]⟩
  · obtain rfl : right = nil := hnil
    cases left with
    | nil => exact ⟨hout _ hr, by simp [Melding.finish, Melding.items]⟩
    | tree h x s p =>
      have hp : (tree h x s p).Roots low := ⟨hl.1, hl.2.1, hl.tail (carry?_none hcarry)⟩
      exact ⟨hout _ hp, by simp [Melding.finish, Melding.items]⟩

theorem Melding.Ordered.finish (hM : M.Ordered rank) : M.finish.Ordered rank := by
  unfold Melding.finish
  refine hM.out.append ?_
  split
  · exact hM.right
  · exact hM.left

theorem Melding.run_spec {n : Nat} (hM : M.Inv low) (hordered : M.Ordered rank)
    (hn : M.length ≤ n) :
    (Melding.run rank n M).2.Roots 0 ∧ (Melding.run rank n M).2.Ordered rank ∧
      (Melding.run rank n M).2.items = M.items := by
  induction n generalizing M low with
  | zero =>
    have hnone : M.step rank = none := by
      cases hstep : M.step rank with
      | none => rfl
      | some r =>
        have hlen := Melding.step_length (show M.step rank = some (r.1, r.2) from hstep)
        omega
    exact ⟨(hM.finish hnone).1, hordered.finish, (hM.finish hnone).2⟩
  | succ n ih =>
    unfold Melding.run
    split
    · next hstep => exact ⟨(hM.finish hstep).1, hordered.finish, (hM.finish hstep).2⟩
    · next words M' hstep =>
      obtain ⟨low', hM'⟩ := hM.step hstep
      have hlen := Melding.step_length hstep
      obtain ⟨hroots, hord, hitems⟩ := ih hM' (hordered.step hstep) (by omega)
      exact ⟨hroots, hord, hitems.trans (Melding.step_items hstep)⟩

/-- The heap of the items of two heaps. -/
theorem meld_spec (hp : p.Roots 0) (hq : q.Roots 0) (hpo : p.Ordered rank)
    (hqo : q.Ordered rank) :
    (meld rank p q).2.Roots 0 ∧ (meld rank p q).2.Ordered rank ∧
      (meld rank p q).2.items = p.items + q.items := by
  have hM : Melding.Inv 0 (⟨nil, p, q⟩ : Melding α) := ⟨fun r hr => hr, hp.carried, hq⟩
  obtain ⟨hroots, hord, hitems⟩ :=
    Melding.run_spec hM ⟨trivial, hpo, hqo⟩ (Nat.le_refl _)
  refine ⟨hroots, hord, hitems.trans ?_⟩
  simp [Melding.items]

theorem meld_nil_left : meld rank nil q = (0, q) := Melding.run_none rfl

theorem meld_nil_right (hp : p.Roots low) : meld rank p nil = (0, p) := by
  cases p with
  | nil => exact Melding.run_none rfl
  | tree h x s rest =>
    have hcarry : carry? rank (tree h x s rest) = none := by
      cases rest with
      | nil => rfl
      | tree k y t r => exact if_neg (Nat.ne_of_lt hp.2.2.1)
    exact Melding.run_none (by simp only [Melding.step, hcarry])

/-- The trees of a list are less high than the only tree of the other one. -/
theorem run_higher {out : Heap α} {n : Nat} (hp : p.Roots low) (hn : p.Below n) :
    Melding.run rank (Melding.length ⟨out, p, tree n y t nil⟩) ⟨out, p, tree n y t nil⟩ =
      (4 * p.length, out.append (p.append (tree n y t nil))) := by
  induction p generalizing out low with
  | nil => exact Melding.run_none rfl
  | tree h x s rest _ ih =>
    obtain ⟨-, -, hrest⟩ := hp
    have hc : carry? rank (tree h x s rest) = none := by
      cases rest with
      | nil => rfl
      | tree k z u r => exact if_neg (Nat.ne_of_lt hrest.1)
    have hstep : Melding.step rank ⟨out, tree h x s rest, tree n y t nil⟩ =
        some (4, ⟨out.append (tree h x s nil), rest, tree n y t nil⟩) := by
      simp only [Melding.step, hc, if_pos hn.1]
    rw [Melding.run_step hstep, ih hrest hn.2, append_assoc, Heap.length]
    exact Prod.ext (by dsimp only; omega) rfl

theorem meld_higher {n : Nat} (hp : p.Roots low) (hn : p.Below n) :
    meld rank p (tree n y t nil) = (4 * p.length, p.append (tree n y t nil)) :=
  run_higher hp hn

end melding

/-! ## the least item -/

section minimum

variable {α κ : Type} [LinearOrder κ] (rank : α → κ)

/-- The tree of `p` with the item `x`, the first one among those with the least
item, stands between the trees `before` and `after`. -/
structure LeastTree (p before : Heap α) (h : Nat) (x : α) (sons after : Heap α) : Prop where
  eq : p = before.append (tree h x sons after)
  before : ∀ y ∈ before.roots, rank x < rank y
  after : ∀ y ∈ after.roots, rank x ≤ rank y

variable {rank} {p before after sons : Heap α} {h : Nat} {x y : α}

/-- The items of a heap are not less than those of the roots. -/
theorem Heap.Ordered.exists_root (hp : p.Ordered rank) (hy : y ∈ p.items) :
    ∃ z ∈ p.roots, rank z ≤ rank y := by
  induction p with
  | nil => simp at hy
  | tree h z sons next _ ih =>
    simp only [Heap.items, Multiset.mem_cons, Multiset.mem_add] at hy
    rcases hy with rfl | hy | hy
    · exact ⟨y, List.mem_cons_self, le_refl _⟩
    · exact ⟨z, List.mem_cons_self, hp.1 y hy⟩
    · obtain ⟨w, hw, hle⟩ := ih hp.2.2 hy
      exact ⟨w, List.mem_cons_of_mem _ hw, hle⟩

theorem LeastTree.items (hmin : LeastTree rank p before h x sons after) :
    p.items = x ::ₘ (sons.items + (before.append after).items) := by
  rw [hmin.eq]
  simp only [items_append, Heap.items, ← Multiset.singleton_add]
  ac_rfl

/-- The height of the tree of the least item. -/
theorem LeastTree.height_lt {n : Nat} (hmin : LeastTree rank p before h x sons after)
    (hp : p.Roots 0) (hcard : p.items.card < 2 ^ n) : h < n := by
  obtain ⟨-, -, -, hsons, -⟩ := (hmin.eq ▸ hp).split
  have hsonsCard := hsons.card
  rw [hmin.items, Multiset.card_cons, Multiset.card_add] at hcard
  exact (Nat.pow_lt_pow_iff_right (by decide)).mp (by omega : 2 ^ h < 2 ^ n)

/-- A tree before which all items are greater and after which none is less stands at
one place only. -/
theorem append_tree_unique {before' after' sons' : Heap α} {h' : Nat} {x' : α}
    (heq : before.append (tree h x sons after) = before'.append (tree h' x' sons' after'))
    (hbefore : ∀ y ∈ before.roots, rank x < rank y) (hafter : ∀ y ∈ after.roots, rank x ≤ rank y)
    (hbefore' : ∀ y ∈ before'.roots, rank x' < rank y)
    (hafter' : ∀ y ∈ after'.roots, rank x' ≤ rank y) :
    before = before' ∧ h = h' ∧ x = x' ∧ sons = sons' ∧ after = after' := by
  induction before generalizing before' with
  | nil =>
    cases before' with
    | nil =>
      obtain ⟨rfl, rfl, rfl, rfl⟩ := Heap.tree.inj heq
      exact ⟨rfl, rfl, rfl, rfl, rfl⟩
    | tree k y t r =>
      obtain ⟨rfl, rfl, rfl, rfl⟩ := Heap.tree.inj heq
      have hle := hafter x' (by simp)
      exact absurd (hbefore' x List.mem_cons_self) (not_lt.mpr hle)
  | tree k y t r _ ih =>
    cases before' with
    | nil =>
      obtain ⟨rfl, rfl, rfl, rfl⟩ := Heap.tree.inj heq
      have hle := hafter' x (by simp)
      exact absurd (hbefore y List.mem_cons_self) (not_lt.mpr hle)
    | tree k' y' t' r' =>
      obtain ⟨rfl, rfl, rfl, hnext⟩ := Heap.tree.inj heq
      obtain ⟨rfl, hrest⟩ := ih hnext (fun z hz => hbefore z (List.mem_cons_of_mem _ hz))
        (fun z hz => hbefore' z (List.mem_cons_of_mem _ hz))
      exact ⟨rfl, hrest⟩

theorem LeastTree.unique {before' after' sons' : Heap α} {h' : Nat} {x' : α}
    (hmin : LeastTree rank p before h x sons after)
    (hmin' : LeastTree rank p before' h' x' sons' after') :
    before = before' ∧ h = h' ∧ x = x' ∧ sons = sons' ∧ after = after' :=
  append_tree_unique (hmin.eq.symm.trans hmin'.eq) hmin.before hmin.after hmin'.before
    hmin'.after

/-- The item is the least one. -/
theorem LeastTree.le (hmin : LeastTree rank p before h x sons after) (hp : p.Ordered rank)
    (hy : y ∈ p.items) : rank x ≤ rank y := by
  have hp' := hmin.eq ▸ hp
  rw [hmin.eq, items_append, Multiset.mem_add] at hy
  rcases hy with hy | hy
  · obtain ⟨z, hz, hle⟩ := hp'.left.exists_root hy
    exact (le_of_lt (hmin.before z hz)).trans hle
  · obtain ⟨z, hz, hle⟩ := hp'.right.exists_root hy
    rcases List.mem_cons.mp hz with rfl | hz
    · exact hle
    · exact (hmin.after z hz).trans hle

/-- The heap without its least item: the sons of its tree and the other trees
are melded. -/
theorem LeastTree.delete (hmin : LeastTree rank p before h x sons after) (hp : p.Roots 0)
    (hordered : p.Ordered rank) :
    (meld rank (sons.reverseOnto nil) (before.append after)).2.Roots 0 ∧
      (meld rank (sons.reverseOnto nil) (before.append after)).2.Ordered rank ∧
      p.items = x ::ₘ (meld rank (sons.reverseOnto nil) (before.append after)).2.items := by
  obtain ⟨hrest, hsons⟩ := (hmin.eq ▸ hp).remove
  have hordered' := hmin.eq ▸ hordered
  obtain ⟨-, hso, hafter⟩ := hordered'.right
  obtain ⟨hroots, hord, hitems⟩ := meld_spec (hsons.reverseOnto (q := nil) trivial) hrest
    (hso.reverseOnto (q := nil) trivial) (hordered'.left.append hafter)
  refine ⟨hroots, hord, ?_⟩
  rw [hitems, hmin.items, items_reverseOnto, Heap.items, add_zero]

end minimum

end BinomialHeap
