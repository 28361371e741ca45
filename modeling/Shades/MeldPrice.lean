import Shades.BinomialHeap

/-!
# Shades.MeldPrice

What it costs to meld two binomial heaps: a bound for any two heaps, and the
exact price when the trees of one of them have the heights `0, …, n - 1`, as the
sons of a tree have in reverse order, and the other one has no tree of the
height `n`.
-/

namespace BinomialHeap

open Heap

variable {α κ : Type} [LinearOrder κ] (rank : α → κ)

/-! ## a bound -/

section bound

variable {rank} {M M' : Melding α} {p q : Heap α} {words n N low low' : Nat}

/-- Both lists start with trees not less high than `low` and `low'`, and there
are less than `2 ^ N` items. -/
structure Melding.Within (N low low' : Nat) (M : Melding α) : Prop where
  left : M.left.Carried low
  right : M.right.Roots low'
  left_le : low ≤ N
  right_le : low' ≤ N
  card : M.left.items.card + M.right.items.card < 2 ^ N

/-- Trees with less than `2 ^ N` items are less high than `N`. -/
theorem Heap.Carried.height_lt {h : Nat} {x : α} {s rest : Heap α}
    (hp : (tree h x s rest).Carried low) (hcard : (tree h x s rest).items.card < 2 ^ N) : h < N :=
  (Nat.pow_lt_pow_iff_right (by decide)).mp (Nat.lt_of_le_of_lt hp.card hcard)

/-- A step is paid for by the heights that it leaves behind. -/
theorem Melding.Within.step (hM : M.Within N low low')
    (hstep : M.step rank = some (words, M')) :
    ∃ k k', M'.Within N k k' ∧ words + 4 * (low + low') ≤ 4 * (k + k') := by
  obtain ⟨out, left, right⟩ := M
  obtain ⟨hl, hr, hlow, hlow', hcard⟩ := hM
  rcases Melding.step_cases hstep with ⟨h, x, s, y, t, next, hleft, rfl, rfl⟩ |
    ⟨h, x, s, p, k, y, t, q, hleft, hright, hne, hcase⟩
  · obtain rfl : left = _ := hleft
    have hlt := (Nat.pow_lt_pow_iff_right (by decide)).mp
      (Nat.lt_of_le_of_lt hl.card_two (Nat.lt_of_le_of_lt (Nat.le_add_right _ _) hcard))
    obtain ⟨hle, hs, -, ht, hnext⟩ := hl
    refine ⟨h + 1, low', ⟨link_carried hs ht hnext (Nat.le_refl _), hr, by omega, hlow', ?_⟩,
      by omega⟩
    rwa [link_items]
  · obtain rfl : left = _ := hleft
    obtain rfl : right = _ := hright
    have hp := hl.tail hne
    have hh := hl.height_lt (Nat.lt_of_le_of_lt (Nat.le_add_right _ _) hcard)
    have hk := hr.carried.height_lt (Nat.lt_of_le_of_lt (Nat.le_add_left _ _) hcard)
    obtain ⟨hle, hs, hpcarried⟩ := hl
    obtain ⟨hle', ht, hq⟩ := hr
    simp only [Heap.items, Multiset.card_cons, Multiset.card_add] at hcard
    rcases hcase with ⟨hlt, rfl, rfl⟩ | ⟨hlt, rfl, rfl⟩ | ⟨rfl, -, rfl, rfl⟩ | ⟨rfl, -, rfl, rfl⟩
    · refine ⟨h + 1, low', ⟨hp.carried, ⟨hle', ht, hq⟩, by omega, hlow', ?_⟩, by omega⟩
      simp only [Heap.items, Multiset.card_cons, Multiset.card_add]
      omega
    · refine ⟨low, k + 1, ⟨⟨hle, hs, hpcarried⟩, hq, hlow, by omega, ?_⟩, by omega⟩
      simp only [Heap.items, Multiset.card_cons, Multiset.card_add]
      omega
    · refine ⟨h + 1, h + 1, ⟨⟨Nat.le_refl _, ⟨rfl, hs, ht⟩, hq⟩, hp, hh, hh, ?_⟩, by omega⟩
      simp only [Heap.items, Multiset.card_cons, Multiset.card_add]
      omega
    · refine ⟨h + 1, h + 1, ⟨⟨Nat.le_refl _, ⟨rfl, ht, hs⟩, hp⟩, hq, hh, hh, ?_⟩, by omega⟩
      simp only [Heap.items, Multiset.card_cons, Multiset.card_add]
      omega

theorem Melding.Within.run_le (hM : M.Within N low low') :
    (Melding.run rank n M).1 + 4 * (low + low') ≤ 8 * N := by
  induction n generalizing M low low' with
  | zero =>
    have hle := Nat.add_le_add hM.left_le hM.right_le
    simp only [Melding.run]
    omega
  | succ n ih =>
    unfold Melding.run
    split
    · have hle := Nat.add_le_add hM.left_le hM.right_le
      omega
    · next words M' hstep =>
      obtain ⟨k, k', hM', hpaid⟩ := hM.step hstep
      have hrun := ih hM'
      dsimp only
      omega

/-- Each of the `N` heights costs at most `8`. -/
theorem meld_le (hp : p.Roots 0) (hq : q.Roots 0) (hcard : p.items.card + q.items.card < 2 ^ N) :
    (meld rank p q).1 ≤ 8 * N :=
  @Melding.Within.run_le _ _ _ _ ⟨nil, p, q⟩ _ N 0 0
    ⟨hp.carried, hq, Nat.zero_le _, Nat.zero_le _, hcard⟩

end bound

/-! ## trees of all heights -/

namespace Heap

/-- Trees of the heights `low, …, n - 1`. -/
@[simp] def Consecutive (n : Nat) : Nat → Heap α → Prop
  | low, nil => low = n
  | low, tree h _ _ next => h = low ∧ next.Consecutive n (low + 1)

/-- The number of links that the trees `p` of consecutive heights and a carry with
the item `x` in front of the trees `q` make at heights that `q` does not have.  If
an item of `p` is less than that of the carry, the carry is in front of the rest of
`p` from there on, and the trees behind `q` cost `rest`. -/
@[simp] def gaps (rest : Nat) : α → Heap α → Heap α → Nat
  | _, nil, _ => 0
  | x, tree h y _ p, tree k z t q =>
    if h = k then p.gaps rest (if rank z < rank x then z else x) q
    else if rank y < rank x then rest + 1
    else p.gaps rest x (tree k z t q) + 1
  | x, tree _ y _ p, nil => if rank y < rank x then rest + 1 else p.gaps rest x nil + 1

/-- The links at heights that only one of the lists has: `p` has all heights less
than that of the trees behind `q`. -/
@[simp] def extraLinks (rest : Nat) : Heap α → Heap α → Nat
  | tree h x _ p, tree k y t q =>
    if h = k then if rank y < rank x then gaps rank rest y p q else rest
    else p.extraLinks rest (tree k y t q)
  | _, _ => 0

variable {p q : Heap α} {h n k low : Nat} {x : α}

theorem gaps_le (rest : Nat) : gaps rank rest x p q ≤ p.length + rest := by
  induction p generalizing x q with
  | nil => exact Nat.zero_le _
  | tree h y s p _ ih =>
    cases q with
    | nil =>
      have hstay := @ih nil x
      unfold gaps
      split <;> (simp only [length]; omega)
    | tree k z t q =>
      have hlink := @ih q (if rank z < rank x then z else x)
      have hstay := @ih (tree k z t q) x
      unfold gaps
      simp only [length]
      split
      · omega
      · split <;> omega

theorem extraLinks_le (rest : Nat) : extraLinks rank rest p q ≤ p.length + rest := by
  induction p with
  | nil =>
    unfold extraLinks
    exact Nat.zero_le _
  | tree h x s p _ ih =>
    cases q with
    | nil =>
      unfold extraLinks
      exact Nat.zero_le _
    | tree k y t q =>
      have hlink := @gaps_le _ _ _ rank p q y rest
      unfold extraLinks
      split_ifs <;> (simp only [length]; omega)

/-- The sons of a tree in reverse order. -/
theorem Sons.consecutive (hp : p.Sons n) (hq : q.Consecutive k n) :
    (p.reverseOnto q).Consecutive k 0 := by
  induction p generalizing n q with
  | nil =>
    obtain rfl : n = 0 := hp
    exact hq
  | tree h x sons next _ ih =>
    obtain ⟨rfl, -, hnext⟩ := hp
    exact ih hnext ⟨rfl, hq⟩

theorem Consecutive.le (hp : p.Consecutive n low) : low ≤ n := by
  induction p generalizing low with
  | nil => exact Nat.le_of_eq hp
  | tree h x s next _ ih => exact Nat.le_of_succ_le (ih hp.2)

theorem Consecutive.carry? {s : Heap α} (hp : (tree h x s p).Consecutive n low) :
    carry? rank (tree h x s p) = none := by
  cases p with
  | nil => rfl
  | tree k y t r =>
    obtain ⟨rfl, hk, -⟩ := hp
    exact if_neg (by omega)

end Heap

/-! ## the price of a step -/

/-- The price of the rest of the melding. -/
def Melding.price (M : Melding α) : Nat := (Melding.run rank M.length M).1

variable {rank} {M M' : Melding α} {words n h k low : Nat} {x y : α}
  {out l p q r s t : Heap α}

theorem price_step (hstep : M.step rank = some (words, M')) :
    M.price rank = words + M'.price rank := by
  rw [Melding.price, Melding.run_step hstep]
  rfl

theorem price_none (hstep : M.step rank = none) : M.price rank = 0 := by
  rw [Melding.price, Melding.run_none hstep]

theorem price_nil_left : Melding.price rank ⟨out, nil, q⟩ = 0 := price_none rfl

theorem price_nil_right (hc : carry? rank (tree h x s p) = none) :
    Melding.price rank ⟨out, tree h x s p, nil⟩ = 0 :=
  price_none (by simp only [Melding.step, hc])

/-- The carry is linked with the next tree. -/
theorem price_link : Melding.price rank ⟨out, tree h x s (tree h y t p), q⟩ =
    4 + Melding.price rank ⟨out, link rank h x s y t p, q⟩ :=
  price_step (by simp [Melding.step, carry?])

/-- The first tree of the left list is done. -/
theorem price_less (hc : carry? rank (tree h x s p) = none) (hlt : h < k) :
    Melding.price rank ⟨out, tree h x s p, tree k y t q⟩ =
      4 + Melding.price rank ⟨out.append (tree h x s nil), p, tree k y t q⟩ :=
  price_step (by simp only [Melding.step, hc, if_pos hlt])

/-- The first tree of the right list is done. -/
theorem price_greater (hc : carry? rank (tree h x s p) = none) (hlt : k < h) :
    Melding.price rank ⟨out, tree h x s p, tree k y t q⟩ =
      4 + Melding.price rank ⟨out.append (tree k y t nil), tree h x s p, q⟩ :=
  price_step (by simp only [Melding.step, hc, if_neg (Nat.lt_asymm hlt), if_pos hlt])

/-- The first trees are linked. -/
theorem price_equal (hc : carry? rank (tree h x s p) = none) :
    Melding.price rank ⟨out, tree h x s p, tree h y t q⟩ =
      8 + Melding.price rank (if rank y < rank x then ⟨out, tree (h + 1) y (tree h x s t) q, p⟩
        else ⟨out, tree (h + 1) x (tree h y t s) p, q⟩) := by
  refine price_step ?_
  simp only [Melding.step, hc, lt_self_iff_false, if_false]
  split <;> rfl

/-- The trees less high than the carry are done. -/
theorem price_below (hc : carry? rank (tree h x s p) = none) (hl : l.Below h) :
    ∃ out', Melding.price rank ⟨out, tree h x s p, l.append q⟩ =
      4 * l.length + Melding.price rank ⟨out', tree h x s p, q⟩ := by
  induction l generalizing out with
  | nil => exact ⟨out, (Nat.zero_add _).symm⟩
  | tree k y t next _ ih =>
    obtain ⟨out', hprice⟩ := @ih (out.append (tree k y t nil)) hl.2
    refine ⟨out', ?_⟩
    rw [Heap.append, price_greater hc hl.1, hprice, Heap.length]
    omega

/-! ## the price of the heights -/

/-- The carry is in front of the trees of all heights: it is linked with each of
them. -/
theorem price_carry_left (hp : p.Consecutive n h) (hq : q.Below n) (hr : r.Roots (n + 1)) :
    Melding.price rank ⟨out, tree h x s p, q.append r⟩ =
      4 * (p.length + q.length + min 1 r.length) := by
  induction p generalizing h x s with
  | nil =>
    obtain rfl : h = n := hp
    obtain ⟨out', hprice⟩ : ∃ out', Melding.price rank ⟨out, tree h x s nil, q.append r⟩ =
        4 * q.length + Melding.price rank ⟨out', tree h x s nil, r⟩ := price_below rfl hq
    rw [hprice]
    cases r with
    | nil =>
      rw [price_nil_right rfl]
      simp
    | tree k y t r =>
      rw [price_less rfl hr.1, price_nil_left]
      simp only [Heap.length]
      omega
  | tree k y t p _ ih =>
    obtain ⟨rfl, hp⟩ := hp
    rw [price_link]
    unfold link
    split
    all_goals
      rw [ih hp, Heap.length]
      omega

/-- Less high trees and one of the next height. -/
theorem Heap.Below.snoc (hl : l.Below h) : (l.append (tree h y t nil)).Below (h + 1) := by
  induction l with
  | nil => exact ⟨Nat.lt_succ_self h, trivial⟩
  | tree k z u next _ ih => exact ⟨Nat.lt_succ_of_lt hl.1, ih hl.2⟩

/-- No tree of a list is as high as the carry in front of it. -/
theorem carry?_append (hq : q.Roots (h + 1)) (hqn : q.Below n) (hr : r.Roots (n + 1))
    (hle : h ≤ n) : carry? rank (tree h x s (q.append r)) = none := by
  cases q with
  | nil =>
    cases r with
    | nil => rfl
    | tree k y t r =>
      have hlt := hr.1
      exact if_neg (by omega)
  | tree k y t q =>
    have hlt := hq.1
    exact if_neg (by omega)

/-- The carry is in front of the other trees: it is linked with them at their
heights, and with a tree of the other list at each height that they do not have. -/
theorem price_carry_right (hl : l.Below h) (hp : p.Consecutive n h) (hq : q.Roots h)
    (hqn : q.Below n) (hr : r.Roots (n + 1)) :
    Melding.price rank ⟨out, tree h x s (q.append r), l.append p⟩ =
      4 * (l.length + p.length + q.length + gaps rank (min 1 r.length) x p q) := by
  induction p generalizing out l h x s q with
  | nil =>
    obtain rfl : h = n := hp
    have hnil : q = nil := by
      cases q with
      | nil => rfl
      | tree k y t q => exact absurd hqn.1 (Nat.not_lt.mpr hq.1)
    subst hnil
    have hc : carry? rank (tree h x s r) = none :=
      @carry?_append _ _ _ rank h h x nil r s trivial trivial hr (Nat.le_refl h)
    obtain ⟨out', hprice⟩ : ∃ out', Melding.price rank ⟨out, tree h x s r, l.append nil⟩ =
        4 * l.length + Melding.price rank ⟨out', tree h x s r, nil⟩ := price_below hc hl
    rw [Heap.append, hprice, price_nil_right hc]
    simp
  | tree k y t p _ ih =>
    obtain ⟨rfl, hp⟩ := hp
    have hle := hp.le
    by_cases hgap : q.Roots (k + 1)
    · -- no tree of the right list is as high as the carry
      have hc := @carry?_append _ _ _ rank n k x q r s hgap hqn hr (by omega)
      obtain ⟨out', hprice⟩ : ∃ out',
          Melding.price rank ⟨out, tree k x s (q.append r), l.append (tree k y t p)⟩ =
            4 * l.length + Melding.price rank ⟨out', tree k x s (q.append r), tree k y t p⟩ :=
        price_below hc hl
      have hgaps : gaps rank (min 1 r.length) x (tree k y t p) q =
          if rank y < rank x then min 1 r.length + 1
          else gaps rank (min 1 r.length) x p q + 1 := by
        cases q with
        | nil => rfl
        | tree i z u q =>
          have hlt := hgap.1
          exact if_neg (by omega)
      rw [hprice, price_equal hc, hgaps, Heap.length]
      split
      · rw [price_carry_left hp hqn hr]
        omega
      · have hrest := @ih (k + 1) x out' nil q (tree k y t s) trivial hp hgap hqn
        simp only [Heap.append, Heap.length] at hrest
        rw [hrest]
        omega
    · cases q with
      | nil => exact absurd trivial hgap
      | tree i z u q =>
        obtain ⟨hki, hu, hq⟩ := hq
        obtain rfl : k = i := Nat.le_antisymm hki (by
          by_contra hlt
          exact hgap ⟨by omega, hu, hq⟩)
        have hlist : l.append (tree k y t p) = (l.append (tree k y t nil)).append p := by
          rw [append_assoc]
          rfl
        rw [Heap.append, price_link, hlist, gaps, if_pos rfl]
        unfold link
        split
        all_goals
          rw [ih hl.snoc hp hq hqn.2]
          simp only [Heap.length, length_append]
          omega

/-- The lists are melded from the first height that both have. -/
theorem price_extraLinks (hp : p.Consecutive n h) (hq : q.Roots h) (hqn : q.Below n)
    (hne : q ≠ nil) (hr : r.Roots (n + 1)) :
    Melding.price rank ⟨out, p, q.append r⟩ =
      4 * (p.length + q.length + extraLinks rank (min 1 r.length) p q) := by
  induction p generalizing out h with
  | nil =>
    obtain rfl : h = n := hp
    cases q with
    | nil => exact absurd rfl hne
    | tree k y t q => exact absurd hqn.1 (Nat.not_lt.mpr hq.1)
  | tree i x s p _ ih =>
    have hc : carry? rank (tree i x s p) = none := hp.carry? rank
    obtain ⟨rfl, hp⟩ := hp
    cases q with
    | nil => exact absurd rfl hne
    | tree k y t q =>
      by_cases heq : i = k
      · subst heq
        rw [Heap.append, price_equal hc, extraLinks, if_pos rfl]
        split
        · have hrest := @price_carry_right _ _ _ rank n (i + 1) y out nil p q r (tree i x s t)
            trivial hp hq.2.2 hqn.2 hr
          simp only [Heap.append, Heap.length] at hrest ⊢
          rw [hrest]
          omega
        · rw [price_carry_left hp hqn.2 hr]
          simp only [Heap.length]
          omega
      · have hlt : i < k := Nat.lt_of_le_of_ne hq.1 heq
        have hrest := @ih (i + 1) (out.append (tree i x s nil)) hp ⟨hlt, hq.2⟩
        rw [Heap.append, price_less hc hlt, extraLinks, if_neg heq]
        rw [Heap.append] at hrest
        rw [hrest]
        simp only [Heap.length]
        omega

/-- All trees of the left list are less high than those of the right one. -/
theorem price_consecutive_below (hp : p.Consecutive n h) (hr : r.Roots (n + 1)) (hne : r ≠ nil) :
    Melding.price rank ⟨out, p, r⟩ = 4 * p.length := by
  cases r with
  | nil => exact absurd rfl hne
  | tree k y t r =>
    induction p generalizing out h with
    | nil => exact price_nil_left
    | tree i x s p _ ih =>
      have hc : carry? rank (tree i x s p) = none := hp.carry? rank
      obtain ⟨rfl, hp⟩ := hp
      have hle := hp.le
      have hlt := hr.1
      rw [price_less hc (by omega), ih hp, Heap.length]
      omega

end BinomialHeap
