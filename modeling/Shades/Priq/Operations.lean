import Shades.Priq.Minimum

/-!
# Shades.Priq.Operations

Each operation makes the heap that it should, and takes exactly the words that
the melding costs and `4` for every other new tree.
-/

namespace Shades

open Memory BinomialHeap BinomialHeap.Heap Priq

variable {κ : Type} [LinearOrder κ] (rank : Nat → κ)

/-! ## words -/

/-- A queue of one item. -/
def single (data : Nat) : Heap Nat := .tree 0 data .nil .nil

/-- The words that `priq_insert` takes. -/
def insertWords (H : Heap Nat) (data : Nat) : Nat := 4 + (meld rank H (single data)).1

/-- The words that `priq_delete` takes if the sons of the minimum tree are `sons`
and the other trees are `before` and `after`. -/
def deleteWords (before sons after : Heap Nat) : Nat :=
  4 * (before.length + sons.length) +
    (meld rank (sons.reverseOnto .nil) (before.append after)).1

theorem single_roots (data : Nat) : (single data).Roots 0 := ⟨Nat.le_refl 0, rfl, trivial⟩

theorem single_ordered (data : Nat) : (single data).Ordered rank :=
  ⟨fun _ hy => absurd hy (Multiset.notMem_zero _), trivial, trivial⟩

@[simp] theorem single_items (data : Nat) : (single data).items = {data} := rfl

variable {rank} {m : Memory} {p q : Nat} {H K : Heap Nat}

/-- Trees of increasing heights less than `n` have less than `2 ^ n` items. -/
theorem HeapAt.card_lt {words : Nat → Nat} {S : Nat → Prop} (hH : HeapAt words S H p)
    (hroots : H.Roots 0) : H.items.card < 2 ^ 2 ^ 24 := by
  have hcard := hroots.card_le hH.below (Nat.zero_le _)
  exact Nat.lt_of_lt_of_le (Nat.lt_add_of_pos_right (Nat.two_pow_pos 0)) hcard

theorem Memory.canAllocate.fits {n : Nat} (hcan : m.canAllocate n) :
    m.firstGenerationEnd ≤ m.allocationPtr := by
  unfold canAllocate at hcan
  omega

/-! ## the operations -/

/-- `priq_find_min` of the empty queue. -/
theorem priqFindMin_nil (words : Nat → Nat) (cmp : CmpFun) :
    priqFindMin words nullPtr cmp = some nullPtr := by
  simp [priqFindMin, findMin]

/-- The new item of `priq_insert`. -/
theorem priqInsert_start (p data : Nat) (hcan : m.canAllocate 4) :
    ∃ q m', (∀ cmp, priqInsert m p data cmp =
        mergedOr m.allocationPtr p (merge cmp m' p q)) ∧ m.Filling [] m' ∧
      m.allocationPtr = m'.allocationPtr + 4 ∧ HeapAt m'.words m'.Live (single data) q := by
  obtain ⟨q, m₁, hnew⟩ := exists_newCell .priqItem (by decide) hcan
  obtain ⟨m₂, hm₂⟩ : ∃ m₂, m₂ = fillCell q 1 [ptrToWord data, nullWord, nullWord] m₁ := ⟨_, rfl⟩
  have hmem : (q, 4) ∈ [(q, 4)] := List.mem_cons_self
  have hf : m.Filling [] m₂ :=
    hm₂ ▸ (((Filling.refl hcan.fits).newCell hnew).fill hmem _ (by simp)).close
      (List.nil_sublist _)
  have hptr : m₂.allocationPtr = q := by
    rw [hm₂, fillCell_allocationPtr, hnew.allocationPtr_eq]
  have hsize := hnew.size
  have hcell : TreeCell m₂.words q 0 data nullPtr := by
    refine ⟨?_, by decide, ?_, ?_⟩
    · simp [hm₂, fillCell, hnew.header]
    · simp [hm₂, fillCell]
    · simp [hm₂, fillCell, nullWord, nullPtr, ptrToWord]
  refine ⟨q, m₂, fun cmp => ?_, hf, by omega, .cons hnew.ne_nullPtr (fun i _ => .inr (by omega))
    hcell (by simp [hm₂, fillCell, nullWord, nullPtr, ptrToWord]) (n := nullPtr) rfl rfl⟩
  unfold priqInsert
  simp only [hnew.eq, ← hm₂]

/-- `priq_insert` melds a queue with a queue of one item. -/
theorem priqInsert_spec (hH : HeapAt m.words m.Live H p) (hroots : H.Roots 0) (data : Nat)
    (hcard : H.items.card + 1 < 2 ^ 2 ^ 24) (hcan : m.canAllocate (insertWords rank H data)) :
    ∃ r m', priqInsert m p data (rankCmp rank) = some (r, m') ∧ m.Extends m' ∧
      m.allocationPtr = m'.allocationPtr + insertWords rank H data ∧
      HeapAt m'.words m'.Live (meld rank H (single data)).2 r := by
  unfold insertWords at hcan ⊢
  obtain ⟨q, m₂, hinsert, hf, hptr, hsingle⟩ :=
    priqInsert_start p data (canAllocate_mono hcan (Nat.le_add_right _ _))
  have hext := hf.extends
  have hcan₂ : m₂.canAllocate (meld rank H (single data)).1 := by
    have hend := hext.firstGenerationEnd_eq
    unfold canAllocate at hcan ⊢
    omega
  obtain ⟨r, m', hrun, hext', hptr', hheap⟩ := mergeQueues_spec hf
    (hH.frame hext.agree fun _ => hext.live) hsingle (.inr fun heq => by cases heq) hroots
    (single_roots data) (by rwa [Multiset.card_add]) hcan₂
  exact ⟨r, m', by rw [hinsert, hrun, mergedOr], hext', by omega, hheap⟩

/-- `priq_merge` melds two queues. -/
theorem priqMerge_spec (hH : HeapAt m.words m.Live H p) (hK : HeapAt m.words m.Live K q)
    (hroots : H.Roots 0) (hroots' : K.Roots 0)
    (hcard : H.items.card + K.items.card < 2 ^ 2 ^ 24) (hcan : m.canAllocate (meld rank H K).1) :
    ∃ r m', priqMerge m p q (rankCmp rank) = some (r, m') ∧ m.Extends m' ∧
      m.allocationPtr = m'.allocationPtr + (meld rank H K).1 ∧
      HeapAt m'.words m'.Live (meld rank H K).2 r := by
  by_cases hnil : H = .nil ∧ K = .nil
  · obtain ⟨rfl, rfl⟩ := hnil
    have hp : p = nullPtr := hH
    have hq : q = nullPtr := hK
    rw [meld_nil_left]
    exact ⟨nullPtr, m, by simp [priqMerge, hp, hq], .refl m, rfl, rfl⟩
  · obtain ⟨r, m', hrun, hext, hptr, hheap⟩ := mergeQueues_spec (.refl hcan.fits) hH hK
      (not_and_or.mp hnil) hroots hroots' (by rwa [Multiset.card_add]) hcan
    refine ⟨r, m', ?_, hext, hptr, hheap⟩
    unfold priqMerge
    rw [if_neg (by rwa [hH.eq_nullPtr_iff, hK.eq_nullPtr_iff]), hrun]
    rfl

/-- `priq_delete` of the empty queue. -/
theorem priqDelete_nil (m : Memory) (cmp : CmpFun) :
    priqDelete m nullPtr cmp = some (nullPtr, m) := if_pos rfl

/-- The copies that `priq_delete` melds. -/
theorem priqDelete_start {before sons after : Heap Nat} {h x s : Nat}
    (hH : HeapAt m.words m.Live (before.append (.tree h x sons after)) p)
    (hroots : (before.append (.tree h x sons after)).Roots 0)
    (hcell : TreeCell m.words ((next m.words)^[before.length] p) h x s)
    (hsons : HeapAt m.words m.Live sons s)
    (hcan : m.canAllocate (4 * (before.length + sons.length))) :
    ∃ r₁ r₂ m', (∀ cmp, findMin m.words p cmp = some ((next m.words)^[before.length] p) →
        priqDelete m p cmp = if r₁ = nullPtr ∧ r₂ = nullPtr then some (nullPtr, m')
          else mergedOr m.allocationPtr p (merge cmp m' r₂ r₁)) ∧ m.Extends m' ∧
      m.allocationPtr = m'.allocationPtr + 4 * (before.length + sons.length) ∧
      HeapAt m'.words m'.Live (before.append after) r₁ ∧
      HeapAt m'.words m'.Live (sons.reverseOnto .nil) r₂ := by
  have hp : p ≠ nullPtr := mt hH.eq_nullPtr_iff.mp Heap.append_tree_ne_nil
  obtain ⟨-, hlive, -⟩ := hH.skip.tree
  obtain ⟨hrest, hsonsRoots⟩ := hroots.remove
  have hlength := hroots.length_le hH.below (Nat.zero_le _)
  rw [length_append] at hlength
  simp only [Heap.length] at hlength
  obtain ⟨r₁, m₁, hexcept, hext₁, hfits₁, hptr₁, hrest₁⟩ := exceptMin_spec hH
    (by unfold priqRounds; omega) hcan.fits (canAllocate_mono hcan (by omega))
  have hson : son m₁.words ((next m.words)^[before.length] p) = s :=
    (hcell.congr fun i hi => hext₁.agree _ (hlive i (by omega))).son_eq
  have hcan₁ : m₁.canAllocate (4 * sons.length) := by
    have hend := hext₁.firstGenerationEnd_eq
    unfold canAllocate at hcan ⊢
    omega
  have hsonsLength := hsonsRoots.length_eq
  have hheight := hcell.height_lt
  obtain ⟨r₂, m₂, hreverse, hext₂, hfits₂, hptr₂, hrest₂⟩ := reverseSons_spec (R := .nil)
    (r := nullPtr) (n := priqRounds) (hsons.frame hext₁.agree fun _ => hext₁.live) rfl
    (by unfold priqRounds; omega) hfits₁ hcan₁
  refine ⟨r₁, r₂, m₂, fun cmp hfind => ?_, hext₁.trans hext₂, by omega,
    hrest₁.frame hext₂.agree fun _ => hext₂.live, hrest₂⟩
  simp only [priqDelete, if_neg hp, hfind, hexcept, hson, hreverse, bind, Option.bind]

variable (rank) in
/-- `priq_delete` melds the sons of the least tree with the other trees. -/
theorem priqDelete_spec (hH : HeapAt m.words m.Live H p) (hne : H ≠ .nil)
    (hroots : H.Roots 0) :
    ∃ before h x sons after, LeastTree rank H before h x sons after ∧
      priqFindMin m.words p (rankCmp rank) = some x ∧
      (m.canAllocate (deleteWords rank before sons after) →
        ∃ r m', priqDelete m p (rankCmp rank) = some (r, m') ∧ m.Extends m' ∧
          m.allocationPtr = m'.allocationPtr + deleteWords rank before sons after ∧
          HeapAt m'.words m'.Live
            (meld rank (sons.reverseOnto .nil) (before.append after)).2 r) := by
  obtain ⟨before, h, x, sons, after, hfind, hmin⟩ := findMin_spec rank hH hne hroots
  have hH' := hmin.eq ▸ hH
  have hroots' := hmin.eq ▸ hroots
  obtain ⟨hnull, hlive, s, hcell, hsons, -⟩ := hH'.skip.tree
  refine ⟨before, h, x, sons, after, hmin, ?_, fun hcan => ?_⟩
  · simp only [priqFindMin, hfind, bind, Option.bind, if_neg hnull, hcell.item_eq]
  obtain ⟨hrest, hsonsRoots⟩ := hroots'.remove
  unfold deleteWords at hcan ⊢
  obtain ⟨r₁, r₂, m₂, hdelete, hext₂, hptr₂, hrest₁, hrest₂⟩ :=
    priqDelete_start hH' hroots' hcell hsons (canAllocate_mono hcan (Nat.le_add_right _ _))
  have hcan₂ : m₂.canAllocate (meld rank (sons.reverseOnto .nil) (before.append after)).1 := by
    have hend := hext₂.firstGenerationEnd_eq
    unfold canAllocate at hcan ⊢
    omega
  rw [hdelete _ hfind]
  by_cases hnil : sons.reverseOnto .nil = .nil ∧ before.append after = .nil
  · have hr₁ : r₁ = nullPtr := hrest₁.eq_nullPtr_iff.mpr hnil.2
    have hr₂ : r₂ = nullPtr := hrest₂.eq_nullPtr_iff.mpr hnil.1
    refine ⟨nullPtr, m₂, if_pos ⟨hr₁, hr₂⟩, hext₂, ?_, ?_⟩
    · rw [hnil.1, hnil.2, meld_nil_left]
      omega
    · rw [hnil.1, hnil.2, meld_nil_left]
      exact rfl
  · have hcard := hH.card_lt hroots
    rw [hmin.items, Multiset.card_cons, Multiset.card_add] at hcard
    have hcard₂ : ((sons.reverseOnto .nil).items + (before.append after).items).card <
        2 ^ 2 ^ 24 := by
      rw [items_reverseOnto, Heap.items, add_zero, Multiset.card_add]
      exact Nat.lt_of_succ_lt hcard
    obtain ⟨r, m', hmerge, hext, hptr, hheap⟩ := mergeQueues_spec (.refl hcan₂.fits) hrest₂ hrest₁
      (not_and_or.mp hnil) (hsonsRoots.reverseOnto (q := .nil) trivial) hrest hcard₂ hcan₂
    refine ⟨r, m', ?_, hext₂.trans hext, by omega, hheap⟩
    rw [if_neg (by rwa [hrest₁.eq_nullPtr_iff, hrest₂.eq_nullPtr_iff, and_comm]), hmerge]
    rfl

end Shades
