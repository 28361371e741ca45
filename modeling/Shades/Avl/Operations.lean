import Shades.Avl.Compare

/-!
# Shades.Avl.Operations

`avl_find`, `avl_insert` and `avl_delete` on trees in memory, for a comparison
function that orders the keys strictly and totally.

The paths have room for trees of the height `48`.
-/

namespace Shades

open Memory AvlTree

variable {κ : Type} [LinearOrder κ] {rank : Nat → κ} {S : Nat → Prop} {m m₀ : Memory}
variable {p root key data : Nat} {t : AvlTree κ Nat}

/-! ## searching -/

theorem avlFindLoop_spec {words : Nat → Nat} {n : Nat} (ht : AvlAt rank words S p t)
    (havl : t.Avl) (hn : t.height ≤ n) (key : Nat) :
    avlFindLoop words (rankCmp rank) key n p = some ((find (rank key) t).getD nullPtr) := by
  induction t generalizing p n with
  | leaf k d =>
    cases ht with
    | @leaf _ keyw _ hleaf hS =>
      obtain ⟨hint, htype⟩ := hleaf.not_internal
      unfold avlFindLoop find
      rw [if_neg (by simp [hint]), assert_true htype]
      simp only [hleaf.key, hleaf.data, wordToPtr_ptrToWord, Option.bind_eq_bind, Option.bind_some,
        rankCmp_eq_equal]
      split <;> rfl
  | node h k l r ihl ihr =>
    obtain ⟨rfl, -, -, hl, hr⟩ := havl
    have hheight := heightOf_le l r
    rw [height_node] at hn
    obtain ⟨n, rfl⟩ : ∃ j, n = j + 1 := ⟨n - 1, by omega⟩
    cases ht with
    | @node _ _ keyw pl pr _ _ hnode hS htl htr =>
      unfold avlFindLoop find
      rw [if_pos hnode.internal]
      simp only [hnode.key, hnode.left, hnode.right, wordToPtr_ptrToWord]
      rcases rankCmp_cases rank key (wordToPtr keyw) with ⟨hle, hcmp | hcmp⟩ | ⟨hgt, hcmp⟩
      · rw [hcmp, if_pos hle]
        exact ihl htl hl (by omega)
      · rw [hcmp, if_pos hle]
        exact ihl htl hl (by omega)
      · rw [hcmp, if_neg hgt]
        exact ihr htr hr (by omega)

/-- `avl_find` returns the data of the key, or `NULL_PTR`. -/
theorem avlFind_spec {words : Nat → Nat} (ht : AvlAt rank words S root t) (havl : t.Avl)
    (hheight : t.height ≤ avlPathSize) (key : Nat) :
    avlFind words root key (rankCmp rank) = some ((find (rank key) t).getD nullPtr) := by
  unfold avlFind
  rw [if_neg ht.ne_null]
  exact avlFindLoop_spec ht havl hheight key

/-! ## an order as a comparison function -/

/-- The result of comparing the key `k` with another key. -/
def orderResult (k k' : κ) : CmpResult :=
  if k < k' then .less else if k = k' then .equal else .greater

theorem rankCmp_eq_orderResult (rank : Nat → κ) (key p : Nat) :
    rankCmp rank key p = orderResult (rank key) (rank p) := rfl

section order

variable {k k' : κ} {d : Nat} {fs : List (Frame κ Nat)}

theorem orderResult_eq_equal : orderResult k k' = .equal ↔ k = k' := by
  unfold orderResult
  split
  · next h => simp [h.ne]
  · simp

theorem orderResult_ne_error : orderResult k k' ≠ .error := by
  unfold orderResult
  split
  · simp
  · split <;> simp

/-- The comparisons go left for the keys up to the one of the node. -/
theorem orderResult_left : orderResult k k' = .less ∨ orderResult k k' = .equal ↔ k ≤ k' := by
  rw [orderResult_eq_equal, le_iff_lt_or_eq]
  unfold orderResult
  split
  · next h => simp [h]
  · next h => split <;> simp [h]

theorem descendBy_order (k : κ) (t : AvlTree κ Nat) (fs : List (Frame κ Nat)) :
    descendBy (orderResult k) t fs = some (descend k t fs) := by
  induction t generalizing fs with
  | leaf => rfl
  | node h k' l r ihl ihr =>
    simp only [descendBy, descend, orderResult_ne_error, if_false, orderResult_left]
    split
    · exact ihl _
    · exact ihr _

theorem not_reports_order (k : κ) (t : AvlTree κ Nat) : ¬ Reports (orderResult k) t := by
  rw [reports_iff (descendBy_order k t [])]
  exact orderResult_ne_error

theorem putLeaf_order (k : κ) (x : Nat) (k' : κ) (d' : Nat) :
    putLeaf (orderResult k) k x k' d' = insertLeaf k x k' d' := by
  unfold putLeaf insertLeaf
  simp only [orderResult_eq_equal]
  split
  · rfl
  · next hne =>
    have hless : orderResult k k' = .less ↔ k < k' := by
      unfold orderResult
      split
      · next h => simp [h]
      · next h => simpa [hne] using h
    simp only [hless]

/-- What `avl_insert` makes of an AVL tree. -/
theorem Avl.storeAt_order (havl : t.Avl) (x : Nat) {k' : κ} {d' : Nat}
    (hdescend : descend k t [] = (fs, k', d')) :
    storeAt (orderResult k) k x fs k' d' = AvlTree.insert k x t := by
  have hinsert := rebuildAll_insertLeaf k x t []
  have hplug := plugAll_descend k t []
  rw [hdescend] at hinsert hplug
  dsimp only [rebuildAll, AvlTree.plugAll] at hinsert hplug
  unfold storeAt
  rw [← hinsert, putLeaf_order]
  split
  · next h =>
    have hk : k = k' := orderResult_eq_equal.mp h.1
    rw [insertLeaf, if_pos hk, hk, ← h.2,
      (rebuildAll_eq_plugAll (o := .leaf k' d') (hplug ▸ havl) rfl trivial).1]
  · rfl

end order

/-! ## insertion -/

/-- The new internal node over a leaf and the new leaf. -/
theorem newFather_spec {c pi : Nat} {k' : κ} {d' : Nat} (hw : Working S m₀ m)
    (hcan : m.canAllocate 4) (hc : m.allocationPtr ≤ c)
    (hp : AvlAt rank m.words (Below S m c) p (.leaf k' d'))
    (hitem : AvlAt rank m.words (Below S m c) pi (.leaf (rank key) data)) (hne : rank key ≠ k') :
    ∃ q m', newFather m (rankCmp rank key (wordToPtr (m.words (p + 1)))) key p pi = (q, m') ∧
      Writes S m₀ m 4 c c m' ∧
      AvlAt rank m'.words (Below S m' c) q (insertLeaf (rank key) data k' d') := by
  obtain ⟨kw, hkw, hleaf, -⟩ := hp.leaf_inv
  rw [hleaf.key, rankCmp_eq_orderResult, hkw, ← putLeaf_order]
  exact newFather_result hw hcan hc hp hitem rfl fun h => hne (orderResult_eq_equal.mp h)

/-- Where `avl_insert` asks the update function: the search has ended at the
leaf `p` with the data `o`, and the memory is `M`. -/
structure AsksAt (rank : Nat → κ) (S : Nat → Prop) (f : Option UpdateFunction) (m : Memory)
    (root key : Nat) (M : Memory) (k' : κ) (o p : Nat) : Prop where
  descends : ∃ path, avlDescend (rankCmp rank) key avlPathSize m [] root = some (.leaf p path, M)
  grows : m.Extends M
  canAllocate : M.canAllocate (avlInsertWords 0 + UpdateFunction.cost f)
  leaf : AvlAt rank m.words S p (.leaf k' o)

/-- `avl_insert` into a tree with any update function. -/
theorem avlInsert_updates (ht : AvlAt rank m.words S root t) (hS : ∀ a, S a → m.Live a)
    (havl : t.Avl) (hheight : t.height ≤ 48) {f : Option UpdateFunction}
    (hcan : m.canAllocate (avlInsertWords t.height + UpdateFunction.cost f)) (key data : Nat) :
    ∃ M p k' o, (descend (rank key) t []).2 = (k', o) ∧ AsksAt rank S f m root key M k' o p ∧
      ∃ q m', avlInsert m root key (rankCmp rank) f data = some (q, m') ∧ m.Extends m' ∧
        m.allocationPtr ≤
          m'.allocationPtr + (avlInsertWords t.height + UpdateFunction.cost f) ∧
        AvlAt rank m'.words (Below S m' m.allocationPtr) q
          (insert (rank key) (UpdateFunction.call f o data M).1 t) ∧
        (rank key ≠ k' → KeepsNew M (UpdateFunction.call f o data M).2 m') := by
  have hdescend := descendBy_order (rank key) t []
  obtain ⟨fs, k', d', hd⟩ : ∃ fs k' d', descend (rank key) t [] = (fs, k', d') := ⟨_, _, _, rfl⟩
  have hresult := avlInsert_result (rankCmp_eq_orderResult rank key) ht hS havl hcan data
  obtain ⟨r, hr⟩ : ∃ r, r = avlInsert m root key (rankCmp rank) f data := ⟨_, rfl⟩
  rw [← hr] at hresult ⊢
  rw [hd] at hdescend
  cases hresult with
  | tooLong h => exact absurd h (by unfold avlPathSize; omega)
  | failed h => exact absurd h (not_reports_order (rank key) t)
  | @stored _ _ _ pl path m₁ _ hdescend' hk hrun hgrows hcan₁ hleaf hbuilt hkept =>
    cases hdescend.symm.trans hdescend'
    rw [Avl.storeAt_order havl _ hd] at hbuilt
    obtain ⟨q, m', hq, hext, hptr, htree⟩ := hbuilt
    refine ⟨m₁, pl, k', d', by rw [hd], ⟨⟨path, hrun⟩, hgrows, hcan₁, hleaf⟩, q, m', hq, hext, hptr,
      htree, fun hne => hkept (fun heq => hne (orderResult_eq_equal.mp heq)) q m' hq⟩

/-- `avl_insert` into a tree. -/
theorem avlInsert_spec (ht : AvlAt rank m.words S root t) (hS : ∀ a, S a → m.Live a) (havl : t.Avl)
    (hheight : t.height ≤ 48) (hcan : m.canAllocate avlMaxAllocationInInsert) (key data : Nat) :
    ∃ q m', avlInsert m root key (rankCmp rank) none data = some (q, m') ∧ m.Extends m' ∧
      m.allocationPtr ≤ m'.allocationPtr + avlMaxAllocationInInsert ∧
      AvlAt rank m'.words (Below S m' m.allocationPtr) q (insert (rank key) data t) := by
  have hwords : avlInsertWords t.height + UpdateFunction.cost none ≤ avlMaxAllocationInInsert := by
    simp only [avlInsertWords, UpdateFunction.cost, Option.elim_none, avlMaxAllocationInInsert]
    omega
  obtain ⟨M, p, k', o, -, -, q, m', hrun, hext, hptr, htree, -⟩ :=
    avlInsert_updates (f := none) ht hS havl hheight (canAllocate_mono hcan hwords) key data
  exact ⟨q, m', hrun, hext, by omega, htree⟩

/-- `avl_insert` into the empty tree with any update function, which is handed
`NULL_PTR`. -/
theorem avlInsert_empty_updates (rank : Nat → κ) {f : Option UpdateFunction}
    (hcan : m.canAllocate (3 + UpdateFunction.cost f)) (hS : ∀ a, S a → m.Live a)
    (key data : Nat) :
    ∃ q m', avlInsert m nullPtr key (rankCmp rank) f data = some (q, m') ∧ m.Extends m' ∧
      m.allocationPtr ≤ m'.allocationPtr + (3 + UpdateFunction.cost f) ∧
      AvlAt rank m'.words (Below S m' m.allocationPtr) q
        (.leaf (rank key) (UpdateFunction.call f nullPtr data m).1) ∧
      KeepsNew m (UpdateFunction.call f nullPtr data m).2 m' := by
  have hcan' := hcan
  unfold Memory.canAllocate at hcan'
  obtain ⟨data', m₁, n, hcall, hn, hcalled, hcan₁⟩ := (Working.start (by omega) hS).call nullPtr
    data m.allocationPtr hcan
  have hptr₁ := hcalled.allocationPtr_eq
  obtain ⟨q, m', hnew, hwrites, htree⟩ := newAvlLeaf_spec rank hcalled.working hcan₁
    (c := m.allocationPtr) (by omega) (ptrToWord key) data'
  rw [wordToPtr_ptrToWord] at htree
  have hptr := hwrites.allocationPtr_eq
  unfold avlInsert
  rw [if_pos rfl, hcall]
  exact ⟨q, m', congrArg some hnew, hwrites.working.grows, by omega, htree,
    fun a ha ha' => hwrites.agree a ha (.inl ha')⟩

/-- `avl_insert` into the empty tree. -/
theorem avlInsert_empty (rank : Nat → κ) (hcan : m.canAllocate avlMaxAllocationInInsert)
    (hS : ∀ a, S a → m.Live a) (key data : Nat) :
    ∃ q m', avlInsert m nullPtr key (rankCmp rank) none data = some (q, m') ∧ m.Extends m' ∧
      m.allocationPtr ≤ m'.allocationPtr + avlMaxAllocationInInsert ∧
      AvlAt rank m'.words (Below S m' m.allocationPtr) q (.leaf (rank key) data) := by
  have hwords : 3 + UpdateFunction.cost none ≤ avlMaxAllocationInInsert := by decide
  obtain ⟨q, m', hrun, hext, hptr, htree, -⟩ :=
    avlInsert_empty_updates rank (f := none) (canAllocate_mono hcan hwords) hS key data
  exact ⟨q, m', hrun, hext, by omega, htree⟩

/-! ## deletion -/

/-- The words that `AVL_MAX_ALLOCATION_IN_DELETE` counts are room enough. -/
theorem avlDeleteWords_le {h : Nat} (hh : h ≤ 48) :
    avlDeleteWords h + UpdateFunction.cost none ≤ avlMaxAllocationInDelete := by
  simp only [avlDeleteWords, UpdateFunction.cost, Option.elim_none, avlMaxAllocationInDelete]
  omega

/-- `avl_delete` of a key that is not there. -/
theorem avlDelete_absent (ht : AvlAt rank m.words S root t) (hS : ∀ a, S a → m.Live a)
    (havl : t.Avl) (hord : t.Ordered) (hheight : t.height ≤ 48)
    (hcan : m.canAllocate avlMaxAllocationInDelete) (key : Nat) (hkey : ¬ ∃ d, t.Has (rank key) d)
    (data : Nat) :
    ∃ m', avlDelete m root key (rankCmp rank) none data = some (root, m') ∧ m.Extends m' ∧
      m'.allocationPtr = m.allocationPtr ∧
      AvlAt rank m'.words (Below S m' m.allocationPtr) root t := by
  have hdescend := descendBy_order (rank key) t []
  rw [hord.descend_eq (rank key) []] at hkey
  have hresult := avlDelete_result (f := none) (rankCmp_eq_orderResult rank key) ht hS havl
    (canAllocate_mono hcan (avlDeleteWords_le hheight)) data
  obtain ⟨r, hr⟩ : ∃ r, r = avlDelete m root key (rankCmp rank) none data := ⟨_, rfl⟩
  rw [← hr] at hresult ⊢
  cases hresult with
  | tooLong h => exact absurd h (by unfold avlPathSize; omega)
  | @givenUp m' h hext hptr =>
    exact ⟨m', rfl, hext, hptr, ht.frame (hext.agree.mono hS) fun a ha => .inl ha⟩
  | replaced hf => cases hf
  | deleted hf hdescend' hk =>
    obtain hd := Option.some.inj (hdescend.symm.trans hdescend')
    rw [hd] at hkey
    exact absurd (orderResult_eq_equal.mp hk) hkey

/-- `avl_delete` of a key that is there. -/
theorem avlDelete_present (ht : AvlAt rank m.words S root t) (hS : ∀ a, S a → m.Live a)
    (havl : t.Avl) (hord : t.Ordered) (hheight : t.height ≤ 48)
    (hcan : m.canAllocate avlMaxAllocationInDelete) (key : Nat) (hkey : ∃ d, t.Has (rank key) d)
    (data : Nat) :
    ∃ q m', avlDelete m root key (rankCmp rank) none data = some (q, m') ∧ m.Extends m' ∧
      m.allocationPtr ≤ m'.allocationPtr + avlMaxAllocationInDelete ∧
      AvlOrNull rank m'.words (Below S m' m.allocationPtr) q (deleteBelow (rank key) t) := by
  have hwords := avlDeleteWords_le hheight
  have hdescend := descendBy_order (rank key) t []
  rw [hord.descend_eq (rank key) []] at hkey
  have hresult := avlDelete_result (f := none) (rankCmp_eq_orderResult rank key) ht hS havl
    (canAllocate_mono hcan hwords) data
  obtain ⟨r, hr⟩ : ∃ r, r = avlDelete m root key (rankCmp rank) none data := ⟨_, rfl⟩
  rw [← hr] at hresult ⊢
  cases hresult with
  | tooLong h => exact absurd h (by unfold avlPathSize; omega)
  | givenUp h => exact absurd (orderResult_eq_equal.mpr hkey) (h _ _ _ hdescend)
  | replaced hf => cases hf
  | deleted hf hdescend' hk hbuilt =>
    obtain ⟨q, m', hq, hext, hptr, htree⟩ := hbuilt
    have hd := Option.some.inj (hdescend.symm.trans hdescend')
    unfold deleteBelow
    rw [hd]
    exact ⟨q, m', hq, hext, by simp only [UpdateFunction.cost, Option.elim_none] at hwords; omega,
      htree⟩

/-- `avl_delete` from the empty tree. -/
theorem avlDelete_empty (m : Memory) (key : Nat) (cmp : CmpFun) (data : Nat) :
    avlDelete m nullPtr key cmp none data = some (nullPtr, m) := rfl

end Shades
