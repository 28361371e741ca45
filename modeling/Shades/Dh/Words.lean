import Shades.Dh.Update

/-!
# Shades.Dh.Words

The words that a call of `dh_insert` takes.  It copies the nodes on its way, each
of five words, and at the end it makes a leaf, or the nodes and leaves for a full
leaf.  The leaves have up to 32 keys, which `DH_MAX_ALLOCATION` does not count.
-/

namespace Shades

open DigitTree Dh

variable {m : Memory} {key data level n j : Nat} {path : Nat → Fin internalNodeSize}
variable {entries : List (Nat × Nat)} {keys : List Nat} {t : Trie internalNodeSize Nat Nat}

/-! ## a full leaf -/

/-- `key` and the keys of a full leaf differ in the digit `j` and in no digit before
it from `level` on. -/
structure SplitsAt (key : Nat) (keys : List Nat) (level j : Nat) : Prop where
  level_le : level ≤ j
  same : ∀ i, level ≤ i → i < j → ∀ k ∈ keys, digit i k = digit i key
  differ : ∃ k ∈ keys, digit j k ≠ digit j key

/-- One node for each level with the same digits, one for the digit that differs,
and the leaves. -/
theorem SplitsAt.words (h : SplitsAt key keys level j) (hn : j ≤ level + n) :
    dhSplitWords key keys n level = (internalNodeSize + 1) * (j + 1 - level) +
      (2 * (keys.length + 1) + usedSons (offset * j) (key :: keys)) := by
  have hleaves : ∀ l, leafWords (offset * l) (key :: keys) internalNodeSize 0 =
      2 * (keys.length + 1) + usedSons (offset * l) (key :: keys) := fun l =>
    leafWords_eq _ _
  have hsize : internalNodeSize + 1 = 5 := rfl
  induction n generalizing level with
  | zero =>
    obtain rfl : level = j := Nat.le_antisymm h.level_le hn
    rw [dhSplitWords, hleaves, Nat.add_sub_cancel_left, Nat.mul_one]
  | succ n ih =>
    rw [dhSplitWords]
    rcases Nat.eq_or_lt_of_le h.level_le with rfl | hlt
    · have hnot : ¬ ∀ k ∈ keys, digit level k = digit level key := fun hall => by
        obtain ⟨k, hk, hne⟩ := h.differ
        exact hne (hall k hk)
      rw [if_neg hnot, hleaves, Nat.add_sub_cancel_left, Nat.mul_one]
    · have hnext : SplitsAt key keys (level + 1) j :=
        ⟨hlt, fun i hi hij => h.same i (Nat.le_of_succ_le hi) hij, h.differ⟩
      rw [if_pos (h.same level (Nat.le_refl level) hlt), ih hnext (by omega), hsize]
      omega

/-- The digits of the keys of a full leaf and one more key differ. -/
theorem exists_splitsAt (hleaf : LeafAt digit maxKeysInLeaf path level entries)
    (hfull : entries.length = maxKeysInLeaf) (hkeys : ∀ e ∈ entries, e.1 < 2 ^ 32)
    (hkey : key < 2 ^ 32) (hpath : ∀ j < level, digit j key = path j)
    (hnot : key ∉ entries.map Prod.fst) :
    ∃ j, SplitsAt key (entries.map Prod.fst) level j ∧ j < dhDepth := by
  have hex : ∃ j, j < dhDepth ∧ ∃ k ∈ entries.map Prod.fst, digit j k ≠ digit j key := by
    by_contra hno
    push Not at hno
    have hdeep : LeafAt digit maxKeysInLeaf (fun j => digit j key) dhDepth entries :=
      ⟨hleaf.nonempty, hleaf.length_le, hleaf.nodup, fun e he j hj =>
        hno j hj e.1 (List.mem_map_of_mem he)⟩
    exact absurd (level_lt hdeep hfull hkeys hkey (fun _ _ => rfl) hnot) (lt_irrefl _)
  have hmin : ∀ i < Nat.find hex, ¬ _ := fun i hi => Nat.find_min hex hi
  obtain ⟨hlt, hdiffer⟩ := Nat.find_spec hex
  have hle : level ≤ Nat.find hex := by
    by_contra hlt'
    obtain ⟨k, hk, hne⟩ := hdiffer
    obtain ⟨e, he, rfl⟩ := List.mem_map.mp hk
    rw [hleaf.digits e he _ (not_le.mp hlt'), hpath _ (not_le.mp hlt')] at hne
    exact hne rfl
  refine ⟨Nat.find hex, ⟨hle, fun i _ hi k hk => ?_, hdiffer⟩, hlt⟩
  by_contra hne
  exact hmin i hi ⟨Nat.lt_trans hi hlt, k, hk, hne⟩

theorem SplitsAt.unique {j' : Nat} (h : SplitsAt key keys level j)
    (h' : SplitsAt key keys level j') : j = j' := by
  rcases lt_trichotomy j j' with hlt | heq | hgt
  · obtain ⟨k, hk, hne⟩ := h.differ
    exact absurd (h'.same j h.level_le hlt k hk) hne
  · exact heq
  · obtain ⟨k, hk, hne⟩ := h'.differ
    exact absurd (h.same j' h'.level_le hgt k hk) hne

/-! ## the words of a call -/

/-- The words of an insertion are not more than `DH_MAX_ALLOCATION`: the leaf is
not too far down for the number of its keys, or the keys of a full leaf differ in
one of the first three digits, or in the fourth one with three leaves at most. -/
def DhFits (key data : Nat) : Nat → Trie internalNodeSize Nat Nat → Prop
  | _, .nil => True
  | level, .leaf entries =>
    entries.lookup key = some data ∨
    (key ∈ entries.map Prod.fst ∧ 5 * level + 2 * entries.length ≤ 88) ∨
    (key ∉ entries.map Prod.fst ∧ entries.length < maxKeysInLeaf ∧
      5 * level + 2 * entries.length ≤ 86) ∨
    (key ∉ entries.map Prod.fst ∧ ¬ entries.length < maxKeysInLeaf ∧
      ∃ j, SplitsAt key (entries.map Prod.fst) level j ∧
        (j ≤ 2 ∨ (j = 3 ∧ usedSons (offset * 3) (key :: entries.map Prod.fst) ≤ 3)))
  | level, .node sons => DhFits key data (level + 1) (sons (digit level key))

/-- An insertion that changes nothing takes no words. -/
theorem dhFits_of_lookup (h : lookup digit level t key = some data) : DhFits key data level t := by
  induction t generalizing level with
  | nil => trivial
  | leaf entries => exact .inl h
  | node sons ih => exact ih _ h

theorem dhFits_iff (ht : Valid digit maxKeysInLeaf dhDepth path level t) (hlevel : level ≤ dhDepth)
    (hkeys : AllKeys (· < 2 ^ 32) t) (hkey : key < 2 ^ 32)
    (hpath : ∀ j < level, digit j key = path j) (hnew : lookup digit level t key ≠ some data) :
    5 * level + dhInsertWords key level t ≤ dhMaxAllocation ↔
      DhFits key data level t := by
  have hmax : dhMaxAllocation = 89 := rfl
  have hsize : internalNodeSize + 1 = 5 := rfl
  have hdepth : dhDepth = 14 := rfl
  induction t generalizing level path with
  | nil =>
    have hwords : dhInsertWords key level .nil = 3 := rfl
    exact ⟨fun _ => trivial, fun _ => by omega⟩
  | node sons ih =>
    obtain ⟨hnode, hvalid⟩ := ht
    rw [dhInsertWords, hsize, ← Nat.add_assoc]
    exact ih _ (hvalid _) hnode (hkeys _) (digits_update hpath rfl) hnew
  | leaf entries =>
    have hleaf : LeafAt digit maxKeysInLeaf path level entries := ht
    have hne : ¬ entries.lookup key = some data := hnew
    rw [DhFits, dhInsertWords]
    by_cases hmem : key ∈ entries.map Prod.fst
    · rw [if_pos hmem]
      simp only [hne, hmem, true_and, not_true_eq_false, false_and, or_false, false_or]
      omega
    rw [if_neg hmem]
    by_cases hlt : entries.length < maxKeysInLeaf
    · rw [if_pos hlt]
      simp only [hne, hmem, hlt, true_and, not_true_eq_false, not_false_eq_true, false_and,
        or_false, false_or]
      omega
    · have hfull : entries.length = maxKeysInLeaf :=
        Nat.le_antisymm hleaf.length_le (not_lt.mp hlt)
      obtain ⟨j, hj, hjd⟩ := exists_splitsAt hleaf hfull hkeys hkey hpath hmem
      have hwords := hj.words (n := dhDepth - level) (by omega)
      have hused := usedSons_le (offset * j) (key :: entries.map Prod.fst)
      have hle := hj.level_le
      have h32 : maxKeysInLeaf = 32 := rfl
      have h4 : internalNodeSize = 4 := rfl
      rw [List.length_map, hfull, hsize] at hwords
      rw [if_neg hlt, hwords]
      simp only [hne, hmem, hlt, not_false_eq_true, true_and, false_and, false_or]
      constructor
      · intro h
        refine ⟨j, hj, ?_⟩
        by_cases hthree : j = 3
        · subst hthree
          exact .inr ⟨rfl, by omega⟩
        · exact .inl (by omega)
      · rintro ⟨j', hj', hbound⟩
        obtain rfl := hj.unique hj'
        rcases hbound with hbound | ⟨rfl, hbound⟩
        · omega
        · omega

/-- In every history of insertions with update functions, the words of the cells
that a call of `dh_insert` makes are not more than `DH_MAX_ALLOCATION` exactly
when the insertion fits.  The words that the update function takes are not
counted. -/
theorem dh_insert_words {h : Persistent.History Memory Nat (Nat → Option Nat)}
    (hrun : DhUpdateRun m h) :
    ∀ v ∈ h.versions, ∃ t, HashAt h.store t v.root ∧ lookup digit 0 t = v.value ∧
      ∀ key f data, key < 2 ^ 32 →
        h.store.canAllocate (dhWords 0 + UpdateFunction.cost f) →
          ∃ q m' M x, dhInsertWith h.store v.root key f data = some (q, m') ∧
            h.store.Extends M ∧ dhStored f 0 t key data M = x ∧ M.Extends x.2 ∧
            (h.store.allocationPtr ≤ m'.allocationPtr + dhMaxAllocation +
              (M.allocationPtr - x.2.allocationPtr) ↔ DhFits key x.1 0 t) := by
  intro v hv
  obtain ⟨t, ht, -, hvalue⟩ := hrun.reached v hv
  refine ⟨t, ht, hvalue, fun key f data hkey hcan => ?_⟩
  obtain ⟨q, m', M, x, hins, -, hM, hx, hext, -, hresult⟩ := dhInsertWith_spec ht hkey data hcan
  refine ⟨q, m', M, x, hins, hM, hx, hext, ?_⟩
  have hle := hext.allocationPtr_le
  rcases hresult with ⟨hlookup, -, hptr⟩ | ⟨hne, -, -, hptr⟩
  · exact ⟨fun _ => dhFits_of_lookup hlookup, fun _ => by omega⟩
  · rw [← dhFits_iff ht.2 (Nat.zero_le _) ht.1.allKeys hkey (fun j hj => by omega) hne]
    omega

/-- A full leaf is reached. -/
theorem exists_fullLeaf : ∃ h v, v ∈ Persistent.History.versions h ∧
    DhUpdateRun (roomyMemory []) h ∧ HashAt h.store (closeLeaf 32) v.root ∧
    h.store.canAllocate (dhWords 0 + UpdateFunction.cost none) := by
  obtain ⟨h, v, hv, hrun, ht, -, hend, hptr⟩ := exists_closeLeaf 32 (Nat.le_refl _)
  have hwords : dhWords 0 + UpdateFunction.cost none = 140 := rfl
  refine ⟨h, v, hv, hrun, ht, ?_⟩
  unfold Memory.canAllocate
  omega

/-- A key that differs from those of a full leaf in the first digit fits. -/
theorem dh_insert_words_split : ∃ h v, v ∈ Persistent.History.versions h ∧
    DhUpdateRun (roomyMemory []) h ∧ ∃ q m',
      dhInsertWith h.store v.root (3 * 2 ^ 30) none 7 = some (q, m') ∧
      h.store.allocationPtr ≤ m'.allocationPtr + dhMaxAllocation := by
  obtain ⟨h, v, hv, hrun, ht, hcan⟩ := exists_fullLeaf
  obtain ⟨t, ht', -, hwords⟩ := dh_insert_words hrun v hv
  obtain rfl : closeLeaf 32 = t := ht.1.unique ht'.1
  obtain ⟨q, m', M, x, hins, -, hx, -, hiff⟩ := hwords (3 * 2 ^ 30) none 7 (by decide) hcan
  obtain rfl : x = (7, M) := by
    rw [← hx, dhStored]
    split <;> rfl
  have hnot : 3 * 2 ^ 30 ∉ (closeEntries 32).map Prod.fst := by
    rw [mem_closeEntries]
    rintro ⟨i, hi, heq⟩
    omega
  have hsplit : SplitsAt (3 * 2 ^ 30) ((closeEntries 32).map Prod.fst) 0 0 :=
    ⟨Nat.le_refl 0, fun i _ hi => by omega, 0, mem_closeEntries.mpr ⟨0, by decide, rfl⟩,
      by decide⟩
  have hfits := hiff.mpr (.inr (.inr (.inr ⟨hnot, by decide, 0, hsplit, .inl (by decide)⟩)))
  exact ⟨h, v, hv, hrun, q, m', hins, by simpa using hfits⟩

/-- 33 keys that differ in the fourth digit take 90 words. -/
theorem dhInsert_overflow : ∃ h v, v ∈ Persistent.History.versions h ∧
    DhUpdateRun (roomyMemory []) h ∧ h.store.canAllocate dhMaxAllocation ∧
    ∃ q m', dhInsertWith h.store v.root 1 none 7 = some (q, m') ∧
      m'.allocationPtr + dhMaxAllocation < h.store.allocationPtr := by
  obtain ⟨h, v, hv, hrun, ht, hcan⟩ := exists_fullLeaf
  obtain ⟨q, m', M, x, hins, -, -, hx, -, -, hresult⟩ :=
    dhInsertWith_spec ht (by decide : 1 < 2 ^ 32) 7 hcan
  obtain rfl : x = (7, M) := by
    rw [← hx, dhStored]
    split <;> rfl
  have hnone : lookup digit 0 (closeLeaf 32) 1 = none := rfl
  have hwords : dhInsertWords 1 0 (closeLeaf 32) = 90 := rfl
  rcases hresult with ⟨hlookup, -⟩ | ⟨-, -, -, hptr'⟩
  · rw [hnone] at hlookup
    cases hlookup
  · have hmax : dhMaxAllocation = 89 := rfl
    dsimp only at hptr'
    exact ⟨h, v, hv, hrun, Memory.canAllocate_mono hcan (by decide), q, m', hins, by omega⟩

end Shades
