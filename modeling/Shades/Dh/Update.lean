import Shades.Dh.Versions

/-!
# Shades.Dh.Update

Which data `dh_insert` stores when it is given an update function.  There are
four ways to a leaf: the key goes to an empty slot, to a leaf that has it, to a
leaf with room for it, or to a full leaf that is replaced by nodes.  Only in a
leaf with room the function is not called.

The hashes here are made by insertions with any update functions, and may be moved
by commits.
-/

namespace Shades

open DigitTree

/-- A call of `dh_insert`; the version stands for what `dh_find` gives. -/
inductive DhUpdateCall : Memory → DhVersion → Memory → DhVersion → Prop
  | insert {m m' : Memory} {v : DhVersion} {key data q x : Nat} {f : Option UpdateFunction}
      (hkey : key < 2 ^ 32) (hcan : m.canAllocate (dhWords 0 + UpdateFunction.cost f))
      (hrun : dhInsertWith m v.root key f data = some (q, m'))
      (hfind : dhFind m'.words q key = some x) :
      DhUpdateCall m v m' ⟨q, Function.update v.value key (some x)⟩

/-- The histories that start with the empty hash. -/
def DhUpdateRun (m : Memory) (h : Persistent.History Memory Nat (Nat → Option Nat)) : Prop :=
  Persistent.MovingRun Memory.Extends DhUpdateCall DhMoves m [⟨nullPtr, fun _ => none⟩] h

/-- A hash in memory, with a key below each of its nodes. -/
def DhReached (m : Memory) (v : DhVersion) : Prop :=
  ∃ t, HashAt m t v.root ∧ NoEmptyNode t ∧ lookup digit 0 t = v.value

variable {m m' : Memory} {v v' : DhVersion} {f : Option UpdateFunction} {key data x : Nat}
variable {t : Trie internalNodeSize Nat Nat}

theorem DhReached.empty (m : Memory) :
    ∀ v ∈ [(⟨nullPtr, fun _ => none⟩ : DhVersion)], DhReached m v := by
  intro v hv
  obtain rfl := List.mem_singleton.mp hv
  exact ⟨.nil, ⟨rfl, trivial⟩, trivial, rfl⟩

theorem DhReached.moved (h : DhReached m v) (hmoves : DhMoves m v m' v') : DhReached m' v' := by
  obtain ⟨t, ht, hnodes, hvalue⟩ := h
  obtain ⟨place, ht', hvalue'⟩ := hmoves.hashAt ht hvalue
  exact ⟨_, ht', hnodes.map, hvalue'⟩

/-- What is added to the memory does not change a version, and a call makes a
version with the key. -/
theorem dhUpdate_preserved : Persistent.Preserved Memory.Extends DhUpdateCall DhReached where
  frame := by
    rintro m m' v hext ⟨t, ht, hvalue⟩
    exact ⟨t, ht.frame hext, hvalue⟩
  call := by
    intro m m' v v' hcall h
    cases hcall with
    | insert hkey hcan hrun hfind =>
      obtain ⟨t, ht, hnodes, hvalue⟩ := h
      obtain ⟨q, m'', M, x, hrun', hext, -, -, -, -, hresult⟩ :=
        dhInsertWith_spec ht hkey _ hcan
      rw [hrun] at hrun'
      obtain ⟨rfl, rfl⟩ := Prod.mk.inj (Option.some.inj hrun')
      refine ⟨hext, ?_⟩
      rcases hresult with ⟨hlookup, ht', -⟩ | ⟨-, ht', hinserted, -⟩
      · rw [dhFind_spec ht', hlookup] at hfind
        obtain rfl := Option.some.inj hfind
        refine ⟨t, ht', hnodes, ?_⟩
        rw [← hvalue]
        exact (Function.update_eq_self_iff.mpr hlookup.symm).symm
      · rw [dhFind_spec ht', hinserted.lookup_eq, Function.update_self] at hfind
        obtain rfl := Option.some.inj hfind
        exact ⟨_, ht', hnodes.insertAt, by rw [hinserted.lookup_eq, hvalue]; rfl⟩

theorem DhUpdateRun.reached {h : Persistent.History Memory Nat (Nat → Option Nat)}
    (hrun : DhUpdateRun m h) : ∀ v ∈ h.versions, DhReached h.store v :=
  dhUpdate_preserved.movingRun (fun hmoves h => h.moved hmoves) hrun (DhReached.empty m)

/-! ## what is stored -/

/-- Keys with the same three digits. -/
def closeEntries (n : Nat) : List (Nat × Nat) := (List.range n).map fun i => (i * 2 ^ 21, 7)

/-- The leaf of the first `n` of these keys. -/
def closeLeaf (n : Nat) : Trie internalNodeSize Nat Nat := leafOf (closeEntries n)

theorem mem_closeEntries {n : Nat} :
    key ∈ (closeEntries n).map Prod.fst ↔ ∃ i < n, i * 2 ^ 21 = key := by
  simp [closeEntries]

/-- One more of the keys is inserted. -/
theorem insertAt_closeLeaf {n : Nat} (hn : n < maxKeysInLeaf) :
    insertAt digit maxKeysInLeaf dhDepth (n * 2 ^ 21) 7 0 (closeLeaf n) = closeLeaf (n + 1) ∧
      lookup digit 0 (closeLeaf n) (n * 2 ^ 21) = none := by
  have hnot : n * 2 ^ 21 ∉ (closeEntries n).map Prod.fst := by
    rw [mem_closeEntries]
    rintro ⟨i, hi, heq⟩
    omega
  have hlen : (closeEntries n).length = n := by simp [closeEntries]
  have hsnoc : closeEntries (n + 1) = closeEntries n ++ [(n * 2 ^ 21, 7)] := by
    simp [closeEntries, List.range_succ]
  refine ⟨?_, ?_⟩
  · unfold closeLeaf
    rw [hsnoc]
    cases hes : closeEntries n with
    | nil => rfl
    | cons e es =>
      rw [hes] at hnot hlen
      have hleaf : (leafOf (e :: es) : Trie internalNodeSize Nat Nat) = .leaf (e :: es) := rfl
      rw [hleaf, insertAt, if_neg hnot, if_pos (by omega)]
      rfl
  · rw [closeLeaf, lookup_leafOf]
    exact lookup_eq_none.mpr hnot

/-- The leaf is reached by insertions. -/
theorem exists_closeLeaf (n : Nat) (hn : n ≤ maxKeysInLeaf) :
    ∃ h v, v ∈ Persistent.History.versions h ∧ DhUpdateRun (roomyMemory []) h ∧
      HashAt h.store (closeLeaf n) v.root ∧ lookup digit 0 (closeLeaf n) = v.value ∧
      h.store.firstGenerationEnd = 100 ∧ 5000 ≤ h.store.allocationPtr + 140 * n := by
  induction n with
  | zero =>
    exact ⟨_, ⟨nullPtr, fun _ => none⟩, List.mem_cons_self, .refl, ⟨rfl, trivial⟩, rfl, rfl,
      Nat.le_refl _⟩
  | succ n ih =>
    obtain ⟨h, v, hv, hrun, ht, hvalue, hend, hptr⟩ := ih (Nat.le_of_succ_le hn)
    have hmax : maxKeysInLeaf = 32 := rfl
    obtain ⟨htree, hnone⟩ := insertAt_closeLeaf hn
    have hkey : n * 2 ^ 21 < 2 ^ 32 := by omega
    have hwords : dhWords 0 + UpdateFunction.cost none = 140 := rfl
    have hcan : h.store.canAllocate (dhWords 0 + UpdateFunction.cost none) := by
      unfold Memory.canAllocate
      omega
    obtain ⟨q, m', M, x, hins, hext, -, hx, -, hle, hresult⟩ := dhInsertWith_spec ht hkey 7 hcan
    obtain rfl : x = (7, M) := by
      rw [← hx, dhStored]
      split <;> rfl
    rcases hresult with ⟨hlookup, -⟩ | ⟨-, ht', hinserted, -⟩
    · rw [hnone] at hlookup
      cases hlookup
    · rw [htree] at ht' hinserted
      have hfind : dhFind m'.words q (n * 2 ^ 21) = some 7 := by
        rw [dhFind_spec ht', hinserted.lookup_eq, Function.update_self]
        rfl
      refine ⟨_, _, List.mem_cons_self,
        hrun.tail (.step (.call hv (.insert hkey hcan hins hfind))), ht', ?_,
        hext.firstGenerationEnd_eq.trans hend, ?_⟩
      · rw [hinserted.lookup_eq, hvalue]
      · dsimp only
        omega

end Shades
