import Shades.Persistent
import Shades.Dh.Operations

/-!
# Shades.Dh.Versions

A dynamic hash is never changed in place: `dh_insert` makes a new version, and
any version may be used again.  A version stands for a finite map.  A commit puts
the versions that are kept into pages, and later insertions start from there.

The callers of `dh_insert` promise that `DH_MAX_ALLOCATION` words are free, which
may be less than a call takes.  `dhWords 0` words are enough for every call, and
the calls here find so many.
-/

namespace Shades

open DigitTree

/-- A dynamic hash and the data of the keys. -/
abbrev DhVersion := Persistent.Version Nat (Nat → Option Nat)

/-- A call of `dh_insert` without an update function. -/
inductive DhCall : Memory → DhVersion → Memory → DhVersion → Prop
  | insert {m m' : Memory} {v : DhVersion} {key data q : Nat} (hkey : key < 2 ^ 32)
      (hcan : m.canAllocate (dhWords 0)) (hrun : dhInsert m v.root key data = some (q, m')) :
      DhCall m v m' ⟨q, Function.update v.value key (some data)⟩

/-- A commit: the cells that can be reached are moved, and so are the data. -/
def DhMoves (m : Memory) (v : DhVersion) (m' : Memory) (v' : DhVersion) : Prop :=
  ∃ place roots, Moved place roots m.words m'.words m'.Live ∧ roots .ptr (ptrToWord v.root) ∧
    v' = ⟨movedTo place v.root, fun key => (v.value key).map (movedTo place)⟩

/-- The histories that start with the empty hash. -/
def DhRun (m : Memory) (h : Persistent.History Memory Nat (Nat → Option Nat)) : Prop :=
  Persistent.MovingRun Memory.Extends DhCall DhMoves m [⟨nullPtr, fun _ => none⟩] h

/-- A hash in memory: each key is in the leaf that its bits select, and the tree
has the data of the keys. -/
def DhHolds (m : Memory) (v : DhVersion) : Prop :=
  ∃ t, HashAt m t v.root ∧ lookup digit 0 t = v.value

variable {m m' : Memory} {v v' : DhVersion} {t : Trie internalNodeSize Nat Nat} {key data : Nat}

/-- The empty hash. -/
theorem DhHolds.empty (m : Memory) :
    ∀ v ∈ [(⟨nullPtr, fun _ => none⟩ : DhVersion)], DhHolds m v := by
  intro v hv
  obtain rfl := List.mem_singleton.mp hv
  exact ⟨.nil, ⟨rfl, trivial⟩, rfl⟩

/-- `dh_insert` on a version. -/
theorem DhHolds.insert (h : DhHolds m v) (hkey : key < 2 ^ 32) (hcan : m.canAllocate (dhWords 0))
    (data : Nat) :
    ∃ q m', dhInsert m v.root key data = some (q, m') ∧ m.Extends m' ∧
      m.allocationPtr ≤ m'.allocationPtr + dhWords 0 ∧
      DhHolds m' ⟨q, Function.update v.value key (some data)⟩ := by
  obtain ⟨t, ht, hvalue⟩ := h
  obtain ⟨q, m', M, x, hrun, hext, -, hx, -, hptr, hresult⟩ :=
    dhInsertWith_spec (f := none) ht hkey data hcan
  rw [dhInsertWith_none] at hrun
  have hstored : x.1 = data := by
    rw [← hx, dhStored]
    split <;> rfl
  rw [hstored] at hresult
  refine ⟨q, m', hrun, hext, hptr, ?_⟩
  rcases hresult with ⟨hlookup, ht', -⟩ | ⟨-, ht', hinserted, -⟩
  · refine ⟨t, ht', ?_⟩
    rw [← hvalue, ← hlookup, Function.update_eq_self]
  · exact ⟨_, ht', by rw [hinserted.lookup_eq, hvalue]⟩

/-- A commit keeps the tree of a version, with its data moved. -/
theorem DhMoves.hashAt (h : DhMoves m v m' v') (ht : HashAt m t v.root)
    (hvalue : lookup digit 0 t = v.value) :
    ∃ place, HashAt m' (t.map (movedTo place)) v'.root ∧
      lookup digit 0 (t.map (movedTo place)) = v'.value := by
  obtain ⟨place, roots, hmoved, hroot, rfl⟩ := h
  refine ⟨place, ⟨ht.1.moved hmoved (.root hroot), ht.2.map⟩, ?_⟩
  funext key
  rw [lookup_map, hvalue]

theorem DhHolds.moved (h : DhHolds m v) (hmoves : DhMoves m v m' v') : DhHolds m' v' := by
  obtain ⟨t, ht, hvalue⟩ := h
  obtain ⟨place, ht', hvalue'⟩ := hmoves.hashAt ht hvalue
  exact ⟨_, ht', hvalue'⟩

/-- What is added to the memory does not change a version, and a call makes a
version with the key. -/
theorem dh_preserved : Persistent.Preserved Memory.Extends DhCall DhHolds where
  frame := by
    rintro m m' v hext ⟨t, ht, hvalue⟩
    exact ⟨t, ht.frame hext, hvalue⟩
  call := by
    intro m m' v v' hcall h
    cases hcall with
    | insert hkey hcan hrun =>
      obtain ⟨q, m'', hrun', hext, -, hholds⟩ := h.insert hkey hcan _
      rw [hrun] at hrun'
      obtain ⟨rfl, rfl⟩ := Prod.mk.inj (Option.some.inj hrun')
      exact ⟨hext, hholds⟩

/-- In every history of insertions in any versions of a hash and of commits,
`dh_find` gives the data of each key, or `NULL_PTR` for a key that was not
inserted; each key is in the leaf that its bits select, and no leaf has too many
keys or a key twice; and `dh_insert` returns. -/
theorem dh_histories {h : Persistent.History Memory Nat (Nat → Option Nat)} (hrun : DhRun m h) :
    ∀ v ∈ h.versions,
      (∃ t, HashAt h.store t v.root ∧ lookup digit 0 t = v.value) ∧
      (∀ key, dhFind h.store.words v.root key = some ((v.value key).getD nullPtr)) ∧
      ∀ key data, key < 2 ^ 32 → h.store.canAllocate (dhWords 0) →
        ∃ q m', dhInsert h.store v.root key data = some (q, m') ∧ h.store.Extends m' ∧
          DhHolds m' ⟨q, Function.update v.value key (some data)⟩ := by
  intro v hv
  have hholds : DhHolds h.store v :=
    dh_preserved.movingRun (fun hmoves h => h.moved hmoves) hrun (DhHolds.empty m) v hv
  have htree := hholds
  obtain ⟨t, ht, hvalue⟩ := htree
  refine ⟨⟨t, ht, hvalue⟩, fun key => ?_, fun key data hkey hcan => ?_⟩
  · rw [dhFind_spec ht, hvalue]
  · obtain ⟨q, m', hcall, hext, -, hnew⟩ := hholds.insert hkey hcan data
    exact ⟨q, m', hcall, hext, hnew⟩

/-- The first `n` of some keys, with their numbers. -/
def spreadKeys (n : Nat) (key : Nat) : Option Nat :=
  if key % 2 ^ 26 = 0 ∧ key / 2 ^ 26 < n then some (key / 2 ^ 26 + 1) else none

/-- They are inserted one after another. -/
theorem exists_spreadKeys (n : Nat) (hn : n ≤ 33) :
    ∃ h v, v ∈ Persistent.History.versions h ∧ DhRun (roomyMemory []) h ∧ DhHolds h.store v ∧
      v.value = spreadKeys n ∧ h.store.firstGenerationEnd = 100 ∧
      5000 ≤ h.store.allocationPtr + 140 * n := by
  induction n with
  | zero =>
    refine ⟨_, _, List.mem_cons_self, .refl, DhHolds.empty _ _ List.mem_cons_self, ?_, rfl,
      Nat.le_refl _⟩
    funext key
    simp [spreadKeys]
  | succ n ih =>
    obtain ⟨h, v, hv, hrun, hholds, hvalue, hend, hptr⟩ := ih (Nat.le_of_succ_le hn)
    have hwords : dhWords 0 = 140 := rfl
    have hcan : h.store.canAllocate (dhWords 0) := by
      unfold Memory.canAllocate
      omega
    have hkey : n * 2 ^ 26 < 2 ^ 32 := by omega
    obtain ⟨q, m', hinsert, hext, hle, hholds'⟩ := hholds.insert hkey hcan (n + 1)
    refine ⟨_, _, List.mem_cons_self, hrun.tail (.step (.call hv (.insert hkey hcan hinsert))),
      hholds', ?_, hext.firstGenerationEnd_eq.trans hend, ?_⟩
    · rw [hvalue]
      funext key
      dsimp only
      by_cases heq : key = n * 2 ^ 26
      · subst heq
        rw [Function.update_self, spreadKeys, if_pos (by omega)]
        simp
      · rw [Function.update_of_ne heq]
        unfold spreadKeys
        have hiff : (key % 2 ^ 26 = 0 ∧ key / 2 ^ 26 < n) ↔
            (key % 2 ^ 26 = 0 ∧ key / 2 ^ 26 < n + 1) := by omega
        simp only [hiff]
    · dsimp only
      omega

/-- 33 keys are inserted, so the first leaf is split; they are found again. -/
theorem dh_histories_split : ∃ h v, v ∈ Persistent.History.versions h ∧
    DhRun (roomyMemory []) h ∧
    (∀ i < 33, dhFind h.store.words v.root (i * 2 ^ 26) = some (i + 1)) ∧
    dhFind h.store.words v.root 1 = some nullPtr ∧
    ∃ sons, HashAt h.store (.node sons) v.root := by
  obtain ⟨h, v, hv, hrun, -, hvalue, -⟩ := exists_spreadKeys 33 (Nat.le_refl _)
  obtain ⟨⟨t, ht, hlookup⟩, hfind, -⟩ := dh_histories hrun v hv
  refine ⟨h, v, hv, hrun, fun i hi => ?_, ?_, ?_⟩
  · rw [hfind, hvalue, spreadKeys, if_pos (by omega)]
    simp
  · rw [hfind, hvalue]
    rfl
  -- a leaf has room for 32 keys only
  · have hkeys : ∀ i < 33, lookup digit 0 t (i * 2 ^ 26) ≠ none := by
      intro i hi
      rw [hlookup, hvalue, spreadKeys, if_pos (by omega)]
      simp
    cases t with
    | nil => exact absurd rfl (hkeys 0 (by decide))
    | node sons => exact ⟨sons, ht⟩
    | leaf entries =>
      have hleaf : LeafAt digit maxKeysInLeaf noDigits 0 entries := ht.2
      have hsub : (List.range 33).map (· * 2 ^ 26) ⊆ entries.map Prod.fst := by
        intro key hkey
        obtain ⟨i, hi, rfl⟩ := List.mem_map.mp hkey
        exact not_not.mp (mt lookup_eq_none.mpr (hkeys i (List.mem_range.mp hi)))
      have hnodup : ((List.range 33).map (· * 2 ^ 26)).Nodup :=
        List.nodup_range.map fun i j hij => by simpa using hij
      have hle := (List.subperm_of_subset hnodup hsub).length_le
      have hroom : entries.length ≤ 32 := hleaf.length_le
      rw [List.length_map, List.length_map, List.length_range] at hle
      omega

end Shades
