import Mathlib.Data.Finset.Card
import Mathlib.Data.List.Nodup
import Shades.Avl.Operations
import Shades.Persistent

/-!
# Shades.Avl.Versions

Histories of insertions and deletions that start with the empty tree.  A
version stands for a finite map from keys to data.

A deletion that rotates at the root loses a part of the tree, since
`avl_delete` then returns the old root.  All other calls update the map, and
the trees are ordered AVL trees.  The paths are long enough as addresses have
30 bits: the leaves of a tree have different addresses.
-/

namespace Shades

open Memory AvlTree

variable {κ : Type} [LinearOrder κ] {rank : Nat → κ}

/-! ## the height of a tree in memory -/

section height

variable {words : Nat → Nat} {S : Nat → Prop} {p : Nat} {t : AvlTree κ Nat}

/-- The leaves of an ordered tree are different cells. -/
theorem AvlAt.exists_leaves (ht : AvlAt rank words S p t) (hord : t.Ordered) :
    ∃ leaves : List Nat, leaves.length = t.size ∧ leaves.Nodup ∧
      ∀ a ∈ leaves, S a ∧ ∃ d, t.Has (rank (wordToPtr (words (a + 1)))) d := by
  induction ht with
  | @leaf p key d hleaf hS =>
    refine ⟨[p], rfl, List.nodup_singleton p, fun a ha => ?_⟩
    obtain rfl := List.mem_singleton.mp ha
    exact ⟨hS 0 (by decide), d, by rw [hleaf.key], rfl⟩
  | @node p h key pl pr l r hnode hS hl hr ihl ihr =>
    obtain ⟨hleft, hright, hordl, hordr⟩ := hord
    obtain ⟨ls, hlenl, hnodupl, hls⟩ := ihl hordl
    obtain ⟨rs, hlenr, hnodupr, hrs⟩ := ihr hordr
    refine ⟨ls ++ rs, by rw [List.length_append, hlenl, hlenr, size], ?_, fun a ha => ?_⟩
    · refine hnodupl.append hnodupr fun a hal har => ?_
      obtain ⟨-, d, hd⟩ := hls a hal
      obtain ⟨-, d', hd'⟩ := hrs a har
      exact absurd (hleft _ _ hd) (not_le.mpr (hright _ _ hd'))
    · rcases List.mem_append.mp ha with ha | ha
      · obtain ⟨hSa, d, hd⟩ := hls a ha
        exact ⟨hSa, d, .inl hd⟩
      · obtain ⟨hSa, d, hd⟩ := hrs a ha
        exact ⟨hSa, d, .inr hd⟩

/-- A tree in a memory of `2 ^ 30` words is low enough for the paths. -/
theorem AvlAt.height_le (ht : AvlAt rank words S p t) (havl : t.Avl) (hord : t.Ordered)
    (hS : ∀ a, S a → a < 2 ^ 30) : t.height ≤ 42 := by
  obtain ⟨leaves, hlen, hnodup, hleaves⟩ := ht.exists_leaves hord
  have hcard : leaves.length ≤ 2 ^ 30 := by
    rw [← List.toFinset_card_of_nodup hnodup, ← Finset.card_range (2 ^ 30)]
    refine Finset.card_le_card fun a ha => ?_
    rw [Finset.mem_range]
    exact hS a (hleaves a (List.mem_toFinset.mp ha)).1
  by_contra hgt
  have hfib := havl.fib_le_size
  have hmono := Nat.fib_mono (show 45 ≤ t.height + 2 by omega)
  have h45 : Nat.fib 45 = 1134903170 := by decide
  omega

end height

/-! ## versions -/

/-- The root of a tree and the map that it stands for. -/
abbrev AvlVersion (κ : Type) := Persistent.Version Nat (κ → Option Nat)

/-- A call of `avl_insert` or of `avl_delete`, the latter under a condition on
the memory, the root and the key. -/
inductive AvlCall (rank : Nat → κ) (Condition : Memory → Nat → Nat → Prop) :
    Memory → AvlVersion κ → Memory → AvlVersion κ → Prop
  | insert {m m' : Memory} {v : AvlVersion κ} {key data q : Nat}
      (hcan : m.canAllocate avlMaxAllocationInInsert)
      (hrun : avlInsert m v.root key (rankCmp rank) none data = some (q, m')) :
      AvlCall rank Condition m v m' ⟨q, Function.update v.value (rank key) (some data)⟩
  | delete {m m' : Memory} {v : AvlVersion κ} {key data q : Nat}
      (hcan : m.canAllocate avlMaxAllocationInDelete) (hcond : Condition m v.root key)
      (hrun : avlDelete m v.root key (rankCmp rank) none data = some (q, m')) :
      AvlCall rank Condition m v m' ⟨q, Function.update v.value (rank key) none⟩

/-- The histories that start with the empty tree. -/
def AvlRun (rank : Nat → κ) (Condition : Memory → Nat → Nat → Prop) (m : Memory)
    (h : Persistent.History Memory Nat (κ → Option Nat)) : Prop :=
  Persistent.Run Memory.Extends (AvlCall rank Condition) m [⟨nullPtr, fun _ => none⟩] h

/-- The deletion of a key rotates at the root: the key is in the tree, the
subtree that it is in is lower than the other one, and it gets lower. -/
def RotatesAtRoot (rank : Nat → κ) (m : Memory) (root key : Nat) : Prop :=
  ∃ t, AvlAt rank m.words m.Live root t ∧ RootRotates (rank key) t

/-- The region of a tree: pointers are byte offsets in words of 32 bits. -/
def Addressable (m : Memory) (a : Nat) : Prop := m.Live a ∧ a < 2 ^ 30

/-- A version is the empty tree, or an ordered AVL tree with the items of the
map. -/
structure AvlHolds (rank : Nat → κ) (m : Memory) (v : AvlVersion κ) : Prop where
  addressable : m.allocationPtr ≤ 2 ^ 30
  tree : (v.root = nullPtr ∧ v.value = fun _ => none) ∨
    ∃ t, AvlAt rank m.words (Addressable m) v.root t ∧ t.Avl ∧ t.Ordered ∧
      v.value = fun k => find k t

section calls

variable {m m' : Memory} {v : AvlVersion κ}

/-- The region of a tree that an operation has made. -/
theorem below_addressable (hext : m.Extends m') (haddr : m.allocationPtr ≤ 2 ^ 30) {a : Nat}
    (ha : Below (Addressable m) m' m.allocationPtr a) : Addressable m' a := by
  rcases ha with ⟨hlive, hlt⟩ | ⟨hlow, hlt⟩
  · exact ⟨hext.live hlive, hlt⟩
  · exact ⟨.inr hlow, by omega⟩

theorem AvlHolds.frame (h : AvlHolds rank m v) (hext : m.Extends m') : AvlHolds rank m' v where
  addressable := Nat.le_trans hext.allocationPtr_le h.addressable
  tree := by
    refine h.tree.imp_right fun ⟨t, ht, hinv⟩ => ⟨t, ?_, hinv⟩
    exact ht.frame (hext.agree.mono fun a ha => ha.1) fun a ha => ⟨hext.live ha.1, ha.2⟩

/-- `avl_find` on a version. -/
theorem AvlHolds.find (h : AvlHolds rank m v) (key : Nat) :
    avlFind m.words v.root key (rankCmp rank) = some ((v.value (rank key)).getD nullPtr) := by
  rcases h.tree with ⟨hroot, hvalue⟩ | ⟨t, ht, havl, hord, hvalue⟩
  · rw [hroot, hvalue]
    rfl
  · have hheight := ht.height_le havl hord fun a ha => ha.2
    rw [avlFind_spec ht havl (by unfold avlPathSize; omega), hvalue]

/-- `avl_insert` on a version. -/
theorem AvlHolds.insert (h : AvlHolds rank m v) (hcan : m.canAllocate avlMaxAllocationInInsert)
    (key data : Nat) :
    ∃ q m', avlInsert m v.root key (rankCmp rank) none data = some (q, m') ∧ m.Extends m' ∧
      m.allocationPtr ≤ m'.allocationPtr + avlMaxAllocationInInsert ∧
      AvlHolds rank m' ⟨q, Function.update v.value (rank key) (some data)⟩ := by
  have hptr := h.addressable
  rcases h.tree with ⟨hroot, hvalue⟩ | ⟨t, ht, havl, hord, hvalue⟩
  · obtain ⟨q, m', hrun, hext, halloc, ht⟩ := avlInsert_empty rank (S := Addressable m)
      hcan (fun a ha => ha.1) key data
    have haddr := hext.allocationPtr_le
    refine ⟨q, m', by rw [hroot, hrun], hext, halloc, by omega, .inr ⟨_, ht.mono fun a ha =>
      below_addressable hext hptr ha, trivial, trivial, ?_⟩⟩
    funext x
    simp only [hvalue, AvlTree.find, Function.update_apply]
  · have hheight := ht.height_le havl hord fun a ha => ha.2
    obtain ⟨q, m', hrun, hext, halloc, ht'⟩ := avlInsert_spec ht (fun a ha => ha.1) havl (by omega)
      hcan key data
    have haddr := hext.allocationPtr_le
    refine ⟨q, m', hrun, hext, halloc, by omega, .inr ⟨_, ht'.mono fun a ha =>
      below_addressable hext hptr ha, (havl.inserted _ _).avl, hord.insert _ _, ?_⟩⟩
    rw [hord.find_insert, hvalue]

/-- `avl_delete` on a version: a tree that is the right one unless the deletion
rotates at the root. -/
theorem AvlHolds.delete (h : AvlHolds rank m v) (hcan : m.canAllocate avlMaxAllocationInDelete)
    (key data : Nat) :
    ∃ q m', avlDelete m v.root key (rankCmp rank) none data = some (q, m') ∧ m.Extends m' ∧
      m.allocationPtr ≤ m'.allocationPtr + avlMaxAllocationInDelete ∧
      (¬ RotatesAtRoot rank m v.root key →
        AvlHolds rank m' ⟨q, Function.update v.value (rank key) none⟩) := by
  have hptr := h.addressable
  rcases h.tree with ⟨hroot, hvalue⟩ | ⟨t, ht, havl, hord, hvalue⟩
  · refine ⟨nullPtr, m, by rw [hroot, avlDelete_empty], .refl m, Nat.le_add_right _ _, fun _ =>
      ⟨hptr, .inl ⟨rfl, ?_⟩⟩⟩
    simp only [hvalue]
    exact Function.update_eq_self _ _
  · have hheight := ht.height_le havl hord fun a ha => ha.2
    by_cases hkey : ∃ d, t.Has (rank key) d
    · obtain ⟨q, m', hrun, hext, halloc, ht'⟩ := avlDelete_present ht (fun a ha => ha.1) havl hord
        (by omega) hcan key hkey data
      have haddr := hext.allocationPtr_le
      refine ⟨q, m', hrun, hext, halloc, fun hrot => ⟨by omega, ?_⟩⟩
      have hroot : ¬ RootRotates (rank key) t := fun hr => hrot ⟨t, ht.mono fun a ha => ha.1, hr⟩
      rw [(havl.deleteBelow_eq_iff hord hkey).mpr hroot] at ht'
      cases hdel : AvlTree.delete (rank key) t with
      | none =>
        rw [hdel] at ht'
        exact .inl ⟨ht', by rw [hvalue]; exact find_deleted_last hdel⟩
      | some t' =>
        rw [hdel] at ht'
        refine .inr ⟨t', AvlAt.mono ht' fun a ha => below_addressable hext hptr ha,
          (havl.deleted hdel).avl, (hord.deleted hdel).1, ?_⟩
        rw [hord.find_deleted hdel, hvalue]
    · obtain ⟨m', hrun, hext, halloc, ht'⟩ := avlDelete_absent ht (fun a ha => ha.1) havl hord
        (by omega) hcan key hkey data
      refine ⟨v.root, m', hrun, hext, by omega, fun _ => ⟨by omega, .inr ⟨t, ht'.mono fun a ha =>
        below_addressable hext hptr ha, havl, hord, ?_⟩⟩⟩
      rw [← hvalue]
      refine Function.update_eq_self_iff.mpr ?_
      rw [hvalue]
      refine (Option.eq_none_iff_forall_not_mem.mpr fun d hd => hkey ⟨d, ?_⟩).symm
      exact hord.find_eq.mp hd

/-- The empty tree or an ordered AVL tree. -/
structure AvlRoot (rank : Nat → κ) (m : Memory) (root : Nat) : Prop where
  addressable : m.allocationPtr ≤ 2 ^ 30
  tree : root = nullPtr ∨ ∃ t, AvlAt rank m.words (Addressable m) root t ∧ t.Avl ∧ t.Ordered

/-- A tree stands for the map of its items. -/
theorem AvlRoot.holds {root : Nat} (h : AvlRoot rank m root) :
    ∃ value, AvlHolds rank m ⟨root, value⟩ := by
  rcases h.tree with hnull | ⟨t, ht, havl, hord⟩
  · exact ⟨fun _ => none, h.addressable, .inl ⟨hnull, rfl⟩⟩
  · exact ⟨fun k => AvlTree.find k t, h.addressable, .inr ⟨t, ht, havl, hord, rfl⟩⟩

theorem AvlHolds.root (h : AvlHolds rank m v) : AvlRoot rank m v.root where
  addressable := h.addressable
  tree := h.tree.imp And.left fun ⟨t, ht, havl, hord, _⟩ => ⟨t, ht, havl, hord⟩

/-- Even a deletion that rotates at the root makes an ordered AVL tree. -/
theorem AvlRoot.delete {root : Nat} (h : AvlRoot rank m root)
    (hcan : m.canAllocate avlMaxAllocationInDelete) (key data : Nat) :
    ∃ q m', avlDelete m root key (rankCmp rank) none data = some (q, m') ∧ m.Extends m' ∧
      AvlRoot rank m' q := by
  obtain ⟨value, hholds⟩ := h.holds
  by_cases hrot : RotatesAtRoot rank m root key
  · obtain ⟨t₁, ht₁, hroot⟩ := hrot
    obtain ⟨t, ht, havl, hord⟩ := h.tree.resolve_left ht₁.ne_null
    obtain rfl := ht.unique ht₁
    have hheight := ht.height_le havl hord fun a ha => ha.2
    obtain ⟨t', k₁, d₁, hbelow, -⟩ := hroot.loses havl hord
    have hkey := hroot.has
    obtain ⟨q, m', hrun, hext, -, ht'⟩ := avlDelete_present ht (fun a ha => ha.1) havl hord
      (by omega) hcan key hkey data
    rw [hbelow] at ht'
    refine ⟨q, m', hrun, hext, Nat.le_trans hext.allocationPtr_le h.addressable, .inr ⟨t', ?_,
      havl.deleteBelow_inv hord hkey hbelow⟩⟩
    exact AvlAt.mono ht' fun a ha => below_addressable hext h.addressable ha
  · obtain ⟨q, m', hrun, hext, -, hholds'⟩ := hholds.delete hcan key data
    exact ⟨q, m', hrun, hext, (hholds' hrot).root⟩

/-- All trees that are made are ordered AVL trees. -/
theorem avlRoot_preserved : Persistent.Preserved Memory.Extends
    (AvlCall rank fun _ _ _ => True) (fun m v => AvlRoot rank m v.root) where
  frame := by
    intro m m' v hext h
    obtain ⟨value, hholds⟩ := h.holds
    exact (hholds.frame hext).root
  call := by
    intro m m' v v' hcall h
    cases hcall with
    | insert hcan hrun =>
      obtain ⟨value, hholds⟩ := h.holds
      obtain ⟨q, m'', hrun', hext, -, hholds'⟩ := hholds.insert hcan _ _
      rw [hrun] at hrun'
      obtain ⟨rfl, rfl⟩ := Prod.mk.inj (Option.some.inj hrun')
      exact ⟨hext, hholds'.root⟩
    | delete hcan hcond hrun =>
      obtain ⟨q, m'', hrun', hext, hroot⟩ := h.delete hcan _ _
      rw [hrun] at hrun'
      obtain ⟨rfl, rfl⟩ := Prod.mk.inj (Option.some.inj hrun')
      exact ⟨hext, hroot⟩

/-- A deletion that rotates at the root loses the data of another key. -/
theorem AvlHolds.delete_loses (h : AvlHolds rank m v)
    (hcan : m.canAllocate avlMaxAllocationInDelete) {key : Nat}
    (hrot : RotatesAtRoot rank m v.root key) (data : Nat) :
    ∃ q m' key' d, avlDelete m v.root key (rankCmp rank) none data = some (q, m') ∧
      rank key' ≠ rank key ∧ v.value (rank key') = some d ∧
      avlFind m'.words q key' (rankCmp rank) = some nullPtr := by
  obtain ⟨t₁, ht₁, hroot⟩ := hrot
  rcases h.tree with ⟨hnull, hvalue⟩ | ⟨t, ht, havl, hord, hvalue⟩
  · exact absurd hnull ht₁.ne_null
  · obtain rfl := ht.unique ht₁
    have hheight := ht.height_le havl hord fun a ha => ha.2
    obtain ⟨t', k₁, d₁, hbelow, hne, hk₁, hlost⟩ := hroot.loses havl hord
    obtain ⟨key', rfl⟩ := ht.exists_key hk₁
    have hkey := hroot.has
    obtain ⟨q, m', hrun, hext, -, ht'⟩ := avlDelete_present ht (fun a ha => ha.1) havl hord
      (by omega) hcan key hkey data
    rw [hbelow] at ht'
    obtain ⟨havl', hord'⟩ := havl.deleteBelow_inv hord hkey hbelow
    have hheight' := AvlAt.height_le ht' havl' hord' fun a ha =>
      (below_addressable hext h.addressable ha).2
    refine ⟨q, m', key', d₁, hrun, hne, by rw [hvalue]; exact hord.find_eq.mpr hk₁, ?_⟩
    rw [avlFind_spec ht' havl' (by unfold avlPathSize; omega),
      Option.eq_none_iff_forall_not_mem.mpr fun d hd => hlost d (hord'.find_eq.mp hd)]
    rfl

theorem avl_preserved : Persistent.Preserved Memory.Extends
    (AvlCall rank fun m root key => ¬ RotatesAtRoot rank m root key) (AvlHolds rank) where
  frame := fun hext h => h.frame hext
  call := by
    intro m m' v v' hcall h
    cases hcall with
    | insert hcan hrun =>
      obtain ⟨q, m'', hrun', hext, -, hholds⟩ := h.insert hcan _ _
      rw [hrun] at hrun'
      obtain ⟨rfl, rfl⟩ := Prod.mk.inj (Option.some.inj hrun')
      exact ⟨hext, hholds⟩
    | delete hcan hcond hrun =>
      obtain ⟨q, m'', hrun', hext, -, hholds⟩ := h.delete hcan _ _
      rw [hrun] at hrun'
      obtain ⟨rfl, rfl⟩ := Prod.mk.inj (Option.some.inj hrun')
      exact ⟨hext, hholds hcond⟩

end calls

/-- An insertion into a tree, with room for what comes next. -/
theorem avlInsert_next {m : Memory} {root n : Nat} {t : AvlTree κ Nat}
    (haddr : m.allocationPtr ≤ 2 ^ 30)
    (ht : AvlAt rank m.words (Addressable m) root t ∧ t.Avl ∧ t.Ordered)
    (hcan : m.canAllocate (avlMaxAllocationInInsert + n)) (key data : Nat) :
    ∃ q m', avlInsert m root key (rankCmp rank) none data = some (q, m') ∧
      m'.allocationPtr ≤ 2 ^ 30 ∧ m'.canAllocate n ∧
      AvlAt rank m'.words (Addressable m') q (insert (rank key) data t) ∧
      (insert (rank key) data t).Avl ∧ (insert (rank key) data t).Ordered := by
  obtain ⟨hat, havl, hord⟩ := ht
  have hheight := hat.height_le havl hord fun a ha => ha.2
  obtain ⟨q, m', hrun, hext, hptr, ht'⟩ := avlInsert_spec hat (fun a ha => ha.1) havl (by omega)
    (canAllocate_mono hcan (by omega)) key data
  have hend := hext.firstGenerationEnd_eq
  unfold Memory.canAllocate at hcan ⊢
  exact ⟨q, m', hrun, Nat.le_trans hext.allocationPtr_le haddr, by omega,
    ht'.mono fun a ha => below_addressable hext haddr ha, (havl.inserted _ _).avl, hord.insert _ _⟩

/-- The items are inserted one after the other. -/
theorem AvlRun.insertItems {C : Memory → Nat → Nat → Prop} {m₀ m : Memory}
    {vs : List (AvlVersion Nat)} {v : AvlVersion Nat} {t : AvlTree Nat Nat} {n : Nat}
    (hrun : AvlRun id C m₀ ⟨m, vs⟩) (items : List (Nat × Nat)) (hv : v ∈ vs)
    (haddr : m.allocationPtr ≤ 2 ^ 30)
    (ht : AvlAt id m.words (Addressable m) v.root t ∧ t.Avl ∧ t.Ordered)
    (hcan : m.canAllocate (items.length * avlMaxAllocationInInsert + n)) :
    ∃ m' vs' w, AvlRun id C m₀ ⟨m', vs'⟩ ∧ w ∈ vs' ∧ m'.canAllocate n ∧
      w.value = items.foldl
        (fun (f : Nat → Option Nat) e => Function.update f e.1 (some e.2)) v.value ∧
      m'.allocationPtr ≤ 2 ^ 30 ∧
      AvlAt id m'.words (Addressable m') w.root (items.foldl (fun t e => insert e.1 e.2 t) t) ∧
      (items.foldl (fun t e => insert e.1 e.2 t) t).Avl ∧
      (items.foldl (fun t e => insert e.1 e.2 t) t).Ordered := by
  induction items generalizing m vs v t with
  | nil =>
    rw [List.length_nil, Nat.zero_mul, Nat.zero_add] at hcan
    exact ⟨m, vs, v, hrun, hv, hcan, rfl, haddr, ht⟩
  | cons e items ih =>
    rw [List.length_cons, Nat.add_mul, Nat.one_mul, Nat.add_right_comm, Nat.add_comm] at hcan
    obtain ⟨q, m', hinsert, haddr', hcan', ht'⟩ := avlInsert_next haddr ht hcan e.1 e.2
    have hnext := hrun.tail (.call hv (.insert (canAllocate_mono hcan (Nat.le_add_right _ _))
      hinsert))
    exact ih hnext List.mem_cons_self haddr' ht' hcan'

/-- The tree with the keys from `1` to `9`. -/
def nineTree : AvlTree Nat Nat :=
  .branch 4 (.branch 2 (.branch 1 (.leaf 1 11) (.leaf 2 12)) (.branch 3 (.leaf 3 13) (.leaf 4 14)))
    (.branch 6 (.branch 5 (.leaf 5 15) (.leaf 6 16))
      (.branch 7 (.leaf 7 17) (.branch 8 (.leaf 8 18) (.leaf 9 19))))

/-- The keys from `1` to `9` are inserted, each with its data. -/
theorem oneToNine_run (C : Memory → Nat → Nat → Prop) :
    ∃ m vs v, AvlRun id C (roomyMemory []) ⟨m, vs⟩ ∧ v ∈ vs ∧ m.canAllocate 1000 ∧
      v.value = (List.range' 1 9).foldl
        (fun (f : Nat → Option Nat) key => Function.update f key (some (10 + key)))
        (fun _ => none) ∧
      m.allocationPtr ≤ 2 ^ 30 ∧ AvlAt id m.words (Addressable m) v.root nineTree ∧
      nineTree.Avl ∧ nineTree.Ordered := by
  have hcan : (roomyMemory []).canAllocate avlMaxAllocationInInsert := by decide
  obtain ⟨q, m, hrun, hext, hptr, ht⟩ := avlInsert_empty id (S := fun _ => False) hcan
    (fun a ha => ha.elim) 1 11
  have haddr : m.allocationPtr ≤ 2 ^ 30 := Nat.le_trans hext.allocationPtr_le (by decide)
  have ht' := ht.mono (T := Addressable m) fun a ha =>
    ha.elim False.elim fun ha => ⟨.inr ha.1, Nat.lt_trans ha.2 (by decide)⟩
  have hone : AvlRun id C (roomyMemory []) ⟨m, [_, _]⟩ :=
    .single (.call List.mem_cons_self (.insert hcan hrun))
  have hcan' : m.canAllocate (8 * avlMaxAllocationInInsert + 1000) := by
    have hend := hext.firstGenerationEnd_eq
    simp only [roomyMemory, avlMaxAllocationInInsert] at hend hptr
    unfold Memory.canAllocate avlMaxAllocationInInsert
    rw [hend]
    omega
  have htree : AvlAt id m.words (Addressable m) q (.leaf 1 11) ∧
      (leaf (κ := Nat) 1 11).Avl ∧ (leaf (κ := Nat) 1 11).Ordered := ⟨ht', trivial, trivial⟩
  obtain ⟨m', vs, v, hnine, hv, hcan₂, hvalue, haddr', htree'⟩ := hone.insertItems
    ((List.range' 2 8).map fun key => (key, 10 + key)) List.mem_cons_self haddr htree hcan'
  rw [show ((List.range' 2 8).map fun key => (key, 10 + key)).foldl
    (fun t e => insert e.1 e.2 t) (.leaf 1 11) = nineTree by decide] at htree'
  exact ⟨m', vs, v, hnine, hv, hcan₂, hvalue, haddr', htree'⟩

/-- In every history of insertions, and of deletions that do not rotate at the
root, on any versions of a tree, `avl_find` agrees with the map of each
version, the tree is an ordered AVL tree or empty, and all operations can be
called again. -/
theorem avl_histories {m : Memory} {h : Persistent.History Memory Nat (κ → Option Nat)}
    (hword : m.allocationPtr ≤ 2 ^ 30)
    (hrun : AvlRun rank (fun m root key => ¬ RotatesAtRoot rank m root key) m h) :
    ∀ v ∈ h.versions,
      (∀ key, avlFind h.store.words v.root key (rankCmp rank) =
        some ((v.value (rank key)).getD nullPtr)) ∧
      ((v.root = nullPtr ∧ v.value = fun _ => none) ∨
        ∃ t, AvlAt rank h.store.words h.store.Live v.root t ∧ t.Avl ∧ t.Ordered ∧
          v.value = fun k => find k t) ∧
      (∀ key data, h.store.canAllocate avlMaxAllocationInInsert →
        ∃ q m', avlInsert h.store v.root key (rankCmp rank) none data = some (q, m') ∧
          h.store.Extends m' ∧
          h.store.allocationPtr ≤ m'.allocationPtr + avlMaxAllocationInInsert) ∧
      (∀ key data, h.store.canAllocate avlMaxAllocationInDelete →
        ∃ q m', avlDelete h.store v.root key (rankCmp rank) none data = some (q, m') ∧
          h.store.Extends m' ∧
          h.store.allocationPtr ≤ m'.allocationPtr + avlMaxAllocationInDelete) := by
  have hinit : ∀ v ∈ [(⟨nullPtr, fun _ => none⟩ : AvlVersion κ)], AvlHolds rank m v := by
    intro v hv
    obtain rfl := List.mem_singleton.mp hv
    exact ⟨hword, .inl ⟨rfl, rfl⟩⟩
  intro v hv
  have hholds : AvlHolds rank h.store v := avl_preserved.run hrun hinit v hv
  refine ⟨hholds.find, ?_, fun key data hcan => ?_, fun key data hcan => ?_⟩
  · exact hholds.tree.imp_right fun ⟨t, ht, hinv⟩ => ⟨t, ht.mono fun a ha => ha.1, hinv⟩
  · obtain ⟨q, m', hcall, hext, hptr, -⟩ := hholds.insert hcan key data
    exact ⟨q, m', hcall, hext, hptr⟩
  · obtain ⟨q, m', hcall, hext, hptr, -⟩ := hholds.delete hcan key data
    exact ⟨q, m', hcall, hext, hptr⟩

/-- The keys from `1` to `9` are inserted and `5` is deleted, which rotates at the right son of
the root. -/
theorem avl_histories_nine : ∃ h v w, v ∈ Persistent.History.versions h ∧
    w ∈ Persistent.History.versions h ∧
    AvlRun id (fun m root key => ¬ RotatesAtRoot id m root key) (roomyMemory []) h ∧
    avlFind h.store.words v.root 5 (rankCmp id) = some 15 ∧
    avlFind h.store.words w.root 5 (rankCmp id) = some nullPtr ∧
    avlFind h.store.words w.root 8 (rankCmp id) = some 18 := by
  obtain ⟨m, vs, v, hnine, hv, hcan, hvalue, -, htree, havl, hord⟩ :=
    oneToNine_run fun m root key => ¬ RotatesAtRoot id m root key
  have hroot : ¬ RotatesAtRoot id m v.root 5 := by
    rintro ⟨t, ht, hrot⟩
    rw [← htree.unique ht] at hrot
    exact (havl.deleteBelow_eq_iff hord ⟨15, hord.find_eq.mp (by decide)⟩).mp (by decide) hrot
  have hcan' := canAllocate_mono hcan (show avlMaxAllocationInDelete ≤ 1000 by decide)
  obtain ⟨q, m', hdel, -⟩ := (avl_histories (by decide) hnine _ hv).2.2.2 5 0 hcan'
  have hboth : AvlRun id (fun m root key => ¬ RotatesAtRoot id m root key) (roomyMemory []) _ :=
    hnine.tail (.call hv (.delete hcan' hroot hdel))
  have hold := (avl_histories (by decide) hboth _ (List.mem_cons_of_mem _ hv)).1
  have hnew := (avl_histories (by decide) hboth _ List.mem_cons_self).1
  refine ⟨_, _, _, List.mem_cons_of_mem _ hv, List.mem_cons_self, hboth, (hold 5).trans ?_, hnew 5,
    (hnew 8).trans ?_⟩
  · rw [hvalue]
    rfl
  · show some ((Function.update v.value 5 none 8).getD nullPtr) = _
    rw [hvalue]
    rfl

/-- The keys from `1` to `5` are inserted. -/
def oneToFive : Option (Nat × Memory) := do
  let (p, m) ← avlInsert (roomyMemory []) nullPtr 1 (rankCmp id) none 11
  let (p, m) ← avlInsert m p 2 (rankCmp id) none 12
  let (p, m) ← avlInsert m p 3 (rankCmp id) none 13
  let (p, m) ← avlInsert m p 4 (rankCmp id) none 14
  avlInsert m p 5 (rankCmp id) none 15

/-- The tree with the keys from `1` to `5`. -/
def fiveTree : AvlTree Nat Nat :=
  .branch 2 (.branch 1 (.leaf 1 11) (.leaf 2 12))
    (.branch 3 (.leaf 3 13) (.branch 4 (.leaf 4 14) (.leaf 5 15)))

theorem oneToFive_spec : ∃ p m, oneToFive = some (p, m) ∧ m.canAllocate 1000 ∧
    m.allocationPtr ≤ 2 ^ 30 ∧ AvlAt id m.words (Addressable m) p fiveTree ∧ fiveTree.Avl ∧
    fiveTree.Ordered := by
  have hcan : (roomyMemory []).canAllocate avlMaxAllocationInInsert := by decide
  obtain ⟨p₁, m₁, hrun₁, hext, hptr, ht₁⟩ := avlInsert_empty id (S := fun _ => False)
    hcan (fun a ha => ha.elim) 1 11
  have hcan₁ : m₁.canAllocate (207 + (207 + (207 + (207 + 1000)))) := by
    have hend := hext.firstGenerationEnd_eq
    simp only [roomyMemory, avlMaxAllocationInInsert] at hend hptr
    unfold Memory.canAllocate
    rw [hend]
    omega
  have haddr₁ : m₁.allocationPtr ≤ 2 ^ 30 := Nat.le_trans hext.allocationPtr_le (by decide)
  have ht₁' := ht₁.mono (T := Addressable m₁) fun a ha =>
    ha.elim False.elim fun ha => ⟨.inr ha.1, Nat.lt_trans ha.2 (by decide)⟩
  obtain ⟨p₂, m₂, hrun₂, haddr₂, hcan₂, ht₂⟩ := avlInsert_next haddr₁ ⟨ht₁', trivial, trivial⟩
    hcan₁ 2 12
  obtain ⟨p₃, m₃, hrun₃, haddr₃, hcan₃, ht₃⟩ := avlInsert_next haddr₂ ht₂ hcan₂ 3 13
  obtain ⟨p₄, m₄, hrun₄, haddr₄, hcan₄, ht₄⟩ := avlInsert_next haddr₃ ht₃ hcan₃ 4 14
  obtain ⟨p₅, m₅, hrun₅, haddr₅, hcan₅, ht₅⟩ := avlInsert_next haddr₄ ht₄ hcan₄ 5 15
  have htree : insert (id 5) 15 (insert (id 4) 14 (insert (id 3) 13 (insert (id 2) 12
      (.leaf (id 1) 11)))) = fiveTree := by decide
  rw [htree] at ht₅
  refine ⟨p₅, m₅, ?_, hcan₅, haddr₅, ht₅⟩
  unfold oneToFive
  simp only [hrun₁, hrun₂, hrun₃, hrun₄, hrun₅, Option.bind_eq_bind, Option.bind_some]

/-- The keys from `1` to `5` are inserted and `1` is deleted: then `4` is not
found any more. -/
theorem avlDelete_loses_four :
    (do
      let (p, m) ← oneToFive
      let (p, m) ← avlDelete m p 1 (rankCmp id) none 0
      avlFind m.words p 4 (rankCmp id)) = some nullPtr ∧
    ([(1, some 11), (2, some 12), (3, some 13), (4, some 14), (5, some 15), (1, none)].foldl
      (fun map update => Function.update map update.1 update.2)
      fun _ => (none : Option Nat)) 4 = some 14 := by
  refine ⟨?_, rfl⟩
  obtain ⟨p, m, hrun, hcan, -, ht, havl, hord⟩ := oneToFive_spec
  obtain ⟨q, m', hdel, hext', -, ht'⟩ := avlDelete_present ht (fun a ha => ha.1) havl hord
    (by decide) (canAllocate_mono hcan (by decide)) 1 ⟨11, hord.find_eq.mp (by decide)⟩ 0
  have hbelow : deleteBelow (id 1) fiveTree = some (.branch 2 (.leaf 2 12) (.leaf 3 13)) := by
    decide
  rw [hbelow] at ht'
  have htree : AvlAt id m'.words _ q (.branch 2 (.leaf 2 12) (.leaf 3 13)) := ht'
  have hfind := avlFind_spec htree (avl_branch.mpr ⟨by decide, by decide, trivial, trivial⟩)
    (by decide) 4
  simp only [hrun, hdel, Option.bind_eq_bind, Option.bind_some]
  exact hfind

end Shades
