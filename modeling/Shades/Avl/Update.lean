import Shades.Avl.Apart

/-!
# Shades.Avl.Update

Which data `avl_insert` stores when it is given an update function.  The
function is called at the leaf where the search has ended, before it is known
whether the key is the one of that leaf.

`InsertLaw` says what the caller expects: the data of a key that is there is
updated, and the data of a new key does not depend on the data of the other
keys.  It compares the insertion into two databases that differ in these data
only: the same pointer has to be stored, and the cells that the function has
made for it have to hold the same words.  That is so just for the functions that
keep the data of other keys apart.
-/

namespace Shades

open Memory AvlTree

variable {κ : Type} [LinearOrder κ] {rank : Nat → κ} {f : Option UpdateFunction} {m : Memory}

/-! ## what is stored -/

/-- `avl_insert` calls the update function with the old data `o` in the memory `M`. -/
inductive CallsWith (rank : Nat → κ) (m : Memory) : Nat → Nat → Nat → Memory → Prop
  | empty (key : Nat) : CallsWith rank m nullPtr key nullPtr m
  | leaf {root key p : Nat} {path : List AvlPathEntry} {M : Memory} (hroot : root ≠ nullPtr)
      (hrun : avlDescend (rankCmp rank) key avlPathSize m [] root = some (.leaf p path, M)) :
      CallsWith rank m root key (wordToPtr (M.words (p + 2))) M

/-- `avl_insert` succeeds, and `avl_find` then returns `x`. -/
def Stores (rank : Nat → κ) (m : Memory) (root key : Nat) (f : Option UpdateFunction)
    (data x : Nat) : Prop :=
  ∃ q m', avlInsert m root key (rankCmp rank) f data = some (q, m') ∧
    avlFind m'.words q key (rankCmp rank) = some x

/-- A version and room for an insertion into a tree of its height. -/
structure CanInsert (rank : Nat → κ) (f : Option UpdateFunction) (m : Memory)
    (v : AvlVersion κ) : Prop where
  holds : AvlHolds rank m v
  room : ∃ h, (∀ t, AvlAt rank m.words (Addressable m) v.root t → t.height ≤ h) ∧
    m.canAllocate (avlInsertWords h + UpdateFunction.cost f)

/-- Two databases with a tree at the same place that has not got the key.  They differ only
in the data of the other keys of the tree. -/
structure OthersDiffer (rank : Nat → κ) (f : Option UpdateFunction) (key : Nat) (m : Memory)
    (v : AvlVersion κ) (m' : Memory) (v' : AvlVersion κ) : Prop where
  first : CanInsert rank f m v
  second : CanInsert rank f m' v'
  root_eq : v'.root = v.root
  absent : v.value (rank key) = none
  absent' : v'.value (rank key) = none
  same : SameBut (OtherData rank m.words v.root key) m m'
  clear : v.root ≠ nullPtr → Clear (OtherData rank m.words v.root key) m.words v.root

section law

variable {root key data o : Nat} {v : AvlVersion κ}

theorem Stores.unique {x y : Nat} (hx : Stores rank m root key f data x)
    (hy : Stores rank m root key f data y) : x = y := by
  obtain ⟨q, m', hrun, hx⟩ := hx
  obtain ⟨q', m'', hrun', hy⟩ := hy
  obtain ⟨rfl, rfl⟩ := Prod.mk.inj (Option.some.inj (hrun.symm.trans hrun'))
  exact Option.some.inj (hx.symm.trans hy)

/-- There is one call. -/
theorem CallsWith.unique {o' : Nat} {M M' : Memory} (h : CallsWith rank m root key o M)
    (h' : CallsWith rank m root key o' M') : o' = o ∧ M' = M := by
  cases h with
  | empty =>
    cases h' with
    | empty => exact ⟨rfl, rfl⟩
    | leaf hroot => exact absurd rfl hroot
  | leaf hroot hrun =>
    cases h' with
    | empty => exact absurd rfl hroot
    | leaf _ hrun' =>
      obtain ⟨hd, rfl⟩ := Prod.mk.inj (Option.some.inj (hrun.symm.trans hrun'))
      cases hd
      exact ⟨rfl, rfl⟩

/-- What `avl_insert` stores in the tree of a version: the result of a call of the update
function, with the data of the key itself if it is there. -/
theorem CanInsert.insert (h : CanInsert rank f m v) (key data : Nat) :
    ∃ o M, CallsWith rank m v.root key o M ∧ m.Extends M ∧
      (v.value (rank key) = some o ∨ v.value (rank key) = none) ∧
      ∃ q m', avlInsert m v.root key (rankCmp rank) f data = some (q, m') ∧
        avlFind m'.words q key (rankCmp rank) = some (UpdateFunction.call f o data M).1 ∧
        (v.value (rank key) = none → KeepsNew M (UpdateFunction.call f o data M).2 m') := by
  obtain ⟨hholds, hh, hheight, hcan⟩ := h
  have hptr := hholds.addressable
  rcases hholds.tree with ⟨hroot, hvalue⟩ | ⟨t, ht, havl, hord, hvalue⟩
  · obtain ⟨q, m', hrun, -, -, ht, hkept⟩ := avlInsert_empty_updates rank (S := Addressable m)
      (f := f) (canAllocate_mono hcan (by unfold avlInsertWords; omega)) (fun a ha => ha.1) key data
    rw [hroot, hvalue]
    refine ⟨nullPtr, m, .empty key, .refl m, .inr rfl, q, m', hrun, ?_, fun _ => hkept⟩
    rw [avlFind_spec ht trivial (Nat.zero_le _), AvlTree.find, if_pos rfl, Option.getD_some]
  · have hlow := ht.height_le havl hord fun a ha => ha.2
    have hle : avlInsertWords t.height ≤ avlInsertWords hh := by
      have := hheight t ht
      unfold avlInsertWords
      omega
    obtain ⟨M, p, k', o, hdescend, ⟨⟨path, hdown⟩, hgrows, -, hleaf⟩, q, m', hrun, -, -, ht',
      hkept⟩ := avlInsert_updates ht (fun a ha => ha.1) havl (by omega)
        (canAllocate_mono hcan (Nat.add_le_add_right hle _)) key data
    obtain ⟨_, -, hwords, hcell⟩ := hleaf.leaf_inv
    have ho : wordToPtr (M.words (p + 2)) = o := by
      rw [hgrows.agree _ (hcell 2 (by decide)).1, hwords.data, wordToPtr_ptrToWord]
    have hfound : v.value (rank key) = if rank key = k' then some o else none := by
      rw [hvalue]
      dsimp only
      rw [find_eq_descend (rank key) t [], hdescend]
    have hcall := CallsWith.leaf ht.ne_null hdown
    rw [ho] at hcall
    refine ⟨o, M, hcall, hgrows, ?_, q, m', hrun, ?_, fun habsent => hkept fun heq => ?_⟩
    · rw [hfound]
      by_cases hkey : rank key = k'
      · exact .inl (if_pos hkey)
      · exact .inr (if_neg hkey)
    · have hinserted := havl.inserted (rank key) (UpdateFunction.call f o data M).1
      have hfind := congrFun (hord.find_insert (rank key) (UpdateFunction.call f o data M).1)
        (rank key)
      have hheight' := hinserted.height
      rw [avlFind_spec ht' hinserted.avl (by unfold avlPathSize; omega), hfind,
        Function.update_self, Option.getD_some]
    · rw [hfound, if_pos heq] at habsent
      cases habsent

/-- Up to the call of the update function everything is the same in the two databases. -/
theorem OthersDiffer.calls {m' : Memory} {v' : AvlVersion κ} {o' : Nat} {M M' : Memory}
    (h : OthersDiffer rank f key m v m' v') (hcall : CallsWith rank m v.root key o M)
    (hcall' : CallsWith rank m' v'.root key o' M') :
    SameBut (OtherData rank m.words v.root key) M M' := by
  obtain ⟨root, value⟩ := v
  obtain ⟨root', value'⟩ := v'
  obtain rfl : root' = root := h.root_eq
  cases hcall with
  | empty =>
    cases hcall' with
    | empty => exact h.same
    | leaf hroot => exact absurd rfl hroot
  | leaf hroot hrun =>
    cases hcall' with
    | empty => exact absurd rfl hroot
    | leaf _ hrun' =>
      obtain ⟨hholds, hh, hheight, hcan⟩ := h.first
      obtain ⟨hnull, -⟩ | ⟨t, ht, havl, hord, -⟩ := hholds.tree
      · exact absurd hnull hroot
      · have hlow := ht.height_le havl hord fun a ha => ha.2
        have hle := hheight t ht
        obtain ⟨d, N, N', hdown, hdown', hsame⟩ := avlDescend_sameBut key ht (h.clear hroot) havl
          (show t.height ≤ avlPathSize by unfold avlPathSize; omega) (fun a ha => ha.1)
          (canAllocate_mono hcan (by unfold avlInsertWords; omega))
          (show ∀ e ∈ ([] : List AvlPathEntry).head?, _ by simp) h.same
        obtain ⟨-, rfl⟩ := Prod.mk.inj (Option.some.inj (hrun.symm.trans hdown))
        obtain ⟨-, rfl⟩ := Prod.mk.inj (Option.some.inj (hrun'.symm.trans hdown'))
        exact hsame

end law

/-- An update function that keeps the old data. -/
def keepOld : UpdateFunction where
  apply old _ m := (old, m)
  maxAllocation := 0
  extends_apply _ _ m _ := .refl m
  allocationPtr_apply _ _ _ := Nat.le_refl _

end Shades
