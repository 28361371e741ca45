import Shades.Avl.Update

/-!
# Shades.Avl.Bounds

What holds of `avl_insert` and `avl_delete` whatever the comparison function and
the update function are: the nodes that were there before a call stay as they
are, all trees are AVL trees, and the trees with up to `2 ^ 32` leaves are low
enough for the paths and for the numbers of words that a caller reserves.

The keys of a tree are here the pointers to them, so nothing is said about their
order.
-/

namespace Shades

open Memory AvlTree

variable {m m' : Memory} {root key data : Nat} {cmp : CmpFun} {f : Option UpdateFunction}

/-! ## trees of any order -/

/-- The tree with the root `root`, if it is not empty. -/
def AvlTreeAt (m : Memory) (root : Nat) (t : Option (AvlTree Nat Nat)) : Prop :=
  AvlOrNull id m.words m.Live root t

/-- The height of a tree, or `0` of the empty one. -/
def heightOrZero (t : Option (AvlTree Nat Nat)) : Nat := t.elim 0 AvlTree.height

/-- An AVL tree or the empty tree. -/
def AvlShape (m : Memory) (root : Nat) : Prop := ∃ t, AvlTreeAt m root t ∧ ∀ u ∈ t, u.Avl

/-- All trees of the memory are still there. -/
def KeepsTrees (m m' : Memory) : Prop :=
  ∀ p t, AvlAt id m.words m.Live p t → AvlAt id m'.words m.Live p t

theorem AvlTreeAt.unique {t u : Option (AvlTree Nat Nat)} (ht : AvlTreeAt m root t)
    (hu : AvlTreeAt m root u) : t = u := by
  unfold AvlTreeAt at ht hu
  cases t with
  | none =>
    cases u with
    | none => rfl
    | some u => exact absurd ht (AvlAt.ne_null hu)
  | some t =>
    cases u with
    | none => exact absurd hu (AvlAt.ne_null ht)
    | some u => exact congrArg some (AvlAt.unique ht hu)

theorem extends_keepsTrees (h : m.Extends m') : KeepsTrees m m' :=
  fun _ _ ht => ht.frame h.agree fun _ ha => ha

theorem AvlTreeAt.frame {t : Option (AvlTree Nat Nat)} (ht : AvlTreeAt m root t)
    (h : m.Extends m') : AvlTreeAt m' root t := by
  cases t with
  | none => exact ht
  | some t => exact AvlAt.frame ht h.agree fun _ ha => h.live ha

/-- The tree that a call has made. -/
theorem avlTreeAt_of_below {q : Nat} {t : Option (AvlTree Nat Nat)} (h : m.Extends m')
    (ht : AvlOrNull id m'.words (Below m.Live m' m.allocationPtr) q t) : AvlTreeAt m' q t := by
  cases t with
  | none => exact ht
  | some t => exact AvlAt.mono ht fun a ha => ha.elim h.live fun ha => .inr ha.1

/-! ## the shape of what the operations make -/

section shape

variable {c : Nat → CmpResult} {t : AvlTree Nat Nat} {fs : List (Frame Nat Nat)} {k k' d' x : Nat}

theorem avl_storeAt (h : (AvlTree.plugAll fs (.leaf k' d')).Avl) :
    (storeAt c k x fs k' d').Avl := by
  unfold storeAt
  split
  · exact h
  · exact avl_rebuildAll_insert h (inserted_putLeaf c k x k' d')

theorem avl_withoutLeafBelow (h : (AvlTree.plugAll fs (.leaf k' d')).Avl) :
    ∀ u ∈ withoutLeafBelow fs, u.Avl := by
  intro u hu
  cases fs with
  | nil => cases hu
  | cons f fs =>
    obtain rfl := Option.some.inj hu
    have hplug := Frame.avl_plug (avl_of_plugAll fs h)
    refine avl_rebuildBelow (o := f.plug (.leaf k' d')) h ⟨hplug.2.2.2.2, .inr ?_⟩
    rw [hplug.1, heightOf_eq, height_leaf, Nat.max_eq_right (Nat.zero_le _)]

/-- An AVL tree with up to `2 ^ 32` leaves is low. -/
theorem Avl.height_le_of_size (havl : t.Avl) (hsize : t.size ≤ 2 ^ 32) : t.height ≤ 45 := by
  by_contra hgt
  have hfib := havl.fib_le_size
  have hmono := Nat.fib_mono (show 48 ≤ t.height + 2 by omega)
  have h48 : Nat.fib 48 = 4807526976 := by decide
  omega

end shape

/-! ## one call -/

/-- What a call on a tree of the height `h` does: the path is too short for it,
or it extends the memory by `n` words at most and makes an AVL tree. -/
def Makes (m : Memory) (h n : Nat) (r : Option (Nat × Memory)) : Prop :=
  r = none ∧ avlPathSize < h ∨
    ∃ q m', r = some (q, m') ∧ m.Extends m' ∧ m.allocationPtr ≤ m'.allocationPtr + n ∧
      AvlShape m' q

theorem Makes.returns {h n k : Nat} {r : Option (Nat × Memory)} (hm : Makes m h n r)
    (hh : h ≤ avlPathSize) (hk : n ≤ k) :
    ∃ q m', r = some (q, m') ∧ m.Extends m' ∧ m.allocationPtr ≤ m'.allocationPtr + k ∧
      AvlShape m' q := by
  obtain ⟨q, m', hr, hext, hptr, hshape⟩ := hm.resolve_left fun h => by omega
  exact ⟨q, m', hr, hext, by omega, hshape⟩

theorem Makes.keeps {h n q : Nat} (hm : Makes m h n (some (q, m'))) :
    m.Extends m' ∧ KeepsTrees m m' := by
  obtain ⟨q', m'', hr, hext, -⟩ := hm.resolve_left fun h => by cases h.1
  obtain ⟨rfl, rfl⟩ := Prod.mk.inj (Option.some.inj hr)
  exact ⟨hext, extends_keepsTrees hext⟩

/-- A call that makes a tree. -/
theorem BuildsRest.makes {h n k : Nat} {t : Option (AvlTree Nat Nat)} {r : Option (Nat × Memory)}
    (hb : BuildsRest id m.Live m n t r) (hk : n ≤ k) (havl : ∀ u ∈ t, u.Avl) : Makes m h k r := by
  obtain ⟨q, m', hr, hext, hptr, htree⟩ := hb
  exact .inr ⟨q, m', hr, hext, by omega, t, avlTreeAt_of_below hext htree, havl⟩

/-- A call that gives the tree up. -/
theorem makes_same {h n : Nat} {t : Option (AvlTree Nat Nat)} (ht : AvlTreeAt m root t)
    (havl : ∀ u ∈ t, u.Avl) (hext : m.Extends m') (hptr : m'.allocationPtr = m.allocationPtr) :
    Makes m h n (some (root, m')) :=
  .inr ⟨root, m', rfl, hext, by omega, t, ht.frame hext, havl⟩

section calls

variable {t : Option (AvlTree Nat Nat)} (ht : AvlTreeAt m root t) (havl : ∀ u ∈ t, u.Avl)
variable (key data : Nat) (cmp : CmpFun)
include ht havl

/-- `avl_insert` into any tree. -/
theorem avlInsert_makes
    (hcan : m.canAllocate (avlInsertWords (heightOrZero t) + UpdateFunction.cost f)) :
    Makes m (heightOrZero t) (avlInsertWords (heightOrZero t) + UpdateFunction.cost f)
      (avlInsert m root key cmp f data) := by
  cases t with
  | none =>
    obtain rfl : root = nullPtr := ht
    have hwords : 3 ≤ avlInsertWords (heightOrZero none) := by decide
    obtain ⟨q, m', hrun, hext, hptr, hroot, -⟩ := avlInsert_empty_updates id (S := m.Live) (f := f)
      (canAllocate_mono hcan (Nat.add_le_add_right hwords _)) (fun _ ha => ha) key data
    have hbuilt :
        BuildsRest id m.Live m _ (some (.leaf _ _)) (avlInsert m nullPtr key cmp f data) :=
      ⟨q, m', hrun, hext, hptr, hroot⟩
    exact hbuilt.makes (Nat.add_le_add_right hwords _) (by rintro u ⟨⟩; exact trivial)
  | some t =>
    have hresult : InsertOutcome id m.Live m root key cmp (cmp key) f data t
        (avlInsert m root key cmp f data) :=
      avlInsert_result (fun _ => rfl) ht (fun _ ha => ha) (havl t rfl) hcan data
    obtain ⟨r, hr⟩ : ∃ r, r = avlInsert m root key cmp f data := ⟨_, rfl⟩
    rw [← hr] at hresult ⊢
    cases hresult with
    | tooLong h => exact .inl ⟨rfl, h⟩
    | failed h hext hptr => exact makes_same ht havl hext hptr
    | stored hdescend hk hrun hgrows hcan' hleaf hbuilt =>
      have htree : BuildsRest id m.Live m _ (some _) r := hbuilt
      refine htree.makes (Nat.le_refl _) ?_
      rintro u ⟨⟩
      exact avl_storeAt (by rw [plugAll_descendBy hdescend]; exact havl t rfl)

/-- `avl_delete` from any tree. -/
theorem avlDelete_makes
    (hcan : m.canAllocate (avlDeleteWords (heightOrZero t) + UpdateFunction.cost f)) :
    Makes m (heightOrZero t) (avlDeleteWords (heightOrZero t) + UpdateFunction.cost f)
      (avlDelete m root key cmp f data) := by
  cases t with
  | none =>
    obtain rfl : root = nullPtr := ht
    exact makes_same (t := none) rfl havl (.refl m) rfl
  | some t =>
    have hresult : DeleteOutcome id m.Live m root (cmp key) f data t
        (avlDelete m root key cmp f data) :=
      avlDelete_result (fun _ => rfl) ht (fun _ ha => ha) (havl t rfl) hcan data
    obtain ⟨r, hr⟩ : ∃ r, r = avlDelete m root key cmp f data := ⟨_, rfl⟩
    rw [← hr] at hresult ⊢
    cases hresult with
    | tooLong h => exact .inl ⟨rfl, h⟩
    | givenUp h hext hptr => exact makes_same ht havl hext hptr
    | replaced hf hdescend hk hgrows hbuilt =>
      have htree : BuildsRest id m.Live m _ (some _) r := hbuilt
      refine htree.makes (Nat.le_refl _) ?_
      rintro u ⟨⟩
      have havl' := havl t rfl
      have hplug := plugAll_descendBy hdescend
      rw [AvlTree.plugAll] at hplug
      rw [← hplug] at havl'
      exact avl_plugAll havl' rfl trivial
    | deleted hf hdescend hk hbuilt =>
      exact hbuilt.makes (Nat.le_add_right _ _)
        (avl_withoutLeafBelow (by rw [plugAll_descendBy hdescend]; exact havl t rfl))

end calls

/-- `avl_insert` and `avl_delete` write only to nodes that they have allocated
themselves: no word that was in use before changes, and so no tree does. -/
theorem avl_calls_keep_trees {t : Option (AvlTree Nat Nat)} (ht : AvlTreeAt m root t)
    (havl : ∀ u ∈ t, u.Avl) (key data : Nat) (cmp : CmpFun) (f : Option UpdateFunction) :
    (∀ q m', m.canAllocate (avlInsertWords (heightOrZero t) + UpdateFunction.cost f) →
      avlInsert m root key cmp f data = some (q, m') → m.Extends m' ∧ KeepsTrees m m') ∧
    ∀ q m', m.canAllocate (avlDeleteWords (heightOrZero t) + UpdateFunction.cost f) →
      avlDelete m root key cmp f data = some (q, m') → m.Extends m' ∧ KeepsTrees m m' := by
  constructor
  · intro q m' hcan hrun
    have hmakes := avlInsert_makes ht havl key data cmp hcan
    rw [hrun] at hmakes
    exact hmakes.keeps
  · intro q m' hcan hrun
    have hmakes := avlDelete_makes ht havl key data cmp hcan
    rw [hrun] at hmakes
    exact hmakes.keeps

/-- The deletion of `5` from the keys from `1` to `9` rotates at the right son of the root. -/
theorem avl_calls_keep_trees_nine : ∃ m p q m', AvlAt id m.words m.Live p nineTree ∧
    avlDelete m p 5 (rankCmp id) none 0 = some (q, m') ∧ m.Extends m' ∧ KeepsTrees m m' := by
  obtain ⟨m, -, v, -, -, hcan, -, -, ht, havl, hord⟩ := oneToNine_run fun _ _ _ => True
  obtain ⟨q, m', hdel, -⟩ := avlDelete_present ht (fun a ha => ha.1) havl hord (by decide)
    (canAllocate_mono hcan (by decide)) 5 ⟨15, hord.find_eq.mp (by decide)⟩ 0
  have htree : AvlTreeAt m v.root (some nineTree) := ht.mono fun a ha => ha.1
  have hnine : ∀ u ∈ some nineTree, u.Avl := by
    rintro u ⟨⟩
    exact havl
  exact ⟨m, v.root, q, m', htree, hdel, (avl_calls_keep_trees htree hnine 5 0 (rankCmp id) none).2
    _ _ (canAllocate_mono hcan (by decide)) hdel⟩

/-! ## histories -/

/-- The tree with the root `root` has `2 ^ 32` leaves at most. -/
def FewLeaves (m : Memory) (root : Nat) : Prop :=
  ∀ t : AvlTree Nat Nat, AvlAt id m.words m.Live root t → t.size ≤ 2 ^ 32

/-- A call of `avl_insert` or of `avl_delete` with any functions, on a tree that
has not too many leaves. -/
inductive AvlAnyCall : Memory → Persistent.Version Nat Unit → Memory →
    Persistent.Version Nat Unit → Prop
  | insert {m m' : Memory} {v : Persistent.Version Nat Unit} {key data q : Nat} {cmp : CmpFun}
      {f : Option UpdateFunction} (hfew : FewLeaves m v.root)
      (hcan : m.canAllocate (avlMaxAllocationInInsert + UpdateFunction.cost f))
      (hrun : avlInsert m v.root key cmp f data = some (q, m')) : AvlAnyCall m v m' ⟨q, ()⟩
  | delete {m m' : Memory} {v : Persistent.Version Nat Unit} {key data q : Nat} {cmp : CmpFun}
      {f : Option UpdateFunction} (hfew : FewLeaves m v.root)
      (hcan : m.canAllocate (avlMaxAllocationInDelete + UpdateFunction.cost f))
      (hrun : avlDelete m v.root key cmp f data = some (q, m')) : AvlAnyCall m v m' ⟨q, ()⟩

/-- The histories that start with the empty tree. -/
def AvlAnyRun (m : Memory) (h : Persistent.History Memory Nat Unit) : Prop :=
  Persistent.Run Memory.Extends AvlAnyCall m [⟨nullPtr, ()⟩] h

/-- A tree with not too many leaves, with the words that its height asks for. -/
theorem AvlShape.low (h : AvlShape m root) (hfew : FewLeaves m root) :
    ∃ t, AvlTreeAt m root t ∧ (∀ u ∈ t, u.Avl) ∧ heightOrZero t ≤ 45 ∧
      avlInsertWords (heightOrZero t) ≤ avlMaxAllocationInInsert ∧
      avlDeleteWords (heightOrZero t) ≤ avlMaxAllocationInDelete := by
  obtain ⟨t, ht, havl⟩ := h
  have hlow : heightOrZero t ≤ 45 := by
    cases t with
    | none => exact Nat.zero_le _
    | some t => exact Avl.height_le_of_size (havl t rfl) (hfew t ht)
  refine ⟨t, ht, havl, hlow, ?_, ?_⟩
  · unfold avlInsertWords avlMaxAllocationInInsert
    omega
  · unfold avlDeleteWords avlMaxAllocationInDelete
    omega

/-- `avl_insert` returns if it is given the words that a caller reserves. -/
theorem AvlShape.insert (h : AvlShape m root) (hfew : FewLeaves m root)
    (hcan : m.canAllocate (avlMaxAllocationInInsert + UpdateFunction.cost f)) (key data : Nat)
    (cmp : CmpFun) :
    ∃ q m', avlInsert m root key cmp f data = some (q, m') ∧
      m.Extends m' ∧ m.allocationPtr ≤
        m'.allocationPtr + (avlMaxAllocationInInsert + UpdateFunction.cost f) ∧ AvlShape m' q := by
  obtain ⟨t, ht, havl, hlow, hwords, -⟩ := h.low hfew
  have hwords := Nat.add_le_add_right hwords (UpdateFunction.cost f)
  exact (avlInsert_makes ht havl key data cmp (canAllocate_mono hcan hwords)).returns
    (Nat.le_trans hlow (by decide)) hwords

theorem AvlShape.delete (h : AvlShape m root) (hfew : FewLeaves m root)
    (hcan : m.canAllocate (avlMaxAllocationInDelete + UpdateFunction.cost f)) (key data : Nat)
    (cmp : CmpFun) :
    ∃ q m', avlDelete m root key cmp f data = some (q, m') ∧
      m.Extends m' ∧ m.allocationPtr ≤
        m'.allocationPtr + (avlMaxAllocationInDelete + UpdateFunction.cost f) ∧ AvlShape m' q := by
  obtain ⟨t, ht, havl, hlow, -, hwords⟩ := h.low hfew
  have hwords := Nat.add_le_add_right hwords (UpdateFunction.cost f)
  exact (avlDelete_makes ht havl key data cmp (canAllocate_mono hcan hwords)).returns
    (Nat.le_trans hlow (by decide)) hwords

/-- All trees that are made are AVL trees. -/
theorem avlShape_preserved : Persistent.Preserved Memory.Extends AvlAnyCall
    (fun m v => AvlShape m v.root) where
  frame := fun hext ⟨t, ht, havl⟩ => ⟨t, ht.frame hext, havl⟩
  call := by
    intro m m' v v' hcall h
    cases hcall with
    | insert hfew hcan hrun =>
      obtain ⟨q, m'', hrun', hext, -, hshape⟩ := h.insert hfew hcan _ _ _
      obtain ⟨rfl, rfl⟩ := Prod.mk.inj (Option.some.inj (hrun'.symm.trans hrun))
      exact ⟨hext, hshape⟩
    | delete hfew hcan hrun =>
      obtain ⟨q, m'', hrun', hext, -, hshape⟩ := h.delete hfew hcan _ _ _
      obtain ⟨rfl, rfl⟩ := Prod.mk.inj (Option.some.inj (hrun'.symm.trans hrun))
      exact ⟨hext, hshape⟩

/-- In every history of calls with any functions, all trees with up to `2 ^ 32`
leaves are lower than the path has entries, so the operations return, and they
need no more words than a caller reserves. -/
theorem avl_words {m : Memory} {h : Persistent.History Memory Nat Unit} (hrun : AvlAnyRun m h) :
    ∀ v ∈ h.versions, AvlShape h.store v.root ∧ (FewLeaves h.store v.root →
      (∀ t : AvlTree Nat Nat, AvlAt id h.store.words h.store.Live v.root t →
        t.height < avlPathSize) ∧
      (∀ key data cmp f, h.store.canAllocate (avlMaxAllocationInInsert + UpdateFunction.cost f) →
        ∃ q m', avlInsert h.store v.root key cmp f data = some (q, m') ∧ h.store.allocationPtr ≤
          m'.allocationPtr + (avlMaxAllocationInInsert + UpdateFunction.cost f)) ∧
      ∀ key data cmp f, h.store.canAllocate (avlMaxAllocationInDelete + UpdateFunction.cost f) →
        ∃ q m', avlDelete h.store v.root key cmp f data = some (q, m') ∧ h.store.allocationPtr ≤
          m'.allocationPtr + (avlMaxAllocationInDelete + UpdateFunction.cost f)) := by
  have hinit : ∀ v ∈ [(⟨nullPtr, ()⟩ : Persistent.Version Nat Unit)], AvlShape m v.root := by
    intro v hv
    obtain rfl := List.mem_singleton.mp hv
    exact ⟨none, rfl, fun u hu => by cases hu⟩
  intro v hv
  have hshape : AvlShape h.store v.root := avlShape_preserved.run hrun hinit v hv
  refine ⟨hshape, fun hfew => ⟨fun t ht => ?_, fun key data cmp f hcan => ?_,
    fun key data cmp f hcan => ?_⟩⟩
  · obtain ⟨u, hu, -, hlow, -⟩ := hshape.low hfew
    obtain rfl := hu.unique (show AvlTreeAt h.store v.root (some t) from ht)
    exact Nat.lt_of_le_of_lt hlow (by decide)
  · obtain ⟨q, m', hcall, -, hptr, -⟩ := hshape.insert hfew hcan key data cmp
    exact ⟨q, m', hcall, hptr⟩
  · obtain ⟨q, m', hcall, -, hptr, -⟩ := hshape.delete hfew hcan key data cmp
    exact ⟨q, m', hcall, hptr⟩

/-- A second key is inserted. -/
theorem avl_words_two : ∃ h v q m', AvlAnyRun (roomyMemory []) h ∧
    v ∈ Persistent.History.versions h ∧ v.root ≠ nullPtr ∧
    avlInsert h.store v.root 5 (rankCmp id) none 8 = some (q, m') ∧
    h.store.allocationPtr ≤ m'.allocationPtr + avlMaxAllocationInInsert := by
  have hcan : (roomyMemory []).canAllocate avlMaxAllocationInInsert := by decide
  obtain ⟨q, m, hrun, hext, hptr, ht⟩ := avlInsert_empty id (S := (roomyMemory []).Live) hcan
    (fun _ ha => ha) 3 7
  have htree : AvlTreeAt m q (some (.leaf 3 7)) := avlTreeAt_of_below hext ht
  have hins : AvlAnyRun (roomyMemory []) ⟨m, [⟨q, ()⟩, ⟨nullPtr, ()⟩]⟩ :=
    .single (.call List.mem_cons_self (.insert (f := none) (fun t ht => absurd rfl ht.ne_null)
      hcan hrun))
  have hfew : FewLeaves m q := by
    intro t ht'
    obtain rfl := AvlAt.unique htree ht'
    decide
  have hcan' : m.canAllocate (avlMaxAllocationInInsert + UpdateFunction.cost none) := by
    have hend := hext.firstGenerationEnd_eq
    simp only [roomyMemory, avlMaxAllocationInInsert] at hend hptr
    unfold Memory.canAllocate avlMaxAllocationInInsert UpdateFunction.cost
    rw [hend]
    simp only [Option.elim_none]
    omega
  obtain ⟨q', m', hcall, hwords⟩ :=
    ((avl_words hins _ List.mem_cons_self).2 hfew).2.1 5 8 (rankCmp id) none hcan'
  exact ⟨_, _, q', m', hins, List.mem_cons_self, AvlAt.ne_null htree, hcall, hwords⟩

end Shades
