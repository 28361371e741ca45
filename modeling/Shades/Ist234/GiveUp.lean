import Shades.Avl.Bounds
import Shades.Ist234.Down

/-!
# Shades.Ist234.GiveUp

The calls of `ist234_delete` that return the old root: a comparison reports an
error, the key is not in the tree, or the update function gives the data that
are there already.  In the first two cases the allocation point is restored.  In
the last one the function just returns, and what was copied on the way down
stays allocated; only if the key is in the root there is nothing on the way.
-/

namespace Shades

open Memory

variable {m : Memory} {C : Nat → Nat → Prop} {root d key data k : Nat} {items : List (Nat × Nat)}
variable {cmp : CmpFun} {deleteFun : Option UpdateFunction}

/-- A 2-3-4 tree in memory, whatever the order of its keys. -/
structure IstTreeAt (m : Memory) (C : Nat → Nat → Prop) (root d : Nat) (items : List (Nat × Nat)) :
    Prop where
  addressable : m.allocationPtr ≤ 2 ^ 30
  cells : IstCells C m
  tree : IstAt id m.words C d (ptrToWord root) items
  few : items.length < 2 ^ 32

/-- The key is in the root node. -/
def FoundAtRoot (m : Memory) (root : Nat) (cmp : CmpFun) (key : Nat) : Prop :=
  root ≠ nullPtr ∧ ∃ i, compareKeys m.words cmp key root = .key i

/-- A tree with fewer than `2 ^ 32` items has at most as many levels as the loops
have rounds. -/
theorem IstTreeAt.levels_le (h : IstTreeAt m C root d items) : d ≤ ist234PathSize := by
  obtain ⟨l, hl, hN⟩ := h.tree.nodes
  have hlength := hl.keys.length_le
  have hfew := h.few
  rw [List.length_map, List.length_map] at hlength
  by_contra hd
  unfold ist234PathSize at hd
  have hpow : 2 ^ 33 ≤ 2 ^ d := Nat.pow_le_pow_right (by decide) (by omega)
  omega

/-- How `ist234_delete` goes on: the key is in the root, or the way down ends as
the search does. -/
inductive DeleteStart (m : Memory) (C : Nat → Nat → Prop) (root key : Nat) (cmp : CmpFun)
    (deleteFun : Option UpdateFunction) (data k : Nat) : IstEnd → Option (Nat × Memory) → Prop
  | atRoot {i : Nat} (hroot : FoundAtRoot m root cmp key)
      (hi : compareKeys m.words cmp key root = .key i) :
      DeleteStart m C root key cmp deleteFun data k (.key root i)
        (deleteKey root deleteFun data ⟨m, nullPtr, nullPtr, root, true⟩ i)
  | below {e : IstEnd} {r : Option (Nat × Memory)} (hroot : ¬ FoundAtRoot m root cmp key)
      (h : DownResult C m root deleteFun data k e r) :
      DeleteStart m C root key cmp deleteFun data k e r

theorem ist234Delete_start (h : IstTreeAt m C root d items) (hcan : m.canAllocate (27 * d + k))
    (key data : Nat) (cmp : CmpFun) (deleteFun : Option UpdateFunction) :
    DeleteStart m C root key cmp deleteFun data k (istSearch m.words cmp key d root)
      (ist234Delete m root key cmp deleteFun data) := by
  have hlevels := h.levels_le
  have hgrowing : Growing C m C m := by
    refine .start ?_ h.addressable h.cells
    unfold Memory.canAllocate at hcan
    omega
  have ht := h.tree
  cases d with
  | zero =>
    obtain rfl : root = nullPtr := (ptrToWord_eq_zero root).mp ht.1
    exact .below (fun hroot => hroot.1 rfl) (.givenUp (.inr rfl) hgrowing)
  | succ d =>
    obtain ⟨fields, hn, hsons⟩ := ht.root
    unfold ist234Delete deleteFind istSearch
    rw [if_neg hn.ne_null, hn.cellType_eq, assert_true rfl]
    simp only [Option.bind_eq_bind, Option.bind_some]
    cases hcmp : compareKeys m.words cmp key root with
    | error =>
      refine .below (fun hroot => ?_) (.givenUp (.inl rfl) hgrowing)
      obtain ⟨-, i, hi⟩ := hroot
      rw [hcmp] at hi
      cases hi
    | key i => exact .atRoot ⟨hn.ne_null, i, hcmp⟩ hcmp
    | son i =>
      refine .below (fun hroot => ?_) ?_
      · obtain ⟨-, j, hj⟩ := hroot
        rw [hcmp] at hj
        cases hj
      · obtain ⟨L, w, R, rfl, hlen, rfl⟩ := compareKeys_son hn hcmp
        obtain ⟨P, X, Q, rfl, hL, hw, hR⟩ := hsons.focus hlen
        dsimp only
        rw [IstNode.word hn]
        refine deleteCopy_down (s := ⟨m, nullPtr, nullPtr, root, true⟩) ⟨hgrowing, hn, fun _ =>
          hn.cell, Bool.noConfusion, .inl (.inl ⟨rfl, rfl⟩), fun hne => absurd rfl hne⟩ hL hw hR
          hlevels (canAllocate_mono hcan (by omega))

/-! ## errors -/

/-- The old root is returned, no word that was in use has changed, and the
allocation point is what it was. -/
def RestoresRoot (m : Memory) (root : Nat) (r : Option (Nat × Memory)) : Prop :=
  ∃ m', r = some (root, m') ∧ m.Extends m' ∧ m'.allocationPtr = m.allocationPtr

/-- The memory when a call is given up. -/
theorem Growing.restoresRoot {m' : Memory} {C' : Nat → Nat → Prop} (h : Growing C m C' m') :
    RestoresRoot m root (some (root, m'.restoreAllocationPoint m.allocationPtr)) :=
  ⟨_, rfl, ⟨Nat.le_refl _, h.grows.firstGenerationEnd_eq, h.grows.firstGenerationStart_eq,
    h.grows.agree⟩, rfl⟩

/-- The words that a caller reserves are room enough for the way down. -/
theorem IstTreeAt.room (h : IstTreeAt m C root d items)
    (hcan : m.canAllocate (ist234MaxAllocationInDelete + k)) : m.canAllocate (27 * d + k) := by
  have hlevels := h.levels_le
  unfold ist234PathSize at hlevels
  exact canAllocate_mono hcan (by unfold ist234MaxAllocationInDelete; omega)

/-- `ist234_delete` when a comparison reports an error, or the key is not in the
tree. -/
theorem ist234Delete_givenUp (h : IstTreeAt m C root d items)
    (hcan : m.canAllocate (ist234MaxAllocationInDelete + k))
    (he : istSearch m.words cmp key d root = .error ∨ istSearch m.words cmp key d root = .absent) :
    RestoresRoot m root (ist234Delete m root key cmp deleteFun data) := by
  have hstart := ist234Delete_start h (h.room hcan) key data cmp deleteFun
  obtain ⟨r, hr⟩ : ∃ r, r = ist234Delete m root key cmp deleteFun data := ⟨_, rfl⟩
  obtain ⟨e, hsearch⟩ : ∃ e, e = istSearch m.words cmp key d root := ⟨_, rfl⟩
  rw [← hr, ← hsearch] at hstart
  rw [← hr]
  rw [← hsearch] at he
  cases hstart with
  | atRoot hroot => exact absurd he (by simp)
  | below hroot hdown =>
    cases hdown with
    | givenUp _ hm => exact hm.restoresRoot
    | found => exact absurd he (by simp)

/-- Whichever comparison reports an error, `avl_insert`, `avl_delete` and
`ist234_delete` return the old root, change no word that was in use and restore
the allocation point. -/
theorem errors_restore (m : Memory) (root key data : Nat) (cmp : CmpFun)
    (f : Option UpdateFunction) :
    (∀ t : AvlTree Nat Nat, AvlTreeAt m root (some t) → t.Avl → t.size ≤ 2 ^ 32 →
      AvlTree.Reports (cmp key) t →
        (m.canAllocate (avlMaxAllocationInInsert + UpdateFunction.cost f) →
          RestoresRoot m root (avlInsert m root key cmp f data)) ∧
        (m.canAllocate (avlMaxAllocationInDelete + UpdateFunction.cost f) →
          RestoresRoot m root (avlDelete m root key cmp f data))) ∧
    ∀ C d items, IstTreeAt m C root d items → istSearch m.words cmp key d root = .error →
      m.canAllocate (ist234MaxAllocationInDelete + UpdateFunction.cost f) →
        RestoresRoot m root (ist234Delete m root key cmp f data) := by
  refine ⟨fun t ht havl hsize hreports => ?_, fun C d items h he hcan =>
    ist234Delete_givenUp h hcan (.inl he)⟩
  have hheight := Avl.height_le_of_size havl hsize
  constructor
  · intro hcan
    have hresult : InsertOutcome id m.Live m root key cmp (cmp key) f data t
        (avlInsert m root key cmp f data) :=
      avlInsert_result (fun _ => rfl) ht (fun _ ha => ha) havl (canAllocate_mono hcan
        (by unfold avlInsertWords avlMaxAllocationInInsert; omega)) data
    obtain ⟨r, hr⟩ : ∃ r, r = avlInsert m root key cmp f data := ⟨_, rfl⟩
    rw [← hr] at hresult ⊢
    cases hresult with
    | tooLong h => exact absurd h (by unfold avlPathSize; omega)
    | failed _ hext hptr => exact ⟨_, rfl, hext, hptr⟩
    | stored hdescend hk => exact absurd ((AvlTree.reports_iff hdescend).mp hreports) hk
  · intro hcan
    have hresult : DeleteOutcome id m.Live m root (cmp key) f data t
        (avlDelete m root key cmp f data) :=
      avlDelete_result (fun _ => rfl) ht (fun _ ha => ha) havl (canAllocate_mono hcan
        (by unfold avlDeleteWords avlMaxAllocationInDelete; omega)) data
    have hne : ∀ fs k' d', AvlTree.descendBy (cmp key) t [] = some (fs, k', d') →
        cmp key k' ≠ .equal := by
      intro fs k' d' hdescend
      rw [(AvlTree.reports_iff hdescend).mp hreports]
      decide
    obtain ⟨r, hr⟩ : ∃ r, r = avlDelete m root key cmp f data := ⟨_, rfl⟩
    rw [← hr] at hresult ⊢
    cases hresult with
    | tooLong h => exact absurd h (by unfold avlPathSize; omega)
    | givenUp _ hext hptr => exact ⟨_, rfl, hext, hptr⟩
    | replaced _ hdescend hk => exact absurd hk (hne _ _ _ hdescend)
    | deleted _ hdescend hk => exact absurd hk (hne _ _ _ hdescend)

/-! ## data that stay the same -/

/-- `delete_key` when the update function gives the data that are there. -/
theorem deleteKey_same {g : UpdateFunction} {s : IstState} {i x : Nat}
    (hlive : s.m.Live (s.p + (i + 1))) (hcan : s.m.canAllocate g.maxAllocation)
    (hx : wordToPtr (s.m.words (s.p + (i + 1))) = x) (hsame : (g.apply x data s.m).1 = x) :
    deleteKey root (some g) data s i = some (root, (g.apply x data s.m).2) := by
  have hagree := (g.extends_apply x data s.m hcan).agree _ hlive
  unfold deleteKey
  rw [hx]
  exact if_pos (by rw [hagree, hx, hsame])

/-- When `ist234_delete` returns the old root because nothing changes.  The
allocation point is restored if the key is absent.  If the update function gives
the data that are there already, the allocation point is what it was exactly if
the key is in the root and the function has allocated nothing. -/
theorem ist234_delete_restores (h : IstTreeAt m C root d items) (f : Option UpdateFunction)
    (hcan : m.canAllocate (ist234MaxAllocationInDelete + UpdateFunction.cost f)) (key data : Nat)
    (cmp : CmpFun) :
    (istSearch m.words cmp key d root = .absent →
      RestoresRoot m root (ist234Delete m root key cmp f data)) ∧
    ∀ p i g x, istSearch m.words cmp key d root = .key p i → f = some g →
      x = wordToPtr (m.words (p + (i + 1))) →
      ∃ M, m.Extends M ∧ (FoundAtRoot m root cmp key → M = m) ∧ ((g.apply x data M).1 = x →
        ∃ m', ist234Delete m root key cmp f data = some (root, m') ∧ m.Extends m' ∧
          (m'.allocationPtr = m.allocationPtr ↔ FoundAtRoot m root cmp key ∧
            (g.apply x data m).2.allocationPtr = m.allocationPtr)) := by
  refine ⟨fun he => ist234Delete_givenUp h hcan (.inr he), ?_⟩
  rintro p i g x he rfl rfl
  have hstart := ist234Delete_start h (h.room hcan) key data cmp (some g)
  obtain ⟨r, hr⟩ : ∃ r, r = ist234Delete m root key cmp (some g) data := ⟨_, rfl⟩
  rw [← hr, he] at hstart
  rw [← hr]
  cases hstart with
  | atRoot hroot hi =>
    obtain ⟨d, rfl⟩ : ∃ j, d = j + 1 := by
      cases d with
      | zero => exact absurd ((ptrToWord_eq_zero root).mp h.tree.1) hroot.1
      | succ d => exact ⟨d, rfl⟩
    obtain ⟨fields, hn, -⟩ := h.tree.root
    have hi := (compareKeys_key hn hi).1
    have hlive : m.Live (root + (i + 1)) :=
      h.cells.region ⟨root, _, hn.cell, by omega, by omega⟩
    have hcan' : m.canAllocate g.maxAllocation := canAllocate_mono hcan (Nat.le_add_left _ _)
    exact ⟨m, .refl m, fun _ => rfl, fun hsame => ⟨_, deleteKey_same hlive hcan' rfl hsame,
      g.extends_apply _ _ _ hcan', (and_iff_right hroot).symm⟩⟩
  | below hroot hdown =>
    cases hdown with
    | givenUp he => exact absurd he (by simp)
    | @found C' s _ _ j fields hplace hj hdata hcan' hbelow =>
      have hlive : s.m.Live (s.p + (j + 1)) := hplace.growing.live hplace.node.cell (by omega)
      have hgrows := hplace.growing.grows
      refine ⟨s.m, hgrows, fun hfound => absurd hfound hroot, fun hsame => ?_⟩
      have hx : wordToPtr (s.m.words (s.p + (j + 1))) = wordToPtr (m.words (p + (i + 1))) := by
        rw [hdata]
      have hext := g.extends_apply (wordToPtr (m.words (p + (i + 1)))) data s.m hcan'
      have hle := hext.allocationPtr_le
      exact ⟨_, deleteKey_same hlive hcan' hx hsame, hgrows.trans hext, fun hptr => by omega,
        fun hfound => absurd hfound.1 hroot⟩

/-- The keys from `1` to `4` are inserted. -/
def oneToFour : Option (Nat × Memory) := do
  let (p, m) ← ist234Insert (roomyMemory []) nullPtr 1 (rankCmp id) none 11
  let (p, m) ← ist234Insert m p 2 (rankCmp id) none 12
  let (p, m) ← ist234Insert m p 3 (rankCmp id) none 13
  ist234Insert m p 4 (rankCmp id) none 14

/-- The update function keeps the data of the key `1`, and the old root is
returned with the copy of the root still allocated. -/
theorem ist234Delete_leaves_copy : ∃ p m m', oneToFour = some (p, m) ∧
    ist234Delete m p 1 (rankCmp id) (some keepOld) 0 = some (p, m') ∧
    m'.allocationPtr + 5 = m.allocationPtr :=
  ⟨_, _, _, rfl, rfl, rfl⟩

/-- A tree with the keys from `1` to `4`: the root at the address `10` has the
key `2`, and there is a leaf on each side. -/
def threeNodes : Memory :=
  roomyMemory [(10, CellType.ist234.header + 2), (11, ptrToWord 15), (12, ptrToWord 2),
    (13, ptrToWord 72), (14, ptrToWord 20),
    (15, CellType.ist234.header + 2), (16, nullWord), (17, ptrToWord 1), (18, ptrToWord 71),
    (19, nullWord),
    (20, CellType.ist234.header + 3), (21, nullWord), (22, ptrToWord 3), (23, ptrToWord 73),
    (24, nullWord), (25, ptrToWord 4), (26, ptrToWord 74), (27, nullWord)]

/-- The cells of its nodes. -/
def ThreeCells (p n : Nat) : Prop := (p = 10 ∧ n = 5) ∨ (p = 15 ∧ n = 5) ∨ (p = 20 ∧ n = 8)

theorem threeNodes_tree :
    IstTreeAt threeNodes ThreeCells 10 2 [(1, 71), (2, 72), (3, 73), (4, 74)] where
  addressable := by decide
  cells := by
    unfold ThreeCells
    have hend : threeNodes.firstGenerationEnd = 100 := rfl
    constructor <;> omega
  tree := by
    have hleft : IstAt id threeNodes.words ThreeCells 1 (ptrToWord 15) [(1, 71)] :=
      ⟨15, [nullWord, ptrToWord 1, ptrToWord 71, nullWord], rfl,
        ⟨by decide, by decide, rfl, by decide, .inr (.inl ⟨rfl, rfl⟩)⟩,
        .cons (X := []) ⟨rfl, rfl⟩ (.single ⟨rfl, rfl⟩)⟩
    have hright : IstAt id threeNodes.words ThreeCells 1 (ptrToWord 20) [(3, 73), (4, 74)] :=
      ⟨20, [nullWord, ptrToWord 3, ptrToWord 73, nullWord, ptrToWord 4, ptrToWord 74, nullWord],
        rfl, ⟨by decide, by decide, rfl, by decide, .inr (.inr ⟨rfl, rfl⟩)⟩,
        .cons (X := []) ⟨rfl, rfl⟩ (.cons (X := []) ⟨rfl, rfl⟩ (.single ⟨rfl, rfl⟩))⟩
    exact ⟨10, [ptrToWord 15, ptrToWord 2, ptrToWord 72, ptrToWord 20], rfl,
      ⟨by decide, by decide, rfl, by decide, .inl ⟨rfl, rfl⟩⟩, .cons hleft (.single hright)⟩
  few := by decide

/-- The data of the key in the root are kept, and nothing is left behind. -/
theorem ist234_delete_restores_root :
    ∃ m', ist234Delete threeNodes 10 2 (rankCmp id) (some keepOld) 0 = some (10, m') ∧
      m'.allocationPtr = threeNodes.allocationPtr := by
  have hroot : FoundAtRoot threeNodes 10 (rankCmp id) 2 := ⟨by decide, 2, by decide⟩
  obtain ⟨M, hext, hM, hsame⟩ := (ist234_delete_restores threeNodes_tree (some keepOld)
    (by decide) 2 0 (rankCmp id)).2 10 2 keepOld 72 (by decide) rfl (by decide)
  obtain ⟨m', hrun, -, hptr⟩ := hsame rfl
  exact ⟨m', hrun, hptr.mpr ⟨hroot, rfl⟩⟩

/-- A comparison function that fails at one key. -/
def errorAt (bad : Nat) : CmpFun := fun key key' =>
  if key' = bad then .error else rankCmp id key key'

/-- The error comes with the last comparison, in a leaf below other nodes. -/
theorem errors_restore_last :
    (∃ m root, AvlTreeAt m root (some nineTree) ∧
      RestoresRoot m root (avlInsert m root 9 (errorAt 9) none 0) ∧
      RestoresRoot m root (avlDelete m root 9 (errorAt 9) none 0)) ∧
    RestoresRoot threeNodes 10 (ist234Delete threeNodes 10 5 (errorAt 4) none 0) := by
  obtain ⟨m, -, v, -, -, hcan, -, -, ht, havl, -⟩ := oneToNine_run fun _ _ _ => True
  have htree : AvlTreeAt m v.root (some nineTree) := ht.mono fun _ ha => ha.1
  have hreports : AvlTree.Reports (errorAt 9 9) nineTree := by
    simp [nineTree, AvlTree.branch, errorAt, rankCmp]
  obtain ⟨hinsert, hdelete⟩ := (errors_restore m v.root 9 0 (errorAt 9) none).1 nineTree htree
    havl (by decide) hreports
  exact ⟨⟨m, v.root, htree, hinsert (canAllocate_mono hcan (by decide)),
    hdelete (canAllocate_mono hcan (by decide))⟩,
    (errors_restore threeNodes 10 5 0 (errorAt 4) none).2 _ 2 _ threeNodes_tree (by decide)
      (by decide)⟩

end Shades
