import Shades.Avl.Rebuild

/-!
# Shades.Avl.Compare

`avl_insert` and `avl_delete` with any comparison function, which need not be an
order and may report an error at any of its calls.  The way down is the one
that the comparisons tell, and the rest does not compare any more.

What the operations give is stated as one of several outcomes.  In the first one
the way down is longer than the path, and there is no result.
-/

namespace AvlTree

open Shades

variable {κ δ : Type}

/-! ## the way down in a tree -/

/-- The way down that the comparisons with a key tell, unless one fails. -/
@[simp] def descendBy (c : κ → CmpResult) :
    AvlTree κ δ → List (Frame κ δ) → Option (List (Frame κ δ) × κ × δ)
  | .leaf k d, fs => some (fs, k, d)
  | .node h k l r, fs =>
    if c k = .error then none
    else if c k = .less ∨ c k = .equal then descendBy c l (⟨h, k, true, r⟩ :: fs)
    else descendBy c r (⟨h, k, false, l⟩ :: fs)

/-- One of the comparisons reports an error. -/
@[simp] def Reports (c : κ → CmpResult) : AvlTree κ δ → Prop
  | .leaf k _ => c k = .error
  | .node _ k l r =>
    c k = .error ∨ if c k = .less ∨ c k = .equal then Reports c l else Reports c r

/-- A new leaf beside the leaf with the key `k'`, or in place of it. -/
def putLeaf (c : κ → CmpResult) (k : κ) (d : δ) (k' : κ) (d' : δ) : AvlTree κ δ :=
  if c k' = .equal then .leaf k d
  else if c k' = .less then branch k (.leaf k d) (.leaf k' d')
  else branch k' (.leaf k' d') (.leaf k d)

section trees

variable {c : κ → CmpResult} {t x o : AvlTree κ δ} {fs gs : List (Frame κ δ)} {k : κ} {d : δ}

theorem descendBy_eq_none (fs : List (Frame κ δ)) (h : descendBy c t fs = none) : Reports c t := by
  induction t generalizing fs with
  | leaf => cases h
  | node hh k' l r ihl ihr =>
    simp only [descendBy] at h
    rw [Reports]
    split at h
    · next herr => exact .inl herr
    · split at h
      · next hle => exact .inr (by rw [if_pos hle]; exact ihl _ h)
      · next hgt => exact .inr (by rw [if_neg hgt]; exact ihr _ h)

/-- Only the comparison at the leaf can still report an error. -/
theorem reports_iff (h : descendBy c t fs = some (gs, k, d)) : Reports c t ↔ c k = .error := by
  induction t generalizing fs with
  | leaf k' d' =>
    simp only [descendBy, Option.some.injEq, Prod.mk.injEq] at h
    obtain ⟨-, rfl, -⟩ := h
    rfl
  | node hh k' l r ihl ihr =>
    simp only [descendBy] at h
    split at h
    · cases h
    · next herr =>
      rw [Reports, or_iff_right herr]
      split at h
      · next hle =>
        rw [if_pos hle]
        exact ihl h
      · next hgt =>
        rw [if_neg hgt]
        exact ihr h

theorem plugAll_descendBy (h : descendBy c t fs = some (gs, k, d)) :
    plugAll gs (.leaf k d) = plugAll fs t := by
  induction t generalizing fs with
  | leaf k' d' =>
    simp only [descendBy, Option.some.injEq, Prod.mk.injEq] at h
    obtain ⟨rfl, rfl, rfl⟩ := h
    rfl
  | node hh k' l r ihl ihr =>
    simp only [descendBy] at h
    split at h
    · cases h
    · split at h
      · rw [ihl h]
        rfl
      · rw [ihr h]
        rfl

/-- A way down from an AVL tree has at least half of its height. -/
theorem Avl.height_le_descendBy (havl : t.Avl) (h : descendBy c t fs = some (gs, k, d)) :
    t.height + 2 * fs.length ≤ 2 * gs.length := by
  induction t generalizing fs with
  | leaf k' d' =>
    simp only [descendBy, Option.some.injEq, Prod.mk.injEq] at h
    obtain ⟨rfl, -⟩ := h
    rw [height_leaf]
    omega
  | node hh k' l r ihl ihr =>
    obtain ⟨rfl, hlr, hrl, hl, hr⟩ := havl
    rw [height_node, heightOf_eq]
    simp only [descendBy] at h
    split at h
    · cases h
    · split at h
      · have hle := ihl hl h
        rw [List.length_cons] at hle
        omega
      · have hle := ihr hr h
        rw [List.length_cons] at hle
        omega

/-- The new leaf makes the tree higher by one level at most. -/
theorem inserted_putLeaf (c : κ → CmpResult) (k : κ) (d : δ) (k' : κ) (d' : δ) :
    AfterInsert (.leaf k' d') (putLeaf c k d k' d') := by
  unfold putLeaf
  split
  · exact ⟨trivial, .inl rfl, fun h => absurd h (by simp)⟩
  · split
    all_goals
      refine ⟨avl_branch.mpr ⟨by simp, by simp, trivial, trivial⟩, ?_, ?_⟩
      all_goals simp [heightOf]

/-- A tree stays an AVL tree when a subtree is replaced by one of the same height. -/
theorem avl_plugAll (h : (plugAll fs o).Avl) (hx : x.height = o.height) (hxavl : x.Avl) :
    (plugAll fs x).Avl := by
  induction fs generalizing o x with
  | nil => exact hxavl
  | cons f fs ih =>
    obtain ⟨havl, hheight⟩ := Frame.avl_plug_of_height (avl_of_plugAll fs h) hx hxavl
    exact ih (o := f.plug o) h hheight havl

theorem avl_rebuildAll_insert (h : (plugAll fs o).Avl) (hins : AfterInsert o x) :
    (rebuildAll balanceInsert fs x).Avl := by
  induction fs generalizing o x with
  | nil => exact hins.avl
  | cons f fs ih => exact ih (o := f.plug o) h (hins.rebuild (avl_of_plugAll fs h))

/-- Even if a rotation at the root only leaves the old root, it leaves an AVL
tree. -/
theorem avl_rebuildBelow (h : (plugAll fs o).Avl) (hdel : AfterDelete o x) :
    (rebuildBelow fs x).Avl := by
  induction fs generalizing o x with
  | nil => exact hdel.avl
  | cons f fs ih =>
    have hstep := hdel.rebuild (avl_of_plugAll fs h)
    cases fs with
    | nil =>
      unfold rebuildBelow
      split
      · exact avl_demoted hstep.avl _
      · exact hstep.avl
    | cons f' fs => exact ih (o := f.plug o) h hstep

end trees

end AvlTree

namespace Shades

open Memory AvlTree

variable {κ : Type} {rank : Nat → κ} {S : Nat → Prop} {m₀ m : Memory}
variable {c : κ → CmpResult} {cmp : CmpFun} {key : Nat}

/-! ## the way down in memory -/

/-- The way down has ended at the leaf `pl`. -/
structure AtLeaf (rank : Nat → κ) (S : Nat → Prop) (m₀ : Memory) (fs : List (Frame κ Nat))
    (k' : κ) (d' pl : Nat) (path : List AvlPathEntry) (m : Memory) : Prop where
  working : Working S m₀ m
  pathAt : PathAt rank S m₀ m path fs
  chained : Chained m path pl
  leaf : AvlAt rank m₀.words S pl (.leaf k' d')
  ceiling : m.allocationPtr + 4 * path.length = m₀.allocationPtr

/-- How the way down from the tree `t` ends if the path has room for `n` more
entries, and then has `N` in all.  At the end it has `k` at most. -/
inductive DescentResult (rank : Nat → κ) (S : Nat → Prop) (m₀ : Memory) (c : κ → CmpResult)
    (n k N : Nat) (t : AvlTree κ Nat) (fs : List (Frame κ Nat)) :
    Option (AvlDescent × Memory) → Prop
  | tooLong (h : n < t.height) : DescentResult rank S m₀ c n k N t fs none
  | failed {m' : Memory} (h : descendBy c t fs = none) (hw : Working S m₀ m') :
    DescentResult rank S m₀ c n k N t fs (some (.error, m'))
  | leaf {gs : List (Frame κ Nat)} {k' : κ} {d' pl : Nat} {path : List AvlPathEntry} {m' : Memory}
      (h : descendBy c t fs = some (gs, k', d')) (hleaf : AtLeaf rank S m₀ gs k' d' pl path m')
      (hlen : path.length ≤ k) (hroom : path.length ≤ N) :
    DescentResult rank S m₀ c n k N t fs (some (.leaf pl path, m'))

/-- One level up. -/
theorem DescentResult.up {n k N : Nat} {t t' : AvlTree κ Nat} {fs fs' : List (Frame κ Nat)}
    {r : Option (AvlDescent × Memory)} (h : DescentResult rank S m₀ c n k N t' fs' r)
    (hdescend : descendBy c t fs = descendBy c t' fs') (hheight : t'.height < t.height) :
    DescentResult rank S m₀ c (n + 1) k N t fs r := by
  cases h with
  | tooLong h => exact .tooLong (by omega)
  | failed h hw => exact .failed (hdescend.trans h) hw
  | leaf h hleaf hlen hroom => exact .leaf (hdescend.trans h) hleaf hlen hroom

/-- The way down copies the nodes up to a leaf, or to the first comparison that
fails. -/
theorem avlDescend_result (hcmp : ∀ p, cmp key p = c (rank p)) {n k p : Nat}
    {path : List AvlPathEntry} {t : AvlTree κ Nat} (fs : List (Frame κ Nat))
    (ht : AvlAt rank m₀.words S p t) (hw : Working S m₀ m) (hpath : PathAt rank S m₀ m path fs)
    (hc : m.allocationPtr + 4 * path.length = m₀.allocationPtr) (hchain : Chained m path p)
    (havl : t.Avl) (hk : t.height ≤ k) (hcan : m.canAllocate (4 * k)) :
    DescentResult rank S m₀ c n (path.length + k) (path.length + n) t fs
      (avlDescend cmp key n m path p) := by
  induction t generalizing m path fs p n k with
  | leaf k' d =>
    cases ht with
    | @leaf _ keyw _ hleaf hS =>
      obtain ⟨hint, htype⟩ := (hleaf.congr fun i hi =>
        hw.grows.agree _ (hw.old _ (hS i hi))).not_internal
      unfold avlDescend
      rw [if_neg (by simp [hint]), assert_true htype]
      exact .leaf rfl ⟨hw, hpath, hchain, .leaf hleaf hS, hc⟩ (by omega) (by omega)
  | node h k' l r ihl ihr =>
    obtain ⟨rfl, hlr, hrl, hl, hr⟩ := havl
    have hheight := heightOf_le l r
    rw [height_node] at hk
    obtain ⟨k, rfl⟩ : ∃ j, k = j + 1 := ⟨k - 1, by omega⟩
    cases ht with
    | @node _ _ keyw pl pr _ _ hnode hS htl htr =>
      have hnode' := hnode.congr fun i hi => hw.grows.agree _ (hw.old _ (hS i hi))
      unfold avlDescend
      rw [if_pos hnode'.internal]
      cases n with
      | zero => exact .tooLong (by rw [height_node]; omega)
      | succ n =>
        obtain ⟨q, m₁, hcopy, hptr, hq, hw₁, hpath₁, hchain₁, hnodeq⟩ := copyPathNode_spec hw
          hpath hc hnode' hS (canAllocate_mono hcan (by omega))
        have hcan₁ : m₁.canAllocate (4 * k) := by
          have hend := hw.grows.firstGenerationEnd_eq
          have hend₁ := hw₁.grows.firstGenerationEnd_eq
          unfold Memory.canAllocate at hcan ⊢
          omega
        have hnode₁ := hnode.congr fun i hi => hw₁.grows.agree _ (hw₁.old _ (hS i hi))
        simp only [hcopy, hnode₁.key, hnode₁.left, hnode₁.right, wordToPtr_ptrToWord, hcmp]
        have hleft : FrameAt rank S m₀ m₁ ⟨q, 2⟩ ⟨heightOf l r, rank (wordToPtr keyw), true, r⟩ :=
          ⟨hnodeq.ne_null, hnodeq.height_lt, hnodeq.header, congrArg _ (congrArg _ hnodeq.key), rfl,
            pr, hnodeq.right, htr⟩
        have hright : FrameAt rank S m₀ m₁ ⟨q, 3⟩ ⟨heightOf l r, rank (wordToPtr keyw), false, l⟩ :=
          ⟨hnodeq.ne_null, hnodeq.height_lt, hnodeq.header, congrArg _ (congrArg _ hnodeq.key), rfl,
            pl, hnodeq.left, htl⟩
        have hdownl := ihl (n := n) (_ :: fs) htl hw₁ (.cons hleft (by simp only; omega) hchain₁
          hpath₁) (by rw [List.length_cons]; omega) (chained_cons.mpr hnodeq.left) hl
          (show l.height ≤ k by omega) hcan₁
        have hdownr := ihr (n := n) (_ :: fs) htr hw₁ (.cons hright (by simp only; omega) hchain₁
          hpath₁) (by rw [List.length_cons]; omega) (chained_cons.mpr hnodeq.right) hr
          (show r.height ≤ k by omega) hcan₁
        have hlen : ∀ j, path.length + 1 + j = path.length + (j + 1) := fun j => by omega
        rw [List.length_cons, hlen, hlen] at hdownl hdownr
        cases hresult : c (rank (wordToPtr keyw)) with
        | error => exact .failed (by simp [hresult]) hw₁
        | less => exact hdownl.up (by simp [hresult]) (by rw [height_node]; omega)
        | equal => exact hdownl.up (by simp [hresult]) (by rw [height_node]; omega)
        | greater => exact hdownr.up (by simp [hresult]) (by rw [height_node]; omega)
        | uncomparable => exact hdownr.up (by simp [hresult]) (by rw [height_node]; omega)
        | pleaseContinue => exact hdownr.up (by simp [hresult]) (by rw [height_node]; omega)

/-- The way down from the root. -/
theorem avlDescend_root (hcmp : ∀ p, cmp key p = c (rank p)) {root : Nat} {t : AvlTree κ Nat}
    (ht : AvlAt rank m.words S root t) (hw : Working S m m) (havl : t.Avl)
    (hcan : m.canAllocate (4 * t.height)) :
    DescentResult rank S m c avlPathSize t.height avlPathSize t []
      (avlDescend cmp key avlPathSize m [] root) := by
  have hdown : DescentResult rank S m c avlPathSize (0 + t.height) (0 + avlPathSize) t []
      (avlDescend cmp key avlPathSize m [] root) :=
    avlDescend_result hcmp [] ht hw .nil rfl (chained_nil m root) havl (Nat.le_refl _) hcan
  rwa [Nat.zero_add, Nat.zero_add] at hdown

theorem PathAt.length_eq {path : List AvlPathEntry} {fs : List (Frame κ Nat)}
    (h : PathAt rank S m₀ m path fs) : path.length = fs.length := by
  induction h with
  | nil => rfl
  | cons _ _ _ _ ih => rw [List.length_cons, List.length_cons, ih]

/-! ## insertion -/

/-- The new internal node over a leaf and the new leaf. -/
theorem newFather_result {r : CmpResult} {ceil p pi data : Nat} {k' : κ} {d' : Nat}
    (hw : Working S m₀ m) (hcan : m.canAllocate 4) (hc : m.allocationPtr ≤ ceil)
    (hp : AvlAt rank m.words (Below S m ceil) p (.leaf k' d'))
    (hitem : AvlAt rank m.words (Below S m ceil) pi (.leaf (rank key) data)) (hr : r = c k')
    (hne : r ≠ .equal) :
    ∃ q m', newFather m r key p pi = (q, m') ∧ Writes S m₀ m 4 ceil ceil m' ∧
      AvlAt rank m'.words (Below S m' ceil) q (putLeaf c (rank key) data k' d') := by
  obtain ⟨kw, rfl, hleaf, hS⟩ := hp.leaf_inv
  obtain ⟨q, hq⟩ : ∃ q, q = m.allocationPtr - 4 := ⟨_, rfl⟩
  unfold putLeaf newFather
  rw [← hr, if_neg hne]
  simp only [allocate_fst, ← hq]
  have hheader : (m.allocate 4 .avlInternal).2.words q = CellType.avlInternal.header := by
    rw [allocate_words, if_pos hq]
  rw [hheader]
  by_cases hlt : r = .less
  · obtain ⟨hwrites, htree⟩ := father_spec (ptrToWord key) hw hcan hc hitem hp rfl hq rfl
    rw [wordToPtr_ptrToWord] at htree
    rw [if_pos hlt, if_pos hlt]
    exact ⟨q, _, rfl, hwrites, htree⟩
  · obtain ⟨hwrites, htree⟩ := father_spec kw hw hcan hc hp hitem rfl hq rfl
    rw [if_neg hlt, if_neg hlt]
    refine ⟨q, _, ?_, hwrites, htree⟩
    have hlive : p + 1 ≠ q := by
      have hlive := hw.live (hS 1 (by decide))
      unfold Memory.canAllocate at hcan
      unfold Memory.Live at hlive
      omega
    rw [set_words, if_neg hlive, allocate_words, if_neg (hq ▸ hlive), hleaf.key]

/-- The words that `avl_insert` allocates in a tree of the height `h` at most,
without those of the update function: the copies of the path, the new nodes and
a rotation. -/
def avlInsertWords (h : Nat) : Nat := 4 * h + 15

/-- The call of the update function extends the memory. -/
theorem Working.call {f : Option UpdateFunction} (hw : Working S m₀ m) (x y c : Nat) {k : Nat}
    (hcan : m.canAllocate (k + UpdateFunction.cost f)) :
    ∃ z m' n, UpdateFunction.call f x y m = (z, m') ∧ n ≤ UpdateFunction.cost f ∧
      Writes S m₀ m n c c m' ∧ m'.canAllocate k := by
  have hext := UpdateFunction.extends_call x y (canAllocate_mono hcan (Nat.le_add_left _ k))
  have hcost := UpdateFunction.allocationPtr_call f x y m
  obtain ⟨z, m', hcall⟩ : ∃ z m', UpdateFunction.call f x y m = (z, m') := ⟨_, _, rfl⟩
  rw [hcall] at hext hcost
  dsimp only at hext hcost
  have hle := hext.allocationPtr_le
  have hend := hext.firstGenerationEnd_eq
  unfold Memory.canAllocate at hcan ⊢
  refine ⟨z, m', m.allocationPtr - m'.allocationPtr, hcall, by omega,
    ⟨⟨hw.old, hw.grows.trans hext, by omega⟩, by omega, fun a ha _ => ?_⟩, by omega⟩
  exact hext.agree a (.inr ha)

/-- What `avl_insert` makes of a tree when the way down has ended at a leaf: the
same tree if the leaf has the key and the data already. -/
def storeAt (c : κ → CmpResult) (k : κ) (x : Nat) (fs : List (Frame κ Nat)) (k' : κ) (d' : Nat) :
    AvlTree κ Nat :=
  if c k' = .equal ∧ d' = x then AvlTree.plugAll fs (.leaf k' d')
  else rebuildAll balanceInsert fs (putLeaf c k x k' d')

/-- A tree is built with `n` new words at most. -/
def BuildsTree (rank : Nat → κ) (S : Nat → Prop) (m : Memory) (n : Nat) (t : AvlTree κ Nat)
    (r : Option (Nat × Memory)) : Prop :=
  ∃ q m', r = some (q, m') ∧ m.Extends m' ∧ m.allocationPtr ≤ m'.allocationPtr + n ∧
    AvlAt rank m'.words (Below S m' m.allocationPtr) q t

/-- What was allocated between two states is still there. -/
def KeepsNew (m m' m'' : Memory) : Prop :=
  ∀ a, m'.allocationPtr ≤ a → a < m.allocationPtr → m''.words a = m'.words a

/-- The outcomes of `avl_insert`.  The cells of the update function are kept if the key is
new. -/
inductive InsertOutcome (rank : Nat → κ) (S : Nat → Prop) (m : Memory) (root key : Nat)
    (cmp : CmpFun) (c : κ → CmpResult) (f : Option UpdateFunction) (data : Nat)
    (t : AvlTree κ Nat) : Option (Nat × Memory) → Prop
  | tooLong (h : avlPathSize < t.height) :
    InsertOutcome rank S m root key cmp c f data t none
  | failed {m' : Memory} (h : Reports c t) (hext : m.Extends m')
      (hptr : m'.allocationPtr = m.allocationPtr) :
    InsertOutcome rank S m root key cmp c f data t (some (root, m'))
  | stored {fs : List (Frame κ Nat)} {k' : κ} {d' p : Nat} {path : List AvlPathEntry}
      {M : Memory} {r : Option (Nat × Memory)}
      (hdescend : descendBy c t [] = some (fs, k', d')) (hk : c k' ≠ .error)
      (hrun : avlDescend cmp key avlPathSize m [] root = some (.leaf p path, M))
      (hgrows : m.Extends M)
      (hcan : M.canAllocate (avlInsertWords 0 + UpdateFunction.cost f))
      (hleaf : AvlAt rank m.words S p (.leaf k' d'))
      (hbuilt : BuildsTree rank S m (avlInsertWords t.height + UpdateFunction.cost f)
        (storeAt c (rank key) (UpdateFunction.call f d' data M).1 fs k' d') r)
      (hkept : c k' ≠ .equal → ∀ q m', r = some (q, m') →
        KeepsNew M (UpdateFunction.call f d' data M).2 m') :
    InsertOutcome rank S m root key cmp c f data t r

/-- `avl_insert` into a tree, with any comparison function and any update
function. -/
theorem avlInsert_result (hcmp : ∀ p, cmp key p = c (rank p)) {f : Option UpdateFunction}
    {root : Nat} {t : AvlTree κ Nat} (ht : AvlAt rank m.words S root t)
    (hS : ∀ a, S a → m.Live a) (havl : t.Avl)
    (hcan : m.canAllocate (avlInsertWords t.height + UpdateFunction.cost f)) (data : Nat) :
    InsertOutcome rank S m root key cmp c f data t (avlInsert m root key cmp f data) := by
  have hcan' := hcan
  unfold Memory.canAllocate avlInsertWords at hcan'
  have hw : Working S m m := .start (by omega) hS
  have hdown := avlDescend_root hcmp ht hw havl (by unfold Memory.canAllocate; omega)
  unfold avlInsert
  rw [if_neg ht.ne_null]
  obtain ⟨r, hr⟩ : ∃ r, r = avlDescend cmp key avlPathSize m [] root := ⟨_, rfl⟩
  rw [← hr] at hdown ⊢
  cases hdown with
  | tooLong h => exact .tooLong h
  | @failed m₁ h hw₁ =>
    obtain ⟨hext, -⟩ := hw₁.restore ht
    exact .failed (descendBy_eq_none [] h) hext rfl
  | @leaf fs k' d' pl path m₁ hdescend hleaf hlen hroom =>
    obtain ⟨hw₁, hpath, hchain, hleaf, hceil⟩ := hleaf
    obtain ⟨kw, hk', hwords, -⟩ := (hw₁.tree (c := m₁.allocationPtr) hleaf).leaf_inv
    simp only [Option.bind_eq_bind, Option.bind_some, hwords.key, hwords.data, wordToPtr_ptrToWord,
      hcmp, hk']
    by_cases herr : c k' = .error
    · rw [if_pos herr]
      obtain ⟨hext, -⟩ := hw₁.restore ht
      exact .failed ((reports_iff hdescend).mpr herr) hext rfl
    rw [if_neg herr]
    have hcan₁ : m₁.canAllocate (avlInsertWords 0 + UpdateFunction.cost f) := by
      have hend := hw₁.grows.firstGenerationEnd_eq
      unfold Memory.canAllocate avlInsertWords
      omega
    suffices hbuilt : ∃ q m', _ = some (q, m') ∧ m.Extends m' ∧
        m.allocationPtr ≤ m'.allocationPtr + (avlInsertWords t.height + UpdateFunction.cost f) ∧
        AvlAt rank m'.words (Below S m' m.allocationPtr) q
          (storeAt c (rank key) (UpdateFunction.call f d' data m₁).1 fs k' d') ∧
        (c k' ≠ .equal → KeepsNew m₁ (UpdateFunction.call f d' data m₁).2 m') by
      obtain ⟨q, m', hrun, hext, hptr, htree, hkept⟩ := hbuilt
      refine .stored hdescend herr hr.symm hw₁.grows hcan₁ hleaf ⟨q, m', hrun, hext, hptr, htree⟩
        fun hne q' m'' hrun' => ?_
      obtain ⟨rfl, rfl⟩ := Prod.mk.inj (Option.some.inj (hrun.symm.trans hrun'))
      exact hkept hne
    have hplug := plugAll_descendBy hdescend
    rw [AvlTree.plugAll] at hplug
    have havl' : (AvlTree.plugAll fs (.leaf k' d')).Avl := hplug ▸ havl
    have hheight : t.height ≤ 2 * avlPathSize := by
      have hle := havl.height_le_descendBy hdescend
      rw [List.length_nil] at hle
      rw [hpath.length_eq] at hroom
      omega
    obtain ⟨data', m₂, n, hcall, hn, hcalled, hcan₂⟩ := hw₁.call d' data m₁.allocationPtr hcan₁
    have hptr₂ := hcalled.allocationPtr_eq
    have hw₂ := hcalled.working
    have hleaf₂ := hw₂.tree (c := m₁.allocationPtr) hleaf
    obtain ⟨kw₂, -, hwords₂, -⟩ := hleaf₂.leaf_inv
    rw [hcall]
    simp only [hwords₂.data]
    unfold avlInsertWords at hcan₂
    unfold storeAt avlInsertWords
    by_cases heq : c k' = .equal
    · rw [if_pos heq]
      by_cases hsame : d' = data'
      · -- the call is nilpotent
        obtain ⟨hext, htree⟩ := hw₂.restore ht
        rw [if_pos (congrArg ptrToWord hsame), if_pos ⟨heq, hsame⟩, hplug]
        exact ⟨root, _, rfl, hext, Nat.le_add_right _ _, htree, fun hne => absurd heq hne⟩
      · rw [if_neg fun h => hsame (by simpa [ptrToWord] using h), if_neg fun h => hsame h.2,
          putLeaf, if_pos heq,
          (rebuildAll_eq_plugAll havl' (x := .leaf (rank key) data') rfl trivial).1]
        obtain ⟨q, m₃, hnew, hwrites, htree⟩ := newAvlLeaf_spec rank hw₂
          (canAllocate_mono hcan₂ (by omega)) (c := m₁.allocationPtr) (by omega) (ptrToWord key)
          data'
        rw [wordToPtr_ptrToWord] at htree
        have hboth := hcalled.trans hwrites
        obtain ⟨hchained, hpath', hchain', htree'⟩ := hpath.chain hceil (Nat.le_refl _) hboth
          (Nat.le_refl _) htree
        have hptr := hboth.allocationPtr_eq
        have hptr' := hchained.allocationPtr_eq
        rw [hnew]
        exact ⟨firstNode path q, chainSon path q m₃, rfl, hchained.working.grows, by omega,
          hpath'.plugAll hchained.working hceil (by omega) hchain' htree',
          fun hne => absurd heq hne⟩
    · rw [if_neg heq, if_neg fun h => heq h.1]
      obtain ⟨pi, m₃, hnew, hwrites, hitem⟩ := newAvlLeaf_spec rank hw₂
        (canAllocate_mono hcan₂ (by omega)) (c := m₁.allocationPtr) (by omega) (ptrToWord key) data'
      rw [wordToPtr_ptrToWord] at hitem
      have hleaf₃ := hwrites.tree hw₂ (Nat.le_refl _) (Nat.le_refl _) hleaf₂
      have hptr := hwrites.allocationPtr_eq
      obtain ⟨q, m₄, hfather, hwrites', htree⟩ := newFather_result (r := c k') hwrites.working
        (hwrites.canAllocate hw₂ (canAllocate_mono hcan₂ (by omega))) (by omega) hleaf₃ hitem
        rfl heq
      have hboth := hcalled.trans (hwrites.trans hwrites')
      obtain ⟨hchained, hpath', hchain', htree'⟩ := hpath.chain hceil (Nat.le_refl _) hboth
        (Nat.le_refl _) htree
      have hptr' := hboth.allocationPtr_eq
      have hptr'' := hchained.allocationPtr_eq
      obtain ⟨q', m₅, hup, hw₅, hptr₅, htree₅, hkept₅⟩ := avlInsertUp_spec hpath'
        hchained.working hceil (by omega) hchain' htree' (hchained.canAllocate hwrites'.working
          (hwrites'.canAllocate hwrites.working (hwrites.canAllocate hw₂
            (canAllocate_mono hcan₂ (by omega)))))
        (inserted_putLeaf c (rank key) data' k' d') havl' (by
          unfold avlPathSize at hheight
          rw [hplug]
          omega)
      rw [hnew]
      simp only [hfather]
      refine ⟨q', m₅, hup, hw₅.grows, by omega, htree₅, fun _ a ha ha' => ?_⟩
      have hptr₄ := hwrites'.allocationPtr_eq
      have hptr₃ := hwrites.allocationPtr_eq
      rw [hkept₅ a (by omega) ha', hchained.agree a (by omega) (.inl ha'),
        hwrites'.agree a (by omega) (.inl ha'), hwrites.agree a ha (.inl ha')]

/-! ## deletion -/

/-- The words that `avl_delete` allocates in a tree of the height `h` at most,
without those of the update function: the copies of the path with a rotation for
each, or a new leaf. -/
def avlDeleteWords (h : Nat) : Nat := 12 * h + 3

/-- What `avl_delete` makes of a tree: `NULL_PTR` if nothing is left. -/
def AvlOrNull (rank : Nat → κ) (words : Nat → Nat) (S : Nat → Prop) (p : Nat) :
    Option (AvlTree κ Nat) → Prop
  | none => p = nullPtr
  | some t => AvlAt rank words S p t

/-- A tree is built with `n` new words at most, if anything is left. -/
def BuildsRest (rank : Nat → κ) (S : Nat → Prop) (m : Memory) (n : Nat)
    (t : Option (AvlTree κ Nat)) (r : Option (Nat × Memory)) : Prop :=
  ∃ q m', r = some (q, m') ∧ m.Extends m' ∧ m.allocationPtr ≤ m'.allocationPtr + n ∧
    AvlOrNull rank m'.words (Below S m' m.allocationPtr) q t

/-- The outcomes of `avl_delete`. -/
inductive DeleteOutcome (rank : Nat → κ) (S : Nat → Prop) (m : Memory) (root : Nat)
    (c : κ → CmpResult) (f : Option UpdateFunction) (data : Nat) (t : AvlTree κ Nat) :
    Option (Nat × Memory) → Prop
  | tooLong (h : avlPathSize < t.height) : DeleteOutcome rank S m root c f data t none
  | givenUp {m' : Memory}
      (h : ∀ fs k' d', descendBy c t [] = some (fs, k', d') → c k' ≠ .equal)
      (hext : m.Extends m') (hptr : m'.allocationPtr = m.allocationPtr) :
    DeleteOutcome rank S m root c f data t (some (root, m'))
  | replaced {g : UpdateFunction} {fs : List (Frame κ Nat)} {k' : κ} {d' : Nat} {M : Memory}
      {r : Option (Nat × Memory)} (hf : f = some g)
      (hdescend : descendBy c t [] = some (fs, k', d')) (hk : c k' = .equal) (hgrows : m.Extends M)
      (hbuilt : BuildsTree rank S m (avlDeleteWords t.height + UpdateFunction.cost f)
        (AvlTree.plugAll fs (.leaf k' (g.apply d' data M).1)) r) :
    DeleteOutcome rank S m root c f data t r
  | deleted {fs : List (Frame κ Nat)} {k' : κ} {d' : Nat} {r : Option (Nat × Memory)}
      (hf : f = none) (hdescend : descendBy c t [] = some (fs, k', d')) (hk : c k' = .equal)
      (hbuilt : BuildsRest rank S m (avlDeleteWords t.height) (withoutLeafBelow fs) r) :
    DeleteOutcome rank S m root c f data t r

section delete

variable {fs : List (Frame κ Nat)} {k' : κ} {d' pl root n : Nat} {path : List AvlPathEntry}
variable {t : AvlTree κ Nat}

/-- The data of the leaf are replaced by what the update function makes of
them. -/
theorem AtLeaf.replace {m₁ : Memory} (hleaf : AtLeaf rank S m fs k' d' pl path m₁)
    (g : UpdateFunction) (data : Nat) (ht : AvlAt rank m.words S root t)
    (hplug : AvlTree.plugAll fs (.leaf k' d') = t)
    (hcan : m₁.canAllocate (3 + UpdateFunction.cost (some g)))
    (hn : 4 * path.length + 3 ≤ n) :
    BuildsTree rank S m (n + UpdateFunction.cost (some g))
      (AvlTree.plugAll fs (.leaf k' (g.apply d' data m₁).1))
      (if (g.apply d' data m₁).2.words (pl + 2) = ptrToWord (g.apply d' data m₁).1 then
        some (root, (g.apply d' data m₁).2.restoreAllocationPoint m.allocationPtr)
      else
        some (firstNode path (newAvlLeaf (g.apply d' data m₁).2
            ((g.apply d' data m₁).2.words (pl + 1)) (g.apply d' data m₁).1).1,
          chainSon path (newAvlLeaf (g.apply d' data m₁).2
            ((g.apply d' data m₁).2.words (pl + 1)) (g.apply d' data m₁).1).1
            (newAvlLeaf (g.apply d' data m₁).2
              ((g.apply d' data m₁).2.words (pl + 1)) (g.apply d' data m₁).1).2)) := by
  obtain ⟨hw₁, hpath, hchain, hold, hceil⟩ := hleaf
  obtain ⟨data', m₂, k, hcall, hk, hcalled, hcan₂⟩ := hw₁.call d' data m₁.allocationPtr hcan
  have happly : g.apply d' data m₁ = (data', m₂) := hcall
  have hptr₂ := hcalled.allocationPtr_eq
  have hw₂ := hcalled.working
  obtain ⟨kw, hkw, hwords, -⟩ := (hw₂.tree (c := m₁.allocationPtr) hold).leaf_inv
  rw [happly]
  simp only [hwords.data, hwords.key]
  by_cases hsame : d' = data'
  · obtain ⟨hext, htree⟩ := hw₂.restore ht
    rw [if_pos (congrArg ptrToWord hsame), ← hsame, hplug]
    exact ⟨root, _, rfl, hext, Nat.le_add_right _ _, htree⟩
  · rw [if_neg fun h => hsame (by simpa [ptrToWord] using h)]
    obtain ⟨q, m₃, hnew, hwrites, htree⟩ := newAvlLeaf_spec rank hw₂ hcan₂
      (c := m₁.allocationPtr) (by omega) kw data'
    rw [hkw] at htree
    have hboth := hcalled.trans hwrites
    obtain ⟨hchained, hpath', hchain', htree'⟩ := hpath.chain hceil (Nat.le_refl _) hboth
      (Nat.le_refl _) htree
    have hptr := hboth.allocationPtr_eq
    have hptr' := hchained.allocationPtr_eq
    rw [hnew]
    exact ⟨firstNode path q, chainSon path q m₃, rfl, hchained.working.grows, by omega,
      hpath'.plugAll hchained.working hceil (by omega) hchain' htree'⟩

/-- `avl_delete` when the key is at the leaf and there is no update function. -/
theorem AtLeaf.delete {m₁ : Memory} (hleaf : AtLeaf rank S m fs k' d' pl path m₁)
    (hrun : avlDescend cmp key avlPathSize m [] root = some (.leaf pl path, m₁))
    (hcmp : ∀ p, cmp key p = c (rank p)) (hk : c k' = .equal) (hroot : root ≠ nullPtr) (data : Nat)
    (havl : (AvlTree.plugAll fs (.leaf k' d')).Avl)
    (hheight : (AvlTree.plugAll fs (.leaf k' d')).height < 2 ^ 24)
    (hcan : m₁.canAllocate (8 * path.length)) (hn : 12 * path.length ≤ n) :
    BuildsRest rank S m n (withoutLeafBelow fs) (avlDelete m root key cmp none data) := by
  obtain ⟨hw₁, hpath, hchain, hold, hceil⟩ := hleaf
  obtain ⟨kw, hkw, hwords, -⟩ := (hw₁.tree (c := 0) hold).leaf_inv
  unfold avlDelete
  rw [if_neg hroot, hrun]
  simp only [Option.bind_eq_bind, Option.bind_some, ne_eq, hwords.key, hcmp, hkw, hk, not_true,
    if_false]
  cases hpath with
  | nil => exact ⟨nullPtr, m₁, rfl, hw₁.grows, by omega, rfl⟩
  | @cons e f path fs hframe hnode hchain' hpath =>
    rw [List.length_cons] at hceil hn hcan
    obtain ⟨ps, hps, hsib⟩ := hframe.sibling
    have hson : m₁.words (e.node + ((e.son + 1) % 2 + 2)) = ptrToWord ps := by
      rw [← hps, hframe.son]
      split <;> rfl
    simp only [hson]
    cases hpath with
    | nil =>
      refine ⟨ps, m₁, by rw [wordToPtr_ptrToWord], hw₁.grows, ?_, hw₁.tree hsib⟩
      omega
    | @cons e' f' path fs hframe' hnode' hchain'' hpath' =>
      obtain ⟨path', hpath'_eq⟩ : ∃ path', path' = e' :: path := ⟨_, rfl⟩
      obtain ⟨fs', hfs'_eq⟩ : ∃ fs', fs' = f' :: fs := ⟨_, rfl⟩
      have hpath'' : PathAt rank S m m₁ path' fs' := by
        rw [hpath'_eq, hfs'_eq]
        exact .cons hframe' hnode' hchain'' hpath'
      have hset : m₁.set (e'.node + e'.son) (ptrToWord ps) = chainSon path' ps m₁ := by
        rw [hpath'_eq]
        rfl
      have hfirst : firstNode (e' :: path) nullPtr = firstNode path' ps := by
        rw [hpath'_eq, firstNode_cons, firstNode_cons]
      dsimp only
      rw [hset, hfirst, ← hpath'_eq]
      rw [← hpath'_eq] at hnode hceil hn hcan
      rw [← hfs'_eq, AvlTree.plugAll] at havl hheight
      rw [← hfs'_eq]
      have hfplug := Frame.avl_plug (avl_of_plugAll _ havl)
      have hdel : AfterDelete (f.plug (.leaf k' d')) f.sibling := by
        refine ⟨hfplug.2.2.2.2, .inr ?_⟩
        rw [hfplug.1, heightOf_eq, height_leaf, Nat.max_eq_right (Nat.zero_le _)]
      obtain ⟨hchained, hpath₂, hchain₂, htree₂⟩ := hpath''.chain (c := e.node + 4) (by omega)
        (by omega) (Writes.refl hw₁ 0 0) (Nat.zero_le _) (hw₁.tree hsib)
      have hptr₂ := hchained.allocationPtr_eq
      obtain ⟨q, m', hup, hw', hptr', htree'⟩ := avlDeleteUp_spec hpath₂ hchained.working (by omega)
        (by omega) hchain₂ htree₂ (hchained.canAllocate hw₁ (canAllocate_mono hcan (by omega)))
        hdel havl hheight
      exact ⟨q, m', hup, hw'.grows, by omega, htree'⟩

/-- `avl_delete` from a tree, with any comparison function and any update
function. -/
theorem avlDelete_result (hcmp : ∀ p, cmp key p = c (rank p)) {f : Option UpdateFunction}
    (ht : AvlAt rank m.words S root t) (hS : ∀ a, S a → m.Live a) (havl : t.Avl)
    (hcan : m.canAllocate (avlDeleteWords t.height + UpdateFunction.cost f)) (data : Nat) :
    DeleteOutcome rank S m root c f data t (avlDelete m root key cmp f data) := by
  have hcan' := hcan
  unfold Memory.canAllocate avlDeleteWords at hcan'
  have hw : Working S m m := .start (by omega) hS
  have hdown := avlDescend_root hcmp ht hw havl (by unfold Memory.canAllocate; omega)
  obtain ⟨r, hr⟩ : ∃ r, r = avlDescend cmp key avlPathSize m [] root := ⟨_, rfl⟩
  rw [← hr] at hdown
  cases hdown with
  | tooLong h =>
    unfold avlDelete
    rw [if_neg ht.ne_null, ← hr]
    exact .tooLong h
  | @failed m₁ h hw₁ =>
    obtain ⟨hext, -⟩ := hw₁.restore ht
    unfold avlDelete
    rw [if_neg ht.ne_null, ← hr]
    exact .givenUp (fun fs k' d' hdescend => by rw [hdescend] at h; cases h) hext rfl
  | @leaf fs k' d' pl path m₁ hdescend hleaf hlen hroom =>
    have hplug := plugAll_descendBy hdescend
    rw [AvlTree.plugAll] at hplug
    obtain ⟨kw, hkw, hwords, -⟩ := (hleaf.working.tree (c := m₁.allocationPtr) hleaf.leaf).leaf_inv
    have hceil := hleaf.ceiling
    have hend := hleaf.working.grows.firstGenerationEnd_eq
    by_cases heq : c k' = .equal
    · cases f with
      | none =>
        have hheight : t.height ≤ 2 * avlPathSize := by
          have hle := havl.height_le_descendBy hdescend
          rw [List.length_nil] at hle
          rw [hleaf.pathAt.length_eq] at hroom
          omega
        refine .deleted rfl hdescend heq (hleaf.delete hr.symm hcmp heq ht.ne_null data
          (hplug ▸ havl) ?_ ?_ ?_)
        · unfold avlPathSize at hheight
          rw [hplug]
          omega
        · unfold Memory.canAllocate
          omega
        · unfold avlDeleteWords
          omega
      | some g =>
        have hbuilt := hleaf.replace (n := avlDeleteWords t.height) g data ht hplug (by
          unfold Memory.canAllocate
          omega) (by unfold avlDeleteWords; omega)
        unfold avlDelete
        rw [if_neg ht.ne_null, ← hr]
        simp only [Option.bind_eq_bind, Option.bind_some, ne_eq, hwords.key, hwords.data,
          wordToPtr_ptrToWord, hcmp, hkw, heq, not_true, if_false]
        exact .replaced rfl hdescend heq hleaf.working.grows hbuilt
    · obtain ⟨hext, -⟩ := hleaf.working.restore ht
      unfold avlDelete
      rw [if_neg ht.ne_null, ← hr]
      simp only [Option.bind_eq_bind, Option.bind_some, ne_eq, hwords.key, hcmp, hkw, heq,
        not_false_eq_true, if_true]
      refine .givenUp (fun fs₁ k₁ d₁ h₁ => ?_) hext rfl
      rw [hdescend] at h₁
      cases h₁
      exact heq

end delete

end Shades
