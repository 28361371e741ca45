import Shades.Ist234.Levels

/-!
# Shades.Ist234.Operations

`ist234_find` and `ist234_insert` on the roots of trees.  `IstRoot` is the
invariant of a root: the tree has the same number of levels everywhere, one to
three keys at every node, and its items are sorted.

`ist234_insert` tests the wrong data when the key is the second key of its
node, so it does nothing if the new data are those of the first key there
(`LosesUpdate`).
-/

namespace Shades

open Memory SortedItems

variable {κ : Type}

/-! ## the end of an insertion -/

section update

variable {rank : Nat → κ} {C : Nat → Nat → Prop} {m : Memory} {d p root : Nat}
variable {P Q : List (κ × Nat)} {path : List IstPathEntry}

/-- `ist234_insert` of a key that is absent. -/
theorem ist234Insert_absent {cmp : CmpFun} {key : Nat}
    (hrun : istDescend m.words cmp key ist234PathSize [] root = some (.absent path)) (data : Nat) :
    ist234Insert m root key cmp none data =
      some (istInsertUp path nullPtr key data nullPtr m) := by
  unfold ist234Insert
  rw [hrun]
  rfl

/-- `ist234_insert` of a key that is there, without an update function. -/
theorem ist234Insert_key {cmp : CmpFun} {key i : Nat}
    (hrun : istDescend m.words cmp key ist234PathSize [] root = some (.key p i path))
    (data : Nat) :
    ist234Insert m root key cmp none data =
      if wordToPtr (m.words (p + testedData i)) = data then some (root, m)
      else
        let (newP, m₁) := copyNode m p
        some (istUpdate path newP (m₁.set (newP + (i + 1)) (ptrToWord data))) := by
  unfold ist234Insert
  rw [hrun]
  rfl

/-- The data of a key that was found are set. -/
theorem update_spec {path : List IstPathEntry} {L R : List Nat} {c kw dw c' : Nat}
    {X Y P' Q' : List (κ × Nat)} (hm : Growing C m C m)
    (hnode : IstNode m.words C p (L ++ c :: kw :: dw :: c' :: R))
    (hL : SonsBefore rank (IstAt rank m.words C d) L P) (hc : IstAt rank m.words C d c X)
    (hc' : IstAt rank m.words C d c' Y) (hR : SonsAfter rank (IstAt rank m.words C d) R Q)
    (hpath : IstPathAt rank m.words C (d + 1) path P' Q')
    (hcan : m.canAllocate (11 + 11 * path.length)) (data : Nat) :
    ∃ q m₁, copyNode m p = (q, m₁) ∧
      BuiltTree rank C m (11 + 11 * path.length) C m (d + 1 + path.length)
        (P' ++ (P ++ X) ++ (rank (wordToPtr kw), data) :: (Y ++ Q ++ Q'))
        (istUpdate path q (m₁.set (q + (L.length + 2 + 1)) (ptrToWord data))) := by
  have hfields : L ++ c :: kw :: dw :: c' :: R = (L ++ [c, kw]) ++ dw :: (c' :: R) := by simp
  rw [hfields] at hnode
  have hlen := hnode.length
  obtain ⟨q, m₁, C₁, hrun, hbuild, hnode'⟩ := copyNode_set (x := ptrToWord data) hm hnode
    (canAllocate_mono hcan (by omega))
  have hsons : Sons rank (IstAt rank m.words C d)
      ((L ++ [c, kw]) ++ ptrToWord data :: (c' :: R))
      (P ++ (X ++ (rank (wordToPtr kw), data) :: Y) ++ Q) := by
    have haround : Sons rank _ _ _ := .around hL (.join (.single hc) (.single hc') kw
      (ptrToWord data)) hR
    simpa [item] using haround
  have htree : IstAt rank (m₁.set (q + ((L ++ [c, kw]).length + 1)) (ptrToWord data)).words C₁
      (d + 1) (ptrToWord q) (P ++ (X ++ (rank (wordToPtr kw), data) :: Y) ++ Q) :=
    ⟨q, _, rfl, hnode', hsons.mono fun _ _ hson => hbuild.tree hm (fun _ _ hW => hW) hson⟩
  have hup := (istUpdate_spec hpath hbuild.growing htree (hbuild.canAllocate hm
    (canAllocate_mono hcan (by omega)))).after hm hbuild (l := 11 + 11 * path.length) (by omega)
  refine ⟨q, m₁, hrun, ?_⟩
  simpa using hup

end update

/-! ## roots -/

variable [LinearOrder κ]

/-- A root of a tree in memory. -/
structure IstRoot (rank : Nat → κ) (m : Memory) (root : Nat) (items : List (κ × Nat)) : Prop where
  addressable : m.allocationPtr ≤ 2 ^ 30
  tree : ∃ d C, IstCells C m ∧ IstAt rank m.words C d (ptrToWord root) items
  sorted : Sorted items

variable {rank : Nat → κ} {C₀ C : Nat → Nat → Prop} {m₀ m : Memory} {d n p root : Nat}
variable {X P Q items : List (κ × Nat)} {path : List IstPathEntry}

theorem IstRoot.null {m : Memory} (h : m.allocationPtr ≤ 2 ^ 30) :
    IstRoot rank m nullPtr [] :=
  ⟨h, ⟨0, fun _ _ => False, ⟨fun _ _ hc => hc.elim, fun _ _ _ _ hc => hc.elim,
    fun _ _ hc => hc.elim⟩, rfl, rfl⟩, sorted_nil⟩

/-- A tree stays when cells are allocated and filled. -/
theorem IstRoot.frame (h : IstRoot rank m root items) {m' : Memory} (hext : m.Extends m') :
    IstRoot rank m' root items := by
  obtain ⟨haddr, ⟨d, C, hC, ht⟩, hsorted⟩ := h
  have hle := hext.allocationPtr_le
  have hend := hext.firstGenerationEnd_eq
  refine ⟨by omega, ⟨d, C, ⟨fun p n hc => ?_, hC.apart, hC.addressable⟩,
    ht.frame (fun _ _ hc => hc) (hext.agree.mono fun _ ha => hC.region ha)⟩, hsorted⟩
  have hlive := hC.live p n hc
  omega

/-- Only the empty tree is null. -/
theorem IstRoot.null_iff (h : IstRoot rank m root items) : root = nullPtr ↔ items = [] := by
  obtain ⟨-, ⟨d, C, -, ht⟩, -⟩ := h
  have hnull := ht.null_iff
  have hroot : ptrToWord root = nullWord ↔ root = nullPtr := ptrToWord_eq_zero root
  rw [← hroot, hnull]
  cases d with
  | zero => simp [ht.2]
  | succ d => simp [ht.ne_nil]

/-- `ist234_find` on a root. -/
theorem IstRoot.find (h : IstRoot rank m root items) (key : Nat) :
    ist234Find m.words root key (rankCmp rank) =
      some ((items.lookup (rank key)).getD nullPtr) := by
  obtain ⟨-, ⟨d, C, hC, ht⟩, hsorted⟩ := h
  have hlevels := ht.levels_le hC hsorted
  exact ist234Find_spec ht hsorted (by unfold ist234PathSize; omega) key

/-- `ist234_find_min` on a root. -/
theorem IstRoot.findMin (h : IstRoot rank m root items) :
    ist234FindMin m.words root = some ((items.head?.map Prod.snd).getD nullPtr) := by
  obtain ⟨-, ⟨d, C, hC, ht⟩, hsorted⟩ := h
  have hlevels := ht.levels_le hC hsorted
  exact ist234FindMin_spec ht (by unfold ist234PathSize; omega)

/-! ## the way down of an insertion -/

/-- The end of the way down, in a tree of `k` levels. -/
inductive Descended (rank : Nat → κ) (words : Nat → Nat) (C : Nat → Nat → Prop) (k : κ) :
    Nat → List (κ × Nat) → IstDescent → Prop
  | absent {path : List IstPathEntry} {P Q : List (κ × Nat)}
      (hpath : IstPathAt rank words C 0 path P Q) (hP : KeysBelow P k) (hQ : KeysAbove Q k) :
      Descended rank words C k path.length (P ++ Q) (.absent path)
  | key {d p c kw dw c' : Nat} {path : List IstPathEntry} {L R : List Nat}
      {P X Y Q P' Q' : List (κ × Nat)}
      (hnode : IstNode words C p (L ++ c :: kw :: dw :: c' :: R)) (hkey : rank (wordToPtr kw) = k)
      (hL : SonsBefore rank (IstAt rank words C d) L P) (hc : IstAt rank words C d c X)
      (hc' : IstAt rank words C d c' Y) (hR : SonsAfter rank (IstAt rank words C d) R Q)
      (hpath : IstPathAt rank words C (d + 1) path P' Q') (hP : KeysBelow (P' ++ (P ++ X)) k)
      (hQ : KeysAbove (Y ++ Q ++ Q') k) :
      Descended rank words C k (d + 1 + path.length)
        (P' ++ (P ++ X) ++ item rank kw dw :: (Y ++ Q ++ Q')) (.key p (L.length + 2) path)

theorem istDescend_spec {words : Nat → Nat} (ht : IstAt rank words C d (ptrToWord p) X)
    (hpath : IstPathAt rank words C d path P Q) (hsorted : Sorted (P ++ X ++ Q)) (key : Nat)
    (hP : KeysBelow P (rank key)) (hQ : KeysAbove Q (rank key)) (hn : d ≤ n) :
    ∃ r, istDescend words (rankCmp rank) key n path p = some r ∧
      Descended rank words C (rank key) (d + path.length) (P ++ X ++ Q) r := by
  induction d generalizing n p X path P Q with
  | zero =>
    obtain ⟨hp, rfl⟩ := ht
    obtain rfl : p = nullPtr := by simpa [nullWord, nullPtr] using hp
    unfold istDescend
    rw [if_pos rfl, Nat.zero_add, List.append_nil]
    exact ⟨_, rfl, .absent hpath hP hQ⟩
  | succ d ih =>
    obtain ⟨n, rfl⟩ : ∃ j, n = j + 1 := ⟨n - 1, by omega⟩
    obtain ⟨fields, hnode, hsons⟩ := ht.root
    have hlocated := compareKeys_located hnode hsons hsorted.part key
    unfold istDescend
    rw [if_neg hnode.ne_null, assert_true hnode.cellType_eq]
    simp only [Option.bind_eq_bind, Option.bind_some]
    obtain ⟨s, hs⟩ : ∃ s, s = compareKeys words (rankCmp rank) key p := ⟨_, rfl⟩
    rw [← hs] at hlocated ⊢
    cases hlocated with
    | @key L R c kw dw c' P' X Y Q' hkey hL hc hc' hR hbelow habove =>
      refine ⟨_, rfl, ?_⟩
      have hitems : P ++ (P' ++ X ++ item rank kw dw :: (Y ++ Q')) ++ Q =
          P ++ (P' ++ X) ++ item rank kw dw :: (Y ++ Q' ++ Q) := by simp
      rw [hitems]
      exact .key hnode hkey hL hc hc' hR hpath (below_append.mpr ⟨hP, hbelow⟩)
        (above_append.mpr ⟨habove, hQ⟩)
    | @son L R c P' X Q' hL hc hR hbelow habove =>
      dsimp only
      obtain ⟨q, rfl⟩ := hc.pointer
      rw [hnode.word, wordToPtr_ptrToWord]
      have hitems : P ++ (P' ++ X ++ Q') ++ Q = P ++ P' ++ X ++ (Q' ++ Q) := by simp
      rw [hitems] at hsorted ⊢
      rw [show d + 1 + path.length = d + (⟨p, L.length + 1⟩ :: path : List IstPathEntry).length by
        rw [List.length_cons]; omega]
      exact ih hc (.cons hnode hL hR hpath) hsorted (below_append.mpr ⟨hP, hbelow⟩)
        (above_append.mpr ⟨habove, hQ⟩) (by omega)

/-! ## insertion -/

/-- The key is the second key of its node, and the new data are those of the
first key there, though not those of the key. -/
def LosesUpdate (words : Nat → Nat) (root key : Nat) (cmp : CmpFun) (data : Nat) : Prop :=
  ∃ p path, istDescend words cmp key ist234PathSize [] root = some (.key p 5 path) ∧
    wordToPtr (words (p + 3)) = data ∧ wordToPtr (words (p + 6)) ≠ data

/-- A root that was built. -/
theorem BuiltTree.istRoot {r : Nat × Memory} (h : BuiltTree rank C m n C m d items r)
    (hsorted : Sorted items) :
    m.Extends r.2 ∧ m.allocationPtr ≤ r.2.allocationPtr + n ∧ IstRoot rank r.2 r.1 items := by
  obtain ⟨C', hbuild, ht⟩ := h
  exact ⟨hbuild.growing.grows, hbuild.le_allocationPtr, hbuild.growing.addressable,
    ⟨d, C', hbuild.growing.cells, ht⟩, hsorted⟩

/-- `ist234_insert` sets the data of the key, unless the update is lost. -/
theorem IstRoot.insert (h : IstRoot rank m root items)
    (hcan : m.canAllocate ist234MaxAllocationInInsert) (key data : Nat) :
    ∃ q m', ist234Insert m root key (rankCmp rank) none data = some (q, m') ∧ m.Extends m' ∧
      m.allocationPtr ≤ m'.allocationPtr + ist234MaxAllocationInInsert ∧
      (¬ LosesUpdate m.words root key (rankCmp rank) data →
        IstRoot rank m' q (put (rank key) data items)) ∧
      (LosesUpdate m.words root key (rankCmp rank) data → q = root ∧ m' = m ∧
        ∃ y, y ≠ data ∧ items.lookup (rank key) = some y) := by
  have hroot := h
  obtain ⟨haddr, ⟨d, C, hC, ht⟩, hsorted⟩ := h
  have hlevels := ht.levels_le hC hsorted
  have hm : Growing C m C m := .start (by unfold Memory.canAllocate at hcan; omega) haddr hC
  have hdescend : ∃ r, istDescend m.words (rankCmp rank) key ist234PathSize [] root = some r ∧
      Descended rank m.words C (rank key) d items r := by
    simpa using istDescend_spec (n := ist234PathSize) ht .nil (by simpa using hsorted) key
      below_nil above_nil (by unfold ist234PathSize; omega)
  obtain ⟨r, hrun, hdesc⟩ := hdescend
  unfold LosesUpdate
  rw [hrun]
  simp only [Option.some.injEq]
  cases hdesc with
  | @absent path P Q hpath hP hQ =>
    have hnull : IstAt rank m.words C 0 (ptrToWord nullPtr) [] := ⟨rfl, rfl⟩
    rw [ist234Insert_absent hrun]
    obtain ⟨d', hbuilt⟩ := istInsertUp_spec key data hpath hm hnull hnull
      (canAllocate_mono hcan (hpath.insertCost_le hC hsorted hlevels))
    rw [List.append_nil, List.nil_append, ← put_absent hP hQ] at hbuilt
    obtain ⟨hext, hptr, hroot'⟩ := hbuilt.istRoot (hsorted.put _ _)
    have hcost := hpath.insertCost_le hC hsorted hlevels
    exact ⟨_, _, rfl, hext, by omega, fun _ => hroot', by simp⟩
  | @key d p c kw dw c' path L R P X Y Q P' Q' hnode hkey hL hc hc' hR hpath hP hQ =>
    have hlen := hnode.length
    have hL3 := hL.length
    have hdata : m.words (p + (L.length + 2 + 1)) = dw := by
      have hnode' : IstNode m.words C p ((L ++ [c, kw]) ++ dw :: c' :: R) := by simpa using hnode
      simpa using hnode'.word
    have hput : ∀ x, put (rank key) x (P' ++ (P ++ X) ++ item rank kw dw :: (Y ++ Q ++ Q')) =
        P' ++ (P ++ X) ++ (rank (wordToPtr kw), x) :: (Y ++ Q ++ Q') := by
      intro x
      rw [item, hkey, put_present hP]
    have hlookup : (P' ++ (P ++ X) ++ item rank kw dw :: (Y ++ Q ++ Q')).lookup (rank key) =
        some (wordToPtr dw) := by
      rw [item, hkey]
      exact lookup_self hP
    rw [ist234Insert_key hrun]
    simp only [List.length_append, List.length_cons] at hlen
    by_cases htest : wordToPtr (m.words (p + testedData (L.length + 2))) = data
    · -- the tested data are those given, and the old root is returned
      rw [if_pos htest]
      refine ⟨root, m, rfl, .refl m, Nat.le_add_right _ _, fun hloses => ?_, ?_⟩
      · have hsame : wordToPtr dw = data := by
          obtain hzero | hthree | hsix : L.length = 0 ∨ L.length = 3 ∨ L.length = 6 := by omega
          · rwa [hzero, show p + testedData (0 + 2) = p + (0 + 2 + 1) from rfl, ← hzero,
              hdata] at htest
          · rw [hthree] at htest hdata hloses
            by_contra hne
            exact hloses ⟨p, path, rfl, htest, by rw [hdata]; exact hne⟩
          · rwa [hsix, show p + testedData (6 + 2) = p + (6 + 2 + 1) from rfl, ← hsix,
              hdata] at htest
        rw [hput, ← hsame]
        exact hroot
      · rintro ⟨p', path', heq, -, hne⟩
        obtain ⟨rfl, hindex, -⟩ := IstDescent.key.inj heq
        rw [show L.length = 3 by omega] at hdata
        rw [hdata] at hne
        exact ⟨rfl, rfl, wordToPtr dw, hne, hlookup⟩
    · -- the node is copied with the new data
      rw [if_neg htest]
      obtain ⟨q, m₁, hcopy, hbuilt⟩ := update_spec hm hnode hL hc hc' hR hpath
        (canAllocate_mono hcan (by unfold ist234MaxAllocationInInsert; omega)) data
      rw [← hput] at hbuilt
      obtain ⟨hext, hptr, hroot'⟩ := hbuilt.istRoot (hsorted.put _ _)
      rw [hcopy]
      refine ⟨_, _, rfl, hext, by unfold ist234MaxAllocationInInsert; omega, fun _ => hroot', ?_⟩
      rintro ⟨p', path', heq, htested, -⟩
      obtain ⟨rfl, hindex, -⟩ := IstDescent.key.inj heq
      rw [hindex] at htest
      exact absurd htested htest

end Shades
