import Shades.Ist234.GiveUp
import Shades.Ist234.Join
import Shades.Ist234.Operations

/-!
# Shades.Ist234.Delete

`ist234_delete` without a delete function, on the roots of trees.  The way down
ends at the key or below a leaf; what is made of the node at a place becomes a
part of the node above it.
-/

namespace Shades

open Memory SortedItems

variable {κ : Type} [LinearOrder κ] {rank : Nat → κ} {C₀ C C' : Nat → Nat → Prop} {m₀ : Memory}
variable {s s' : IstState} {d d' n n' len len' key root data : Nat} {fields L R : List Nat}
variable {P Q X A₁ A₂ items : List (κ × Nat)} {k : κ}

/-! ## places -/

/-- What `ist234_delete` makes of the node at a place. -/
inductive DeleteResult (rank : Nat → κ) (C₀ : Nat → Nat → Prop) (m₀ : Memory) (root : Nat) (k : κ)
    (C : Nat → Nat → Prop) (s : IstState) (len d n : Nat) (items : List (κ × Nat)) :
    Option (Nat × Memory) → Prop
  | absent {C' : Nat → Nat → Prop} {m : Memory} (hm : Growing C₀ m₀ C' m)
      (hnone : items.lookup k = none) :
      DeleteResult rank C₀ m₀ root k C s len d n items
        (some (root, m.restoreAllocationPoint m₀.allocationPtr))
  | deleted {r : Nat × Memory} (hsome : items.lookup k ≠ none)
      (hdel : IstDeleted rank C₀ m₀ (fun _ => False) C s len d n (remove k items) r) :
      DeleteResult rank C₀ m₀ root k C s len d n items (some r)

/-- The result for a son is one for the node. -/
theorem DeleteResult.up {z : Option (Nat × Memory)}
    (h : DeleteResult rank C₀ m₀ root k C' s' len' d' n' (A₁ ++ X ++ A₂) z)
    (hA₁ : KeysBelow A₁ k) (hA₂ : KeysAbove A₂ k) (hP : KeysBelow P k) (hQ : KeysAbove Q k)
    (hup : ∀ Y r, IstDeleted rank C₀ m₀ (fun _ => False) C' s' len' d' n' (A₁ ++ Y ++ A₂) r →
      IstDeleted rank C₀ m₀ (fun _ => False) C s len d n (P ++ Y ++ Q) r) :
    DeleteResult rank C₀ m₀ root k C s len d n (P ++ X ++ Q) z := by
  cases h with
  | absent hm hnone =>
    rw [lookup_middle hA₁ hA₂] at hnone
    exact .absent hm (by rwa [lookup_middle hP hQ])
  | deleted hsome hdel =>
    rw [lookup_middle hA₁ hA₂] at hsome
    rw [remove_middle hA₁ hA₂] at hdel
    refine .deleted (by rwa [lookup_middle hP hQ]) ?_
    rw [remove_middle hP hQ]
    exact hup _ _ hdel

/-- The key was found. -/
theorem deleteKey_result {c kw dw c' : Nat} {Y : List (κ × Nat)}
    (hs : Place C₀ m₀ C s (L ++ c :: kw :: dw :: c' :: R)) (hkey : rank (wordToPtr kw) = k)
    (hL : SonsBefore rank (IstAt rank m₀.words C₀ d) L P) (hc : IstAt rank m₀.words C₀ d c X)
    (hc' : IstAt rank m₀.words C₀ d c' Y) (hR : SonsAfter rank (IstAt rank m₀.words C₀ d) R Q)
    (hbelow : KeysBelow (P ++ X) k) (hd : d ≤ ist234PathSize + 1)
    (hcan : s.m.canAllocate (27 * d + 8)) :
    DeleteResult rank C₀ m₀ root k C s (L ++ c :: kw :: dw :: c' :: R).length d (27 * d + 8)
      (P ++ X ++ item rank kw dw :: (Y ++ Q)) (deleteKey root none data s (L.length + 2)) := by
  rw [show L ++ c :: kw :: dw :: c' :: R = L ++ [c, kw, dw, c'] ++ R by simp] at hs ⊢
  have hspec : ∃ r, deleteKey root none data s (L.length + 2) = some r ∧ IstDeleted .. :=
    deleteKey_spec hs hL hc hc' hR hd hcan
  obtain ⟨r, hr, hdel⟩ := hspec
  rw [hr]
  unfold item
  rw [hkey]
  refine .deleted ?_ ?_
  · rw [lookup_self hbelow]
    simp
  · rw [remove_present hbelow]
    simpa using hdel

/-! ## the way down -/

/-- The code from `find` on, if the code from `copy` on does what it should. -/
theorem deleteFind_result {copy : IstState → Nat → Option (Nat × Memory)}
    (hs : Place C₀ m₀ C s fields) (hsons : Sons rank (IstAt rank m₀.words C₀ d) fields items)
    (hsorted : Sorted items) (hd : d ≤ ist234PathSize + 1) (hcan : s.m.canAllocate (27 * d + 8))
    (hcopy : ∀ (L R : List Nat) (w : Nat) (P X Q : List (κ × Nat)), fields = L ++ w :: R →
      items = P ++ X ++ Q → SonsBefore rank (IstAt rank m₀.words C₀ d) L P →
      IstAt rank m₀.words C₀ d w X → SonsAfter rank (IstAt rank m₀.words C₀ d) R Q →
      KeysBelow P (rank key) → KeysAbove Q (rank key) →
      DeleteResult rank C₀ m₀ root (rank key) C s fields.length d (27 * d + 8) items
        (copy s (L.length + 1))) :
    DeleteResult rank C₀ m₀ root (rank key) C s fields.length d (27 * d + 8) items
      (deleteFind root m₀.allocationPtr key (rankCmp rank) none data copy s) := by
  have hlocated := compareKeys_located hs.node hsons hsorted key
  unfold deleteFind
  rw [if_neg hs.node.ne_null, assert_true hs.node.cellType_eq]
  simp only [Option.bind_eq_bind, Option.bind_some]
  obtain ⟨z, hz⟩ : ∃ z, z = compareKeys s.m.words (rankCmp rank) key s.p := ⟨_, rfl⟩
  rw [← hz] at hlocated ⊢
  cases hlocated with
  | @key L R c kw dw c' P X Y Q hkey hL hc hc' hR hbelow habove =>
    exact deleteKey_result hs hkey hL hc hc' hR hbelow hd hcan
  | @son L R c P X Q hL hc hR hbelow habove =>
    exact hcopy L R c P X Q rfl rfl hL hc hR hbelow habove

/-- The comparison with the only key of a 2-node that was transformed. -/
theorem deleteTwo_result {copy : IstState → Nat → Option (Nat × Memory)} {G₁ G₂ : List Nat}
    {X₁ X₂ : List (κ × Nat)} {a₁ kw dw a₂ : Nat}
    (hs : Place C₀ m₀ C s (G₁ ++ [a₁, kw, dw, a₂] ++ G₂))
    (hG₁ : SonsBefore rank (IstAt rank m₀.words C₀ d) G₁ A₁)
    (ha₁ : IstAt rank m₀.words C₀ d a₁ X₁) (ha₂ : IstAt rank m₀.words C₀ d a₂ X₂)
    (hG₂ : SonsAfter rank (IstAt rank m₀.words C₀ d) G₂ A₂)
    (hsorted : Sorted (X₁ ++ item rank kw dw :: X₂)) (hA₁ : KeysBelow A₁ (rank key))
    (hA₂ : KeysAbove A₂ (rank key)) (hd : d ≤ ist234PathSize + 1)
    (hcan : s.m.canAllocate (27 * d + 8))
    (hcopy : ∀ (L R : List Nat) (w : Nat) (P X Q : List (κ × Nat)),
      G₁ ++ [a₁, kw, dw, a₂] ++ G₂ = L ++ w :: R →
      A₁ ++ (X₁ ++ item rank kw dw :: X₂) ++ A₂ = P ++ X ++ Q →
      SonsBefore rank (IstAt rank m₀.words C₀ d) L P → IstAt rank m₀.words C₀ d w X →
      SonsAfter rank (IstAt rank m₀.words C₀ d) R Q → Sorted X →
      KeysBelow P (rank key) → KeysAbove Q (rank key) →
      DeleteResult rank C₀ m₀ root (rank key) C s (G₁ ++ [a₁, kw, dw, a₂] ++ G₂).length d
        (27 * d + 8) (A₁ ++ (X₁ ++ item rank kw dw :: X₂) ++ A₂) (copy s (L.length + 1))) :
    DeleteResult rank C₀ m₀ root (rank key) C s (G₁ ++ [a₁, kw, dw, a₂] ++ G₂).length d
      (27 * d + 8) (A₁ ++ (X₁ ++ item rank kw dw :: X₂) ++ A₂)
      (if rankCmp rank key (wordToPtr kw) = .error then giveUp root m₀.allocationPtr s
        else if rankCmp rank key (wordToPtr kw) = .equal then
          deleteKey root none data s (G₁.length + 2)
        else if rankCmp rank key (wordToPtr kw) = .less then copy s (G₁.length + 2 - 1)
        else copy s (G₁.length + 2 + 2)) := by
  have hmiddle := sorted_middle.mp hsorted
  rcases rankCmp_trichotomy rank key (wordToPtr kw) with ⟨hlt, hcmp⟩ | ⟨heq, hcmp⟩ | ⟨hgt, hcmp⟩
  · simp only [hcmp, reduceCtorEq, if_true, if_false]
    refine hcopy G₁ (kw :: dw :: a₂ :: G₂) a₁ A₁ X₁ (item rank kw dw :: X₂ ++ A₂)
      (by simp) (by simp) hG₁ ha₁ (.cons ha₂ hG₂) hmiddle.1 hA₁ ?_
    exact above_append.mpr ⟨above_cons.mpr ⟨hlt, hmiddle.2.2.2.mono hlt.le⟩, hA₂⟩
  · have hitems : A₁ ++ (X₁ ++ item rank kw dw :: X₂) ++ A₂ =
        A₁ ++ X₁ ++ item rank kw dw :: (X₂ ++ A₂) := by simp
    have hfields : G₁ ++ [a₁, kw, dw, a₂] ++ G₂ = G₁ ++ a₁ :: kw :: dw :: a₂ :: G₂ := by simp
    rw [hfields] at hs ⊢
    rw [hitems]
    simp only [hcmp, reduceCtorEq, if_true, if_false]
    exact deleteKey_result hs heq.symm hG₁ ha₁ ha₂ hG₂
      (below_append.mpr ⟨hA₁, hmiddle.2.2.1.mono heq.ge⟩) hd hcan
  · simp only [hcmp, reduceCtorEq, if_false]
    have hright := hcopy (G₁ ++ [a₁, kw, dw]) G₂ a₂ (A₁ ++ (X₁ ++ [item rank kw dw])) X₂ A₂
      (by simp) (by simp) (hG₁.append (.cons ha₁ .nil)) ha₂ hG₂ hmiddle.2.1 ?_ hA₂
    · simpa using hright
    · exact below_append.mpr ⟨hA₁, below_append.mpr ⟨hmiddle.2.2.1.mono hgt.le,
        by simpa [item] using hgt⟩⟩

/-- The code from `copy` on, for the son `w` of the node at a place. -/
theorem deleteCopy_result {w : Nat} (hs : Place C₀ m₀ C s (L ++ w :: R))
    (hL : SonsBefore rank (IstAt rank m₀.words C₀ d) L P) (hw : IstAt rank m₀.words C₀ d w X)
    (hR : SonsAfter rank (IstAt rank m₀.words C₀ d) R Q) (hsorted : Sorted X)
    (hP : KeysBelow P (rank key)) (hQ : KeysAbove Q (rank key)) (hn : d < n)
    (hd : d ≤ ist234PathSize + 1) (hcan : s.m.canAllocate (27 * d + 8)) :
    DeleteResult rank C₀ m₀ root (rank key) C s (L ++ w :: R).length d (27 * d + 8) (P ++ X ++ Q)
      (deleteCopy root m₀.allocationPtr key (rankCmp rank) none data n s (L.length + 1)) := by
  induction d generalizing n s C L R w P X Q with
  | zero =>
    obtain ⟨n, rfl⟩ : ∃ j, n = j + 1 := ⟨n - 1, by omega⟩
    obtain ⟨rfl, rfl⟩ := hw
    unfold deleteCopy
    rw [hs.node.word, if_pos rfl]
    exact .absent hs.growing (by rw [lookup_middle hP hQ]; rfl)
  | succ d ih =>
    obtain ⟨n, rfl⟩ : ∃ j, n = j + 1 := ⟨n - 1, by omega⟩
    obtain ⟨c, cF, rfl, hc, hX⟩ := hw
    have hne : ptrToWord c ≠ nullWord := by
      simpa [nullWord, nullPtr] using hc.ne_null
    have htype := (hs.growing.node hc).nodeType_eq
    have hlen := hc.length
    have hword := hs.node.word
    by_cases hwide : cF.length = 4
    · obtain ⟨a₁, kw, dw, a₂, rfl⟩ := exists_four hwide
      obtain ⟨t, C', m', G₁, G₂, A₁, A₂, hrun, hcan₁, ht⟩ := transform_down hs hL hc hwide hR
        (canAllocate_mono hcan (by omega) : s.m.canAllocate (27 + (27 * d + 8)))
      obtain ⟨s₁, hs₁⟩ : ∃ s₁, s₁ = s.transformed t m' := ⟨_, rfl⟩
      rw [← hs₁] at ht hcan₁
      have hkey := ht.key
      obtain ⟨hplace, hG₁, hG₂, hi, hleft, hright, -, -, hup⟩ := ht
      obtain ⟨X₁, X₂, rfl, ha₁, hrest⟩ := hX.split
      obtain ⟨X₂, Z, rfl, ha₂, hnil⟩ := hrest.uncons
      cases hnil
      rw [List.append_nil] at hsorted ⊢
      have hA₁ : KeysBelow A₁ (rank key) := fun a ha => hP a (hleft.subset ha)
      have hA₂ : KeysAbove A₂ (rank key) := fun a ha => hQ a (hright.subset ha)
      rw [deleteCopy_two (by rw [hword]; exact hne)
        (by rw [hword, wordToPtr_ptrToWord, htype]; omega) hrun hs₁, hkey, hi]
      refine DeleteResult.up ?_ hA₁ hA₂ hP hQ fun Y r hdel =>
        (hup _ (27 * d + 8) _ _ (fun _ hfalse => hfalse.elim) hdel).mono (by omega)
      refine deleteTwo_result hplace hG₁ ha₁ ha₂ hG₂ hsorted hA₁ hA₂ (by omega) hcan₁
        fun L' R' w' P' X' Q' hfields hitems hL' hw' hR' hsorted' hP' hQ' => ?_
      rw [hfields] at hplace
      rw [hfields, hitems]
      exact ih hplace hL' hw' hR' hsorted' hP' hQ' (by omega) (by omega) hcan₁
    · obtain ⟨C₂, s₂, hs₂, hson, hplace, -, -, -, hptr, hup⟩ := copy_down (K := fun _ => False) hs
        (fun _ hfalse => hfalse.elim) hL hc hwide hR (canAllocate_mono hcan (by omega))
      have hcan₂ : s₂.m.canAllocate (27 * d + 8) :=
        hs.growing.canAllocate hplace.growing hptr (canAllocate_mono hcan (by omega))
      have hfind : DeleteResult rank C₀ m₀ root (rank key) C₂ s₂ cF.length d (27 * d + 8) X
          (deleteFind root m₀.allocationPtr key (rankCmp rank) none data
            (deleteCopy root m₀.allocationPtr key (rankCmp rank) none data n) s₂) := by
        refine deleteFind_result hplace hX hsorted (by omega) hcan₂
          fun L' R' w' P' X' Q' hcF hX' hL' hw' hR' hP' hQ' => ?_
        rw [hX'] at hsorted
        rw [hcF] at hplace
        rw [hcF, hX']
        exact ih hplace hL' hw' hR' hsorted.part hP' hQ' (by omega) (by omega) hcan₂
      have hcopy : deleteCopy root m₀.allocationPtr key (rankCmp rank) none data (n + 1) s
          (L.length + 1) = deleteFind root m₀.allocationPtr key (rankCmp rank) none data
            (deleteCopy root m₀.allocationPtr key (rankCmp rank) none data n) s₂ := by
        rw [deleteCopy, hword, if_neg hne, wordToPtr_ptrToWord, htype, if_pos (by omega), hs₂]
        simp only [hson, wordToPtr_ptrToWord]
      rw [hcopy]
      rw [show X = [] ++ X ++ [] by simp] at hfind
      exact hfind.up below_nil above_nil hP hQ fun Y r hdel =>
        (hup (27 * d + 8) _ _ (by simpa using hdel)).mono (by omega)

/-! ## roots -/

variable {m : Memory}

/-- The tree `q` has the items without the key. -/
structure DeletedRoot (rank : Nat → κ) (m : Memory) (root : Nat) (k : κ) (items : List (κ × Nat))
    (q : Nat) (m' : Memory) : Prop where
  grows : m.Extends m'
  le_allocationPtr : m.allocationPtr ≤ m'.allocationPtr + ist234MaxAllocationInDelete
  tree : IstRoot rank m' q (remove k items)
  absent : items.lookup k = none → q = root ∧ m'.allocationPtr = m.allocationPtr

/-- The key is absent. -/
theorem IstRoot.restored {z : Option (Nat × Memory)} (h : IstRoot rank m root items)
    (hnone : items.lookup k = none) (hz : RestoresRoot m root z) :
    ∃ q m', z = some (q, m') ∧ DeletedRoot rank m root k items q m' := by
  obtain ⟨m', rfl, hext, hptr⟩ := hz
  refine ⟨root, m', rfl, hext, by omega, ?_, fun _ => ⟨rfl, hptr⟩⟩
  rw [remove_eq_self hnone]
  exact h.frame hext

/-- `ist234_delete` without a delete function. -/
theorem IstRoot.delete (h : IstRoot rank m root items)
    (hcan : m.canAllocate ist234MaxAllocationInDelete) (key data : Nat) :
    ∃ q m', ist234Delete m root key (rankCmp rank) none data = some (q, m') ∧
      DeletedRoot rank m root (rank key) items q m' := by
  have hroot := h
  obtain ⟨haddr, ⟨d, C, hC, ht⟩, hsorted⟩ := h
  have hlevels := ht.levels_le hC hsorted
  have hm : Growing C m C m := .start (by unfold Memory.canAllocate at hcan; omega) haddr hC
  cases d with
  | zero =>
    obtain ⟨hnull, rfl⟩ := ht
    obtain rfl : root = nullPtr := (ptrToWord_eq_zero root).mp hnull
    exact hroot.restored rfl hm.restoresRoot
  | succ d =>
    obtain ⟨fields, hn, hsons⟩ := ht.root
    have hplace : Place C m C ⟨m, nullPtr, nullPtr, root, true⟩ fields :=
      ⟨hm, hn, fun _ => hn.cell, nofun, .inl (.inl ⟨rfl, rfl⟩), fun hne => absurd rfl hne⟩
    have hresult : DeleteResult rank C m root (rank key) C ⟨m, nullPtr, nullPtr, root, true⟩
        fields.length d (27 * d + 8) items (ist234Delete m root key (rankCmp rank) none data) := by
      refine deleteFind_result hplace hsons hsorted (by unfold ist234PathSize; omega)
        (canAllocate_mono hcan (by unfold ist234MaxAllocationInDelete; omega))
        fun L R w P X Q hfields hitems hL hw hR hP hQ => ?_
      subst hfields hitems
      exact deleteCopy_result hplace hL hw hR hsorted.part hP hQ (by unfold ist234PathSize; omega)
        (by unfold ist234PathSize; omega)
        (canAllocate_mono hcan (by unfold ist234MaxAllocationInDelete; omega))
    obtain ⟨z, hz⟩ : ∃ z, z = ist234Delete m root key (rankCmp rank) none data := ⟨_, rfl⟩
    rw [← hz] at hresult ⊢
    cases hresult with
    | absent hm' hnone => exact hroot.restored hnone hm'.restoresRoot
    | @deleted r hsome hdel =>
      obtain ⟨d', C', q, -, hdeliver⟩ := hdel
      have hbuild := hdeliver.builds
      have hptr := hbuild.le_allocationPtr
      dsimp only at hptr
      obtain rfl : r.1 = q := hdeliver.top (.inl ⟨rfl, rfl⟩)
      exact ⟨r.1, r.2, rfl, hbuild.growing.grows, by unfold ist234MaxAllocationInDelete; omega,
        ⟨hbuild.growing.addressable, ⟨d', C', hbuild.growing.cells, hdeliver.tree⟩,
          hsorted.remove _⟩, fun hnone => absurd hnone hsome⟩

/-- `ist234_delete` makes a well-formed tree of the items without the key.  It is
empty only if the last key went, and it is the old tree if the key is absent.  No
node of the old tree is changed. -/
theorem ist234_delete_removes (h : IstRoot rank m root items)
    (hcan : m.canAllocate ist234MaxAllocationInDelete) (key data : Nat) :
    ∃ q m', ist234Delete m root key (rankCmp rank) none data = some (q, m') ∧
      IstRoot rank m' q (remove (rank key) items) ∧
      (q = nullPtr ↔ remove (rank key) items = []) ∧
      (∀ key', ist234Find m'.words q key' (rankCmp rank) =
        if rank key' = rank key then some nullPtr
        else ist234Find m.words root key' (rankCmp rank)) ∧
      (items.lookup (rank key) = none → q = root ∧ m'.allocationPtr = m.allocationPtr) ∧
      m.Extends m' ∧ IstRoot rank m' root items := by
  obtain ⟨q, m', hrun, hdeleted⟩ := h.delete hcan key data
  refine ⟨q, m', hrun, hdeleted.tree, hdeleted.tree.null_iff, fun key' => ?_, hdeleted.absent,
    hdeleted.grows, h.frame hdeleted.grows⟩
  rw [hdeleted.tree.find, h.find, lookup_remove h.sorted]
  split <;> rfl

/-- The key of the root is deleted, which has a leaf on each side. -/
theorem ist234_delete_removes_root :
    ∃ q m', ist234Delete threeNodes 10 2 (rankCmp id) none 0 = some (q, m') ∧
      IstRoot id m' q [(1, 71), (3, 73), (4, 74)] ∧ threeNodes.Extends m' ∧
      IstRoot id m' 10 [(1, 71), (2, 72), (3, 73), (4, 74)] := by
  have hroot : IstRoot id threeNodes 10 [(1, 71), (2, 72), (3, 73), (4, 74)] :=
    ⟨threeNodes_tree.addressable, ⟨2, _, threeNodes_tree.cells, threeNodes_tree.tree⟩, by
      unfold Sorted; decide⟩
  obtain ⟨q, m', hrun, htree, -, -, -, hext, hold⟩ :=
    ist234_delete_removes hroot (by decide) 2 0
  exact ⟨q, m', hrun, htree, hext, hold⟩

end Shades
