import Shades.Avl.Versions

/-!
# Shades.Avl.Apart

The way down in two databases that differ in some words only.

If the words by which one finds the way are not among them, then the search ends
at the same leaf in both, and the copies of the path are the same.  `OtherData` is
the region that matters here: the data of the keys of a tree but one.
-/

namespace Shades

open Memory AvlTree

variable {κ : Type} {rank : Nat → κ} {m : Memory}

/-! ## databases that differ in some words -/

/-- Two memories that are the same but for the words of a region. -/
structure SameBut (D : Nat → Prop) (m m' : Memory) : Prop where
  allocationPtr_eq : m'.allocationPtr = m.allocationPtr
  firstGenerationEnd_eq : m'.firstGenerationEnd = m.firstGenerationEnd
  firstGenerationStart_eq : m'.firstGenerationStart = m.firstGenerationStart
  agree : ∀ a, ¬ D a → m'.words a = m.words a

section sameBut

variable {D : Nat → Prop} {m' : Memory}

theorem SameBut.set (h : SameBut D m m') (p x : Nat) : SameBut D (m.set p x) (m'.set p x) where
  allocationPtr_eq := h.allocationPtr_eq
  firstGenerationEnd_eq := h.firstGenerationEnd_eq
  firstGenerationStart_eq := h.firstGenerationStart_eq
  agree := by
    intro a ha
    rw [set_words, set_words, h.agree a ha]

theorem SameBut.allocate (h : SameBut D m m') (n : Nat) (t : CellType) :
    (m'.allocate n t).1 = (m.allocate n t).1 ∧
      SameBut D (m.allocate n t).2 (m'.allocate n t).2 := by
  have hptr := h.allocationPtr_eq
  have hsame := h.set (m.allocationPtr - n) t.header
  refine ⟨by rw [allocate_fst, allocate_fst, hptr], ?_, hsame.firstGenerationEnd_eq,
    hsame.firstGenerationStart_eq, fun a ha => ?_⟩
  · rw [allocate_allocationPtr, allocate_allocationPtr, hptr]
  · rw [allocate_words, allocate_words, hptr, h.agree a ha]

/-- The same cells of a path are copied. -/
theorem SameBut.copyPathNode (h : SameBut D m m') (path : List AvlPathEntry) {p : Nat}
    (hp : ∀ i < 4, ¬ D (p + i)) :
    (copyPathNode m' path p).1 = (copyPathNode m path p).1 ∧
      SameBut D (copyPathNode m path p).2 (copyPathNode m' path p).2 := by
  obtain ⟨hq, hsame⟩ := h.allocate 4 .avlInternal
  have hword := fun i hi => hsame.agree _ (hp i hi)
  have hzero := hword 0 (by decide)
  rw [Nat.add_zero] at hzero
  unfold Shades.copyPathNode
  simp only [hq, hzero, hword 1 (by decide), hword 2 (by decide), hword 3 (by decide)]
  refine ⟨trivial, ?_⟩
  unfold chainSon
  cases path with
  | nil => exact (((hsame.set _ _).set _ _).set _ _).set _ _
  | cons e path => exact ((((hsame.set _ _).set _ _).set _ _).set _ _).set _ _

end sameBut

/-! ## the data of other keys -/

/-- The leaves of the tree at an address. -/
inductive LeafOf (words : Nat → Nat) : Nat → Nat → Prop
  | leaf {p : Nat} (h : isInternalNode words p = false) : LeafOf words p p
  | left {p q : Nat} (h : isInternalNode words p = true)
      (hq : LeafOf words (wordToPtr (words (p + 2))) q) : LeafOf words p q
  | right {p q : Nat} (h : isInternalNode words p = true)
      (hq : LeafOf words (wordToPtr (words (p + 3))) q) : LeafOf words p q

/-- The words of the tree that hold the data of another key. -/
def OtherData (rank : Nat → κ) (words : Nat → Nat) (root key a : Nat) : Prop :=
  root ≠ nullPtr ∧ ∃ p, LeafOf words root p ∧ rank (wordToPtr (words (p + 1))) ≠ rank key ∧
    a = p + 2

/-- The words by which one finds the way through the tree do not belong to the region. -/
inductive Clear (D : Nat → Prop) (words : Nat → Nat) : Nat → Prop
  | leaf {p : Nat} (hint : isInternalNode words p = false) (h : ∀ i < 2, ¬ D (p + i)) :
      Clear D words p
  | node {p : Nat} (hint : isInternalNode words p = true) (h : ∀ i < 4, ¬ D (p + i))
      (hl : Clear D words (wordToPtr (words (p + 2))))
      (hr : Clear D words (wordToPtr (words (p + 3)))) : Clear D words p

section clear

variable {D S : Nat → Prop} {words words' : Nat → Nat} {m' : Memory} {p key n : Nat}
  {t : AvlTree κ Nat} {path : List AvlPathEntry}

theorem Clear.node_inv (h : Clear D words p) (hint : isInternalNode words p = true) :
    (∀ i < 4, ¬ D (p + i)) ∧ Clear D words (wordToPtr (words (p + 2))) ∧
      Clear D words (wordToPtr (words (p + 3))) := by
  cases h with
  | leaf hleaf => exact absurd (hint.symm.trans hleaf) (by decide)
  | node _ h hl hr => exact ⟨h, hl, hr⟩

theorem Clear.not_mem (h : Clear D words p) : ¬ D p := by
  cases h with
  | leaf _ h => exact h 0 (by decide)
  | node _ h => exact h 0 (by decide)

theorem Clear.frame (h : Clear D words p) (ht : AvlAt rank words S p t)
    (hagree : AgreeOn S words words') : Clear D words' p := by
  induction ht with
  | @leaf p key d hleaf hS =>
    cases h with
    | leaf hint h =>
      have hzero : words' p = words p := hagree p (hS 0 (by decide))
      refine .leaf ?_ h
      rw [isInternalNode, hzero]
      exact hint
    | node hint => exact absurd (hint.symm.trans hleaf.not_internal.1) (by decide)
  | @node p _ _ pl pr _ _ hnode hS hl hr ihl ihr =>
    obtain ⟨hp, hcl, hcr⟩ := h.node_inv hnode.internal
    rw [hnode.left, wordToPtr_ptrToWord] at hcl
    rw [hnode.right, wordToPtr_ptrToWord] at hcr
    have hnode' := hnode.congr fun i hi => hagree _ (hS i hi)
    refine .node hnode'.internal hp ?_ ?_
    · rw [hnode'.left, wordToPtr_ptrToWord]
      exact ihl hcl
    · rw [hnode'.right, wordToPtr_ptrToWord]
      exact ihr hcr

/-- The copy of a node lies where words were free. -/
theorem copyPathNode_agree (hS : ∀ a, S a → m.Live a) (hcan : m.canAllocate 4)
    (hpath : ∀ e ∈ path.head?, ¬ S (e.node + e.son)) (p : Nat) :
    AgreeOn S m.words (copyPathNode m path p).2.words ∧
      (copyPathNode m path p).1 = m.allocationPtr - 4 ∧
      (copyPathNode m path p).2.allocationPtr = m.allocationPtr - 4 ∧
      (copyPathNode m path p).2.firstGenerationEnd = m.firstGenerationEnd := by
  have hfresh : ∀ i < 4, ∀ a, S a → a ≠ m.allocationPtr - 4 + i := by
    intro i hi a ha
    have hlive := hS a ha
    unfold Memory.Live at hlive
    unfold Memory.canAllocate at hcan
    omega
  unfold copyPathNode chainSon
  cases path with
  | nil =>
    refine ⟨fun a ha => ?_, rfl, rfl, rfl⟩
    have hne := fun i hi => hfresh i hi a ha
    simp [allocate_fst, hne 1 (by decide), hne 2 (by decide), hne 3 (by decide),
      show a ≠ m.allocationPtr - 4 from hne 0 (by decide)]
  | cons e path =>
    refine ⟨fun a ha => ?_, rfl, rfl, rfl⟩
    have hne := fun i hi => hfresh i hi a ha
    have hchain : a ≠ e.node + e.son := fun h => hpath e rfl (h ▸ ha)
    simp [allocate_fst, hne 1 (by decide), hne 2 (by decide), hne 3 (by decide), hchain,
      show a ≠ m.allocationPtr - 4 from hne 0 (by decide)]

variable [LinearOrder κ]

/-- The way down is the same in two memories that differ in words that it does not read,
and so are the copies. -/
theorem avlDescend_sameBut (key : Nat) (ht : AvlAt rank m.words S p t)
    (hclear : Clear D m.words p) (havl : t.Avl) (hn : t.height ≤ n) (hS : ∀ a, S a → m.Live a)
    (hcan : m.canAllocate (4 * t.height)) (hpath : ∀ e ∈ path.head?, ¬ S (e.node + e.son))
    (hsame : SameBut D m m') :
    ∃ d M M', avlDescend (rankCmp rank) key n m path p = some (d, M) ∧
      avlDescend (rankCmp rank) key n m' path p = some (d, M') ∧ SameBut D M M' := by
  induction t generalizing m m' p path n with
  | leaf k d =>
    obtain ⟨kw, -, hleaf, -⟩ := ht.leaf_inv
    obtain ⟨hint, htype⟩ := hleaf.not_internal
    have hword := hsame.agree _ hclear.not_mem
    have hint' : isInternalNode m'.words p = false := by
      rw [isInternalNode, hword]
      exact hint
    refine ⟨.leaf p path, m, m', ?_, ?_, hsame⟩
    · unfold avlDescend
      rw [if_neg (by simp [hint]), assert_true htype]
      rfl
    · unfold avlDescend
      rw [if_neg (by simp [hint']), assert_true (by rwa [hword])]
      rfl
  | node h k l r ihl ihr =>
    obtain ⟨rfl, -, -, hl, hr⟩ := havl
    have hheight := heightOf_le l r
    rw [height_node] at hn hcan
    obtain ⟨n, rfl⟩ : ∃ j, n = j + 1 := ⟨n - 1, by omega⟩
    cases ht with
    | @node _ _ keyw pl pr _ _ hnode hcell htl htr =>
      obtain ⟨hp, hcl, hcr⟩ := hclear.node_inv hnode.internal
      rw [hnode.left, wordToPtr_ptrToWord] at hcl
      rw [hnode.right, wordToPtr_ptrToWord] at hcr
      have hzero : m'.words p = m.words p := hsame.agree p (hp 0 (by decide))
      have hint' : isInternalNode m'.words p = true := by
        rw [isInternalNode, hzero]
        exact hnode.internal
      obtain ⟨hagree, hq, hptr, hend⟩ :=
        copyPathNode_agree hS (canAllocate_mono hcan (by omega)) hpath p
      obtain ⟨hq', hsame'⟩ := hsame.copyPathNode path hp
      have hwords := fun i hi => hagree _ (hcell i hi)
      have hwords' := fun i hi => hsame'.agree _ (hp i hi)
      have hlive : ∀ a, S a → (copyPathNode m path p).2.Live a := by
        intro a ha
        have hlive := hS a ha
        unfold Memory.Live at hlive ⊢
        omega
      have hroom : ∀ t : AvlTree κ Nat, t.height + 1 ≤ heightOf l r →
          (copyPathNode m path p).2.canAllocate (4 * t.height) := by
        intro t ht
        unfold Memory.canAllocate at hcan ⊢
        omega
      have hnew : ∀ i < 4, ¬ S ((copyPathNode m path p).1 + i) := by
        intro i hi ha
        have hlive := hS _ ha
        unfold Memory.Live at hlive
        unfold Memory.canAllocate at hcan
        omega
      have hdown := fun (path : List AvlPathEntry)
          (hpath : ∀ e ∈ path.head?, ¬ S (e.node + e.son)) =>
        And.intro
          (ihl (n := n) (htl.frame hagree fun _ ha => ha) (hcl.frame htl hagree) hl (by omega) hlive
            (hroom l (by omega)) hpath hsame')
          (ihr (n := n) (htr.frame hagree fun _ ha => ha) (hcr.frame htr hagree) hr (by omega) hlive
            (hroom r (by omega)) hpath hsame')
      conv in (avlDescend _ _ (n + 1) m path p) => unfold avlDescend
      conv in (avlDescend _ _ (n + 1) m' path p) => unfold avlDescend
      rw [if_pos hnode.internal, if_pos hint']
      simp only [hq', hwords' 1 (by decide), hwords' 2 (by decide), hwords' 3 (by decide),
        hwords 1 (by decide), hwords 2 (by decide), hwords 3 (by decide), hnode.key, hnode.left,
        hnode.right, wordToPtr_ptrToWord]
      rcases rankCmp_cases rank key (wordToPtr keyw) with ⟨-, hcmp | hcmp⟩ | ⟨-, hcmp⟩
      · rw [hcmp]
        exact (hdown _ (by simp [hnew 2 (by decide)])).1
      · rw [hcmp]
        exact (hdown _ (by simp [hnew 2 (by decide)])).1
      · rw [hcmp]
        exact (hdown _ (by simp [hnew 3 (by decide)])).2

end clear

end Shades
