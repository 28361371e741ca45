import Shades.Avl.Code
import Shades.Avl.Path

/-!
# Shades.Avl.Rep

What an AVL tree in memory means.  `AvlAt rank words S p t` says that `p` is
the root of the tree `t` kept in cells of the region `S`; `rank` gives the keys
behind the pointers, so that pointers to equal keys need not be equal.

While an operation works the memory has grown from `m₀` to `m`.  The old trees
lie in a region `S` that was live in `m₀`, and what has been built so far lies
below some address `c`: the nodes of the path are above it.  `Below S m c` is
the region of both.
-/

namespace Shades

open Memory

variable {κ : Type} (rank : Nat → κ)

/-! ## trees in memory -/

/-- The words of an internal node. -/
structure AvlNodeAt (words : Nat → Nat) (p height key left right : Nat) : Prop where
  ne_null : p ≠ nullPtr
  height_lt : height < 2 ^ 24
  header : words p = CellType.avlInternal.header + height
  key : words (p + 1) = key
  left : words (p + 2) = ptrToWord left
  right : words (p + 3) = ptrToWord right

/-- The words of a leaf. -/
structure AvlLeafAt (words : Nat → Nat) (p key data : Nat) : Prop where
  ne_null : p ≠ nullPtr
  header : words p = CellType.avlLeaf.header
  key : words (p + 1) = key
  data : words (p + 2) = ptrToWord data

inductive AvlAt (words : Nat → Nat) (S : Nat → Prop) : Nat → AvlTree κ Nat → Prop
  | leaf {p key d : Nat} (hleaf : AvlLeafAt words p key d) (hS : ∀ i < 3, S (p + i)) :
      AvlAt words S p (.leaf (rank (wordToPtr key)) d)
  | node {p h key pl pr : Nat} {l r : AvlTree κ Nat} (hnode : AvlNodeAt words p h key pl pr)
      (hS : ∀ i < 4, S (p + i)) (hl : AvlAt words S pl l) (hr : AvlAt words S pr r) :
      AvlAt words S p (.node h (rank (wordToPtr key)) l r)

variable {rank}

theorem AvlNodeAt.congr {words words' : Nat → Nat} {p h key pl pr : Nat}
    (hn : AvlNodeAt words p h key pl pr) (hw : ∀ i < 4, words' (p + i) = words (p + i)) :
    AvlNodeAt words' p h key pl pr where
  ne_null := hn.ne_null
  height_lt := hn.height_lt
  header := (hw 0 (by decide)).trans hn.header
  key := (hw 1 (by decide)).trans hn.key
  left := (hw 2 (by decide)).trans hn.left
  right := (hw 3 (by decide)).trans hn.right

theorem AvlLeafAt.congr {words words' : Nat → Nat} {p key d : Nat}
    (hn : AvlLeafAt words p key d) (hw : ∀ i < 3, words' (p + i) = words (p + i)) :
    AvlLeafAt words' p key d where
  ne_null := hn.ne_null
  header := (hw 0 (by decide)).trans hn.header
  key := (hw 1 (by decide)).trans hn.key
  data := (hw 2 (by decide)).trans hn.data

section rep

variable {words words' : Nat → Nat} {S S' : Nat → Prop} {p : Nat} {t : AvlTree κ Nat}

theorem AvlAt.frame (h : AvlAt rank words S p t) (hagree : AgreeOn S words words')
    (hS : ∀ a, S a → S' a) : AvlAt rank words' S' p t := by
  induction h with
  | leaf hleaf hcell =>
    exact .leaf (hleaf.congr fun i hi => hagree _ (hcell i hi)) fun i hi => hS _ (hcell i hi)
  | node hnode hcell _ _ ihl ihr =>
    exact .node (hnode.congr fun i hi => hagree _ (hcell i hi)) (fun i hi => hS _ (hcell i hi))
      ihl ihr

theorem AvlAt.mono {T : Nat → Prop} (h : AvlAt rank words S p t) (hS : ∀ a, S a → T a) :
    AvlAt rank words T p t := h.frame (fun _ _ => rfl) hS

theorem AvlAt.ne_null (h : AvlAt rank words S p t) : p ≠ nullPtr := by
  cases h with
  | leaf hleaf => exact hleaf.ne_null
  | node hnode => exact hnode.ne_null

theorem AvlAt.leaf_inv {k : κ} {d : Nat} (h : AvlAt rank words S p (.leaf k d)) :
    ∃ kw, rank (wordToPtr kw) = k ∧ AvlLeafAt words p kw d ∧ ∀ i < 3, S (p + i) := by
  generalize ht : AvlTree.leaf k d = t at h
  cases h with
  | @leaf _ kw _ hleaf hS =>
    cases ht
    exact ⟨kw, rfl, hleaf, hS⟩
  | node => cases ht

/-- A key of a tree is the key behind a pointer. -/
theorem AvlAt.exists_key (h : AvlAt rank words S p t) {k : κ} {d : Nat} (hk : t.Has k d) :
    ∃ key, rank key = k := by
  induction h with
  | leaf => exact ⟨_, hk.1.symm⟩
  | node _ _ _ _ ihl ihr => exact hk.elim ihl ihr

/-! ## reading the words of a node -/

theorem header_add_lt {c : CellType} {h : Nat} (hh : h < 2 ^ 24) :
    cellType (c.header + h) = c.code ∧ (c.header + h) &&& 0xFFFFFF = h ∧
      (c.header + h) >>> 24 <<< 24 = c.header := by
  rw [cellType_eq, show 0xFFFFFF = 2 ^ 24 - 1 by decide, and_mask, CellType.header_eq,
    Nat.shiftLeft_eq, Nat.shiftRight_eq_div_pow]
  omega

theorem header_or_add {c : CellType} {h : Nat} (hh : h < 2 ^ 24) :
    c.header ||| h = c.header + h := by
  rw [header_or c hh, CellType.header_eq]

theorem AvlNodeAt.internal {h key pl pr : Nat} (hn : AvlNodeAt words p h key pl pr) :
    isInternalNode words p = true := by
  unfold isInternalNode
  rw [hn.header, (header_add_lt hn.height_lt).1]
  exact decide_eq_true rfl

theorem AvlLeafAt.not_internal {key d : Nat} (hn : AvlLeafAt words p key d) :
    isInternalNode words p = false ∧ cellType (words p) = CellType.avlLeaf.code := by
  have htype : cellType (words p) = CellType.avlLeaf.code := by
    rw [hn.header]
    decide
  refine ⟨?_, htype⟩
  unfold isInternalNode
  rw [htype]
  decide

theorem AvlAt.height_eq (h : AvlAt rank words S p t) : avlHeight words p = t.height := by
  cases h with
  | leaf hleaf =>
    unfold avlHeight
    rw [hleaf.header, AvlTree.height_leaf]
    decide
  | node hnode =>
    unfold avlHeight
    rw [hnode.header, (header_add_lt hnode.height_lt).2.1]
    rfl

/-- The tree at an address is determined by the words. -/
theorem AvlAt.unique {t' : AvlTree κ Nat} (h : AvlAt rank words S p t)
    (h' : AvlAt rank words S' p t') : t = t' := by
  induction h generalizing t' with
  | leaf hleaf =>
    cases h' with
    | leaf hleaf' =>
      obtain ⟨-, -, hkey, hdata⟩ := hleaf
      obtain ⟨-, -, hkey', hdata'⟩ := hleaf'
      rw [hkey] at hkey'
      rw [hdata, ptrToWord, ptrToWord] at hdata'
      obtain rfl : _ = _ := Nat.eq_of_mul_eq_mul_left (by decide) hdata'
      rw [hkey']
    | node hnode' => exact absurd hnode'.internal (by rw [hleaf.not_internal.1]; decide)
  | node hnode _ _ _ ihl ihr =>
    cases h' with
    | leaf hleaf' => exact absurd hnode.internal (by rw [hleaf'.not_internal.1]; decide)
    | node hnode' _ hl' hr' =>
      obtain ⟨-, -, hheader, hkey, hleft, hright⟩ := hnode
      obtain ⟨-, -, hheader', hkey', hleft', hright'⟩ := hnode'
      rw [hheader] at hheader'
      rw [hkey] at hkey'
      rw [hleft, ptrToWord, ptrToWord] at hleft'
      rw [hright, ptrToWord, ptrToWord] at hright'
      obtain rfl : _ = _ := Nat.eq_of_mul_eq_mul_left (by decide) hleft'
      obtain rfl : _ = _ := Nat.eq_of_mul_eq_mul_left (by decide) hright'
      rw [ihl hl', ihr hr', Nat.add_left_cancel hheader', hkey']

section sons

variable {h key pl pr : Nat} {l r : AvlTree κ Nat}

theorem AvlNodeAt.sonsHeight_eq (hleft : words (p + 2) = ptrToWord pl)
    (hright : words (p + 3) = ptrToWord pr) (hl : AvlAt rank words S pl l)
    (hr : AvlAt rank words S pr r) : sonsHeight words p = AvlTree.heightOf l r := by
  unfold sonsHeight AvlTree.heightOf
  rw [hleft, hright, wordToPtr_ptrToWord, wordToPtr_ptrToWord, hl.height_eq, hr.height_eq]

theorem AvlNodeAt.balance_eq (hn : AvlNodeAt words p h key pl pr) (hl : AvlAt rank words S pl l)
    (hr : AvlAt rank words S pr r) : avlBalance words p = (r.height : Int) - l.height := by
  unfold avlBalance
  rw [hn.left, hn.right, wordToPtr_ptrToWord, wordToPtr_ptrToWord, hl.height_eq, hr.height_eq]

end sons

/-- The balance of the root of a tree that is no leaf. -/
theorem AvlAt.balance_eq (h : AvlAt rank words S p t) (hpos : 0 < t.height) :
    avlBalance words p = t.balance := by
  cases h with
  | leaf hleaf => cases hpos
  | node hnode hS hl hr => exact hnode.balance_eq hl hr

end rep

/-! ## the memory while an operation works -/

/-- The old trees in the region `S` are left alone. -/
structure Working (S : Nat → Prop) (m₀ m : Memory) : Prop where
  old : ∀ a, S a → m₀.Live a
  grows : m₀.Extends m
  fits : m.firstGenerationEnd ≤ m.allocationPtr

/-- The old trees and the cells allocated below `c`. -/
def Below (S : Nat → Prop) (m : Memory) (c a : Nat) : Prop := S a ∨ m.allocationPtr ≤ a ∧ a < c

section working

variable {S : Nat → Prop} {m₀ m m' : Memory} {c c' p : Nat} {t : AvlTree κ Nat}

theorem Working.start (h : m.firstGenerationEnd ≤ m.allocationPtr) (hS : ∀ a, S a → m.Live a) :
    Working S m m := ⟨hS, .refl m, h⟩

theorem Working.live (h : Working S m₀ m) {a : Nat} (ha : Below S m c a) : m.Live a :=
  ha.elim (fun ha => h.grows.live (h.old a ha)) fun ha => .inr ha.1

/-- An old tree. -/
theorem Working.tree (h : Working S m₀ m) (ht : AvlAt rank m₀.words S p t) :
    AvlAt rank m.words (Below S m c) p t :=
  ht.frame (h.grows.agree.mono h.old) fun _ ha => .inl ha

/-- The operation is given up, and the old tree is returned. -/
theorem Working.restore (hw : Working S m₀ m) (ht : AvlAt rank m₀.words S p t) :
    m₀.Extends (m.restoreAllocationPoint m₀.allocationPtr) ∧
      AvlAt rank (m.restoreAllocationPoint m₀.allocationPtr).words
        (Below S (m.restoreAllocationPoint m₀.allocationPtr) m₀.allocationPtr) p t := by
  have hgrows := hw.grows
  refine ⟨⟨Nat.le_refl _, hgrows.firstGenerationEnd_eq, hgrows.firstGenerationStart_eq,
    hgrows.agree⟩, ?_⟩
  exact ht.frame (hgrows.agree.mono hw.old) fun a ha => .inl ha

theorem AvlAt.below_mono (ht : AvlAt rank m.words (Below S m c) p t) (hc : c ≤ c') :
    AvlAt rank m.words (Below S m c') p t := by
  refine ht.mono fun a ha => ha.imp_right fun ha => ?_
  exact ⟨ha.1, by omega⟩

/-- `n` words were allocated, and of the words that were there before only
those from `lo` to `hi` were written. -/
structure Writes (S : Nat → Prop) (m₀ m : Memory) (n lo hi : Nat) (m' : Memory) : Prop where
  working : Working S m₀ m'
  allocationPtr_eq : m'.allocationPtr + n = m.allocationPtr
  agree : ∀ a, m.allocationPtr ≤ a → a < lo ∨ hi ≤ a → m'.words a = m.words a

section writes

variable {m'' : Memory} {n n' lo hi lo' hi' : Nat}

theorem Writes.refl (h : Working S m₀ m) (lo hi : Nat) : Writes S m₀ m 0 lo hi m :=
  ⟨h, rfl, fun _ _ _ => rfl⟩

theorem Writes.trans (h : Writes S m₀ m n lo hi m') (h' : Writes S m₀ m' n' lo hi m'') :
    Writes S m₀ m (n + n') lo hi m'' where
  working := h'.working
  allocationPtr_eq := by
    have h₁ := h.allocationPtr_eq
    have h₂ := h'.allocationPtr_eq
    omega
  agree := by
    intro a ha hout
    have h₁ := h.allocationPtr_eq
    rw [h'.agree a (by omega) hout, h.agree a ha hout]

theorem Writes.mono (h : Writes S m₀ m n lo hi m') (hlo : lo' ≤ lo) (hhi : hi ≤ hi') :
    Writes S m₀ m n lo' hi' m' where
  working := h.working
  allocationPtr_eq := h.allocationPtr_eq
  agree := fun a ha hout => h.agree a ha (by omega)

/-- What can still be allocated. -/
theorem Writes.canAllocate (h : Writes S m₀ m n lo hi m') (hw : Working S m₀ m) {k : Nat}
    (hcan : m.canAllocate (n + k)) : m'.canAllocate k := by
  have hend := hw.grows.firstGenerationEnd_eq
  have hend' := h.working.grows.firstGenerationEnd_eq
  have hptr := h.allocationPtr_eq
  unfold Memory.canAllocate at hcan ⊢
  omega

/-- The words below those that are written. -/
theorem Writes.below (h : Writes S m₀ m n lo hi m') (hw : Working S m₀ m) (hc : c ≤ lo) :
    AgreeOn (Below S m c) m.words m'.words := by
  intro a ha
  rcases ha with ha | ha
  · have hlive := hw.old a ha
    rw [h.working.grows.agree a hlive, hw.grows.agree a hlive]
  · exact h.agree a ha.1 (.inl (by omega))

/-- A tree below the words that are written. -/
theorem Writes.tree (h : Writes S m₀ m n lo hi m') (hw : Working S m₀ m) (hc : c ≤ lo)
    (hcc : c ≤ c') (ht : AvlAt rank m.words (Below S m c) p t) :
    AvlAt rank m'.words (Below S m' c') p t := by
  have hptr := h.allocationPtr_eq
  refine ht.frame (h.below hw hc) fun a ha => ?_
  rcases ha with ha | ha
  · exact .inl ha
  · exact .inr ⟨by omega, by omega⟩

/-- A word of a fresh cell is written. -/
theorem Writes.set (h : Writes S m₀ m n lo hi m') {a : Nat} (hlo : lo ≤ a) (hhi : a < hi)
    (hlow : m'.allocationPtr ≤ a) (htop : a < m₀.allocationPtr) (x : Nat) :
    Writes S m₀ m n lo hi (m'.set a x) where
  working := by
    have hw := h.working
    have hend := hw.grows.firstGenerationEnd_eq
    have hfits := hw.fits
    refine ⟨hw.old, hw.grows.set ?_ x, hw.fits⟩
    unfold Memory.Live
    omega
  allocationPtr_eq := h.allocationPtr_eq
  agree := fun b hb hout => by
    rw [set_words, if_neg (by omega), h.agree b hb hout]

/-- Cells are allocated and filled. -/
theorem Writes.allocates (h : Working S m₀ m) (hall : m.Allocates m') (hcan : m.canAllocate n)
    (hptr : m'.allocationPtr = m.allocationPtr - n) (lo : Nat) : Writes S m₀ m n lo lo m' := by
  have hend := hall.firstGenerationEnd_eq
  unfold Memory.canAllocate at hcan
  refine ⟨⟨h.old, h.grows.trans (hall.extends (by omega)), by omega⟩, by omega, fun a ha _ => ?_⟩
  exact hall.agree a (.inr ha)

end writes

end working

/-! ## new nodes -/

section new

variable {S : Nat → Prop} {m₀ m : Memory} {c : Nat}

/-- A new leaf. -/
theorem newAvlLeaf_spec (rank : Nat → κ) (hw : Working S m₀ m) (hcan : m.canAllocate 3)
    (hc : m.allocationPtr ≤ c) (key d : Nat) :
    ∃ q m', newAvlLeaf m key d = (q, m') ∧ Writes S m₀ m 3 c c m' ∧
      AvlAt rank m'.words (Below S m' c) q (.leaf (rank (wordToPtr key)) d) := by
  have hend := m.firstGenerationEnd_pos
  obtain ⟨q, hq⟩ : ∃ q, q = m.allocationPtr - 3 := ⟨_, rfl⟩
  obtain ⟨m', hm'⟩ : ∃ m', m' = ((m.allocate 3 .avlLeaf).2.set (q + 1) key).set (q + 2)
    (ptrToWord d) := ⟨_, rfl⟩
  have hfun : newAvlLeaf m key d = (q, m') := by
    rw [hm', hq]
    rfl
  have hptr : m'.allocationPtr = q := by
    rw [hm', hq]
    rfl
  have hall : m.Allocates m' := by
    unfold canAllocate at hcan
    rw [hm']
    refine ((allocates_allocate .avlLeaf (by decide) hcan).set ?_ _).set ?_ _
    all_goals
      simp only [set_allocationPtr, allocate_allocationPtr]
      omega
  have hwords : m'.words q = CellType.avlLeaf.header ∧ m'.words (q + 1) = key ∧
      m'.words (q + 2) = ptrToWord d := by
    simp [hm', ← hq]
  obtain ⟨hheader, hkey, hdata⟩ := hwords
  refine ⟨q, m', hfun, .allocates hw hall hcan (hptr.trans hq) c, ?_⟩
  unfold canAllocate at hcan
  have hne : q ≠ 0 := by omega
  exact .leaf ⟨hne, hheader, hkey, hdata⟩ fun i hi => .inr ⟨by omega, by omega⟩

/-- A node with the right height. -/
theorem AvlAt.branch {words : Nat → Nat} {T : Nat → Prop} {p key pl pr : Nat}
    {l r : AvlTree κ Nat} (hne : p ≠ nullPtr) (hh : AvlTree.heightOf l r < 2 ^ 24)
    (hheader : words p = CellType.avlInternal.header + AvlTree.heightOf l r)
    (hkey : words (p + 1) = key) (hleft : words (p + 2) = ptrToWord pl)
    (hright : words (p + 3) = ptrToWord pr) (hT : ∀ i < 4, T (p + i))
    (hl : AvlAt rank words T pl l) (hr : AvlAt rank words T pr r) :
    AvlAt rank words T p (.branch (rank (wordToPtr key)) l r) :=
  .node ⟨hne, hh, hheader, hkey, hleft, hright⟩ hT hl hr

/-- The words of a new internal node. -/
theorem newAvlInternal_node {pl pr : Nat} {l r : AvlTree κ Nat} (key : Nat) (hw : Working S m₀ m)
    (hcan : m.canAllocate 4) (hh : AvlTree.heightOf l r < 2 ^ 24)
    (hl : AvlAt rank m.words (Below S m c) pl l) (hr : AvlAt rank m.words (Below S m c) pr r) :
    ∃ q m', newAvlInternal m key (ptrToWord pl) (ptrToWord pr) = (q, m') ∧
      q = m'.allocationPtr ∧ Writes S m₀ m 4 c c m' ∧
      AvlNodeAt m'.words q (AvlTree.heightOf l r) key pl pr := by
  have hend := m.firstGenerationEnd_pos
  obtain ⟨q, hq⟩ : ∃ q, q = m.allocationPtr - 4 := ⟨_, rfl⟩
  obtain ⟨m₁, hm₁⟩ : ∃ m₁, m₁ = (((m.allocate 4 .avlInternal).2.set (q + 1) key).set (q + 2)
    (ptrToWord pl)).set (q + 3) (ptrToWord pr) := ⟨_, rfl⟩
  have hfun : newAvlInternal m key (ptrToWord pl) (ptrToWord pr) =
      (q, m₁.set q (m₁.words q ||| sonsHeight m₁.words q)) := by
    rw [hm₁, hq]
    rfl
  have hptr : m₁.allocationPtr = q := by
    rw [hm₁, hq]
    rfl
  have hall : m.Allocates m₁ := by
    unfold canAllocate at hcan
    rw [hm₁]
    refine (((allocates_allocate .avlInternal (by decide) hcan).set ?_ _).set ?_ _).set ?_ _
    all_goals
      simp only [set_allocationPtr, allocate_allocationPtr]
      omega
  have hwrites : Writes S m₀ m 4 c c m₁ := .allocates hw hall hcan (hptr.trans hq) c
  have hl' := hwrites.tree hw (Nat.le_refl _) (Nat.le_refl _) hl
  have hr' := hwrites.tree hw (Nat.le_refl _) (Nat.le_refl _) hr
  have hwords : m₁.words q = CellType.avlInternal.header ∧ m₁.words (q + 1) = key ∧
      m₁.words (q + 2) = ptrToWord pl ∧ m₁.words (q + 3) = ptrToWord pr := by
    simp [hm₁, ← hq]
  obtain ⟨hheader, hkey, hleft, hright⟩ := hwords
  have hheight : m₁.words q ||| sonsHeight m₁.words q =
      CellType.avlInternal.header + AvlTree.heightOf l r := by
    rw [AvlNodeAt.sonsHeight_eq hleft hright hl' hr', hheader, header_or_add hh]
  have hcan' := hcan
  unfold canAllocate at hcan'
  refine ⟨q, _, hfun, hptr.symm, .allocates hw (hall.set ⟨by omega, by omega⟩ _) hcan
    (hptr.trans hq) c, ?_, hh, ?_, ?_, ?_, ?_⟩
  · show q ≠ 0
    omega
  · rw [set_words, if_pos rfl, hheight]
  · rw [set_words, if_neg (by omega), hkey]
  · rw [set_words, if_neg (by omega), hleft]
  · rw [set_words, if_neg (by omega), hright]

/-- A new internal node. -/
theorem newAvlInternal_spec {pl pr : Nat} {l r : AvlTree κ Nat} (key : Nat) (hw : Working S m₀ m)
    (hcan : m.canAllocate 4) (hc : m.allocationPtr ≤ c) (hh : AvlTree.heightOf l r < 2 ^ 24)
    (hl : AvlAt rank m.words (Below S m c) pl l) (hr : AvlAt rank m.words (Below S m c) pr r) :
    ∃ q m', newAvlInternal m key (ptrToWord pl) (ptrToWord pr) = (q, m') ∧
      Writes S m₀ m 4 c c m' ∧
      AvlAt rank m'.words (Below S m' c) q (.branch (rank (wordToPtr key)) l r) := by
  obtain ⟨q, m', hnew, hq, hwrites, hnode⟩ := newAvlInternal_node key hw hcan hh hl hr
  have hptr := hwrites.allocationPtr_eq
  exact ⟨q, m', hnew, hwrites, .node hnode (fun i hi => .inr ⟨by omega, by omega⟩)
    (hwrites.tree hw (Nat.le_refl _) (Nat.le_refl _) hl)
    (hwrites.tree hw (Nat.le_refl _) (Nat.le_refl _) hr)⟩

/-- A new internal node over two leaves. -/
theorem father_spec {pl pr : Nat} {l r : AvlTree κ Nat} (kw : Nat) (hw : Working S m₀ m)
    (hcan : m.canAllocate 4) (hc : m.allocationPtr ≤ c)
    (hl : AvlAt rank m.words (Below S m c) pl l) (hr : AvlAt rank m.words (Below S m c) pr r)
    (hh : AvlTree.heightOf l r = 1) {q : Nat} (hq : q = m.allocationPtr - 4) {m' : Memory}
    (hm' : m' = ((((m.allocate 4 .avlInternal).2.set q (CellType.avlInternal.header ||| 1)).set
      (q + 1) kw).set (q + 2) (ptrToWord pl)).set (q + 3) (ptrToWord pr)) :
    Writes S m₀ m 4 c c m' ∧
      AvlAt rank m'.words (Below S m' c) q (.branch (rank (wordToPtr kw)) l r) := by
  have hend := m.firstGenerationEnd_pos
  have hptr : m'.allocationPtr = q := by
    rw [hm', hq]
    rfl
  have hall : m.Allocates m' := by
    unfold Memory.canAllocate at hcan
    rw [hm']
    refine ((((allocates_allocate .avlInternal (by decide) hcan).set ?_ _).set ?_ _).set ?_ _).set
      ?_ _
    all_goals
      simp only [set_allocationPtr, allocate_allocationPtr]
      omega
  have hwrites : Writes S m₀ m 4 c c m' := .allocates hw hall hcan (hptr.trans hq) c
  have hwords : m'.words q = CellType.avlInternal.header ||| 1 ∧ m'.words (q + 1) = kw ∧
      m'.words (q + 2) = ptrToWord pl ∧ m'.words (q + 3) = ptrToWord pr := by
    simp [hm']
  obtain ⟨hheader, hkey, hleft, hright⟩ := hwords
  unfold Memory.canAllocate at hcan
  refine ⟨hwrites, .branch (by unfold nullPtr; omega) (by omega) ?_ hkey hleft hright
    (fun i hi => .inr ⟨by omega, by omega⟩) (hwrites.tree hw (Nat.le_refl _) (Nat.le_refl _) hl)
    (hwrites.tree hw (Nat.le_refl _) (Nat.le_refl _) hr)⟩
  rw [hheader, hh, header_or_add (by decide)]

/-- The height of a node of the path is brought up to date. -/
theorem updateHeight_spec {p h key pl pr : Nat} {l r : AvlTree κ Nat} (hw : Working S m₀ m)
    (hn : AvlNodeAt m.words p h key pl pr) (hlow : m.allocationPtr ≤ p)
    (htop : p + 4 ≤ m₀.allocationPtr) (hh : AvlTree.heightOf l r < 2 ^ 24)
    (hl : AvlAt rank m.words (Below S m p) pl l) (hr : AvlAt rank m.words (Below S m p) pr r) :
    Writes S m₀ m 0 p (p + 4) (updateHeight m p) ∧
      AvlAt rank (updateHeight m p).words (Below S (updateHeight m p) (p + 4)) p
        (.branch (rank (wordToPtr key)) l r) := by
  have hset : Writes S m₀ m 0 p (p + 4) (updateHeight m p) :=
    (Writes.refl hw p (p + 4)).set (Nat.le_refl _) (by omega) hlow (by omega) _
  refine ⟨hset, .branch hn.ne_null hh ?_ ?_ ?_ ?_ ?_ (hset.tree hw (Nat.le_refl _) (by omega) hl)
    (hset.tree hw (Nat.le_refl _) (by omega) hr)⟩
  · unfold updateHeight
    rw [set_words, if_pos rfl, AvlNodeAt.sonsHeight_eq hn.left hn.right hl hr, hn.header,
      (header_add_lt hn.height_lt).2.2, header_or_add hh]
  · unfold updateHeight
    rw [set_words, if_neg (by omega), hn.key]
  · unfold updateHeight
    rw [set_words, if_neg (by omega), hn.left]
  · unfold updateHeight
    rw [set_words, if_neg (by omega), hn.right]
  · intro i hi
    refine .inr ⟨?_, by omega⟩
    unfold updateHeight
    rw [set_allocationPtr]
    omega

end new

end Shades
