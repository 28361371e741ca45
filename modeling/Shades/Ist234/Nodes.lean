import Shades.Ist234.Rep

/-!
# Shades.Ist234.Nodes

New nodes.  While an operation works the memory has grown from `m₀` to `m`, and
the cells from `C₀` to `C`.  The cells of a tree never overlap, which bounds the
number of nodes and with it the number of levels.

`Builds W` is a part of the work that writes to no word that was live before,
except for those in `W`.
-/

namespace Shades

open Memory

/-- The cells lie in the live memory, and they do not overlap. -/
structure IstCells (C : Nat → Nat → Prop) (m : Memory) : Prop where
  live : ∀ p n, C p n → m.allocationPtr ≤ p ∨ p + n ≤ m.firstGenerationEnd
  apart : ∀ p n q k, C p n → C q k → (p = q ∧ n = k) ∨ p + n ≤ q ∨ q + k ≤ p
  addressable : ∀ p n, C p n → p + n ≤ 2 ^ 30

/-- The cells after one more was allocated. -/
def addCell (C : Nat → Nat → Prop) (q n p k : Nat) : Prop := C p k ∨ (p = q ∧ k = n)

theorem addCell_self (C : Nat → Nat → Prop) (q n : Nat) : addCell C q n q n := .inr ⟨rfl, rfl⟩

theorem IstCells.region {C : Nat → Nat → Prop} {m : Memory} (h : IstCells C m) {a : Nat}
    (ha : Region C a) : m.Live a := by
  obtain ⟨p, n, hcell, hle, hlt⟩ := ha
  rcases h.live p n hcell with hlive | hlive
  · exact .inr (by omega)
  · exact .inl (by omega)

/-- The trees and the memory have grown. -/
structure Growing (C₀ : Nat → Nat → Prop) (m₀ : Memory) (C : Nat → Nat → Prop) (m : Memory) :
    Prop where
  grows : m₀.Extends m
  fits : m.firstGenerationEnd ≤ m.allocationPtr
  addressable : m.allocationPtr ≤ 2 ^ 30
  cells : IstCells C m
  old_cells : IstCells C₀ m₀
  sub : ∀ p n, C₀ p n → C p n

/-- At most `n` words were allocated, and of the live words only those in `W`
were written. -/
structure Builds (C₀ : Nat → Nat → Prop) (m₀ : Memory) (W : Nat → Prop) (n : Nat)
    (C : Nat → Nat → Prop) (m : Memory) (C' : Nat → Nat → Prop) (m' : Memory) : Prop where
  growing : Growing C₀ m₀ C' m'
  sub : ∀ p n, C p n → C' p n
  allocationPtr_le : m'.allocationPtr ≤ m.allocationPtr
  le_allocationPtr : m.allocationPtr ≤ m'.allocationPtr + n
  agree : ∀ a, m.Live a → ¬ W a → m'.words a = m.words a

section growing

variable {κ : Type} {rank : Nat → κ} {C₀ C C' C'' : Nat → Nat → Prop} {m₀ m m' m'' : Memory}
variable {W W' : Nat → Prop} {n k d p w : Nat} {fields : List Nat} {items : List (κ × Nat)}

theorem Growing.start (hfits : m.firstGenerationEnd ≤ m.allocationPtr)
    (haddr : m.allocationPtr ≤ 2 ^ 30) (hcells : IstCells C m) : Growing C m C m :=
  ⟨.refl m, hfits, haddr, hcells, hcells, fun _ _ h => h⟩

/-- An old tree. -/
theorem Growing.tree (h : Growing C₀ m₀ C m) (ht : IstAt rank m₀.words C₀ d w items) :
    IstAt rank m.words C d w items :=
  ht.frame h.sub (h.grows.agree.mono fun _ ha => h.old_cells.region ha)

/-- An old node. -/
theorem Growing.node (h : Growing C₀ m₀ C m) (hn : IstNode m₀.words C₀ p fields) :
    IstNode m.words C p fields :=
  hn.frame h.sub fun i hi =>
    h.grows.agree _ (h.old_cells.region ⟨p, _, hn.cell, by omega, by omega⟩)

/-- The words of a cell are live. -/
theorem Growing.live (h : Growing C₀ m₀ C m) (hcell : C p n) {i : Nat} (hi : i < n) :
    m.Live (p + i) := h.cells.region ⟨p, n, hcell, by omega, by omega⟩

/-- What can still be allocated. -/
theorem Growing.canAllocate (h : Growing C₀ m₀ C m) (h' : Growing C₀ m₀ C' m')
    (hptr : m.allocationPtr ≤ m'.allocationPtr + n) (hcan : m.canAllocate (n + k)) :
    m'.canAllocate k := by
  have hend := h.grows.firstGenerationEnd_eq
  have hend' := h'.grows.firstGenerationEnd_eq
  unfold Memory.canAllocate at hcan ⊢
  omega

theorem Growing.set (h : Growing C₀ m₀ C m) {a : Nat} (ha : ¬ m₀.Live a) (x : Nat) :
    Growing C₀ m₀ C (m.set a x) where
  grows := h.grows.set ha x
  fits := h.fits
  addressable := h.addressable
  cells := ⟨h.cells.live, h.cells.apart, h.cells.addressable⟩
  old_cells := h.old_cells
  sub := h.sub

theorem Builds.refl (h : Growing C₀ m₀ C m) (W : Nat → Prop) : Builds C₀ m₀ W 0 C m C m :=
  ⟨h, fun _ _ hc => hc, Nat.le_refl _, Nat.le_refl _, fun _ _ _ => rfl⟩

theorem Builds.live (h : Builds C₀ m₀ W n C m C' m') (hm : Growing C₀ m₀ C m) {a : Nat}
    (ha : m.Live a) : m'.Live a := by
  have hend := hm.grows.firstGenerationEnd_eq
  have hend' := h.growing.grows.firstGenerationEnd_eq
  have hle := h.allocationPtr_le
  unfold Memory.Live at ha ⊢
  omega

theorem Builds.trans (hm : Growing C₀ m₀ C m) (h : Builds C₀ m₀ W n C m C' m')
    (h' : Builds C₀ m₀ W k C' m' C'' m'') : Builds C₀ m₀ W (n + k) C m C'' m'' where
  growing := h'.growing
  sub := fun p n hc => h'.sub p n (h.sub p n hc)
  allocationPtr_le := Nat.le_trans h'.allocationPtr_le h.allocationPtr_le
  le_allocationPtr := by
    have h₁ := h.le_allocationPtr
    have h₂ := h'.le_allocationPtr
    omega
  agree := fun a ha hW => by rw [h'.agree a (h.live hm ha) hW, h.agree a ha hW]

theorem Builds.mono (h : Builds C₀ m₀ W n C m C' m') (hW : ∀ a, m.Live a → W a → W' a)
    (hn : n ≤ k) : Builds C₀ m₀ W' k C m C' m' where
  growing := h.growing
  sub := h.sub
  allocationPtr_le := h.allocationPtr_le
  le_allocationPtr := by
    have h₁ := h.le_allocationPtr
    omega
  agree := fun a ha ha' => h.agree a ha fun hWa => ha' (hW a ha hWa)

theorem Builds.canAllocate (h : Builds C₀ m₀ W n C m C' m') (hm : Growing C₀ m₀ C m)
    (hcan : m.canAllocate (n + k)) : m'.canAllocate k :=
  hm.canAllocate h.growing h.le_allocationPtr hcan

/-- Trees stay when nothing of them is written. -/
theorem Builds.tree (h : Builds C₀ m₀ W n C m C' m') (hm : Growing C₀ m₀ C m)
    (hW : ∀ a, Region C a → ¬ W a) (ht : IstAt rank m.words C d w items) :
    IstAt rank m'.words C' d w items :=
  ht.frame h.sub fun a ha => h.agree a (hm.cells.region ha) (hW a ha)

/-- A node of which nothing is written. -/
theorem Builds.node (h : Builds C₀ m₀ W n C m C' m') (hm : Growing C₀ m₀ C m)
    (hn : IstNode m.words C p fields) (hW : ∀ i ≤ fields.length, ¬ W (p + i)) :
    IstNode m'.words C' p fields :=
  hn.frame h.sub fun i hi => h.agree _ (hm.live hn.cell (by omega)) (hW i hi)

theorem Builds.set (hm : Growing C₀ m₀ C m) {a : Nat} (ha : ¬ m₀.Live a) (hW : W a) (x : Nat) :
    Builds C₀ m₀ W 0 C m C (m.set a x) where
  growing := hm.set ha x
  sub := fun _ _ hc => hc
  allocationPtr_le := Nat.le_refl _
  le_allocationPtr := Nat.le_refl _
  agree := by
    intro b _ hW'
    have hne : b ≠ a := fun hba => hW' (hba ▸ hW)
    rw [set_words, if_neg hne]

/-- A new cell. -/
theorem Builds.newCell (hm : Growing C₀ m₀ C m) (hall : m.Allocates m') (hcan : m.canAllocate n)
    (hptr : m'.allocationPtr = m.allocationPtr - n) :
    Builds C₀ m₀ (fun _ => False) n C m (addCell C m'.allocationPtr n) m' := by
  have hend := hall.firstGenerationEnd_eq
  have haddr := hm.addressable
  unfold Memory.canAllocate at hcan
  have hext : m.Extends m' := hall.extends (by omega)
  refine ⟨⟨hm.grows.trans hext, by omega, by omega, ⟨?_, ?_, ?_⟩, hm.old_cells, ?_⟩, ?_, by omega,
    by omega, fun a ha _ => hext.agree a ha⟩
  · rintro p k (hc | ⟨rfl, rfl⟩)
    · have hlive := hm.cells.live p k hc
      omega
    · omega
  · rintro p k q l (hc | ⟨rfl, rfl⟩) (hc' | ⟨rfl, rfl⟩)
    · exact hm.cells.apart p k q l hc hc'
    · have hlive := hm.cells.live p k hc
      omega
    · have hlive := hm.cells.live q l hc'
      omega
    · omega
  · rintro p k (hc | ⟨rfl, rfl⟩)
    · exact hm.cells.addressable p k hc
    · omega
  · exact fun p k hc => .inl (hm.sub p k hc)
  · exact fun p k hc => .inl hc

end growing

/-! ## the words of a new node -/

/-- A node with a new cell. -/
structure NewNode (C₀ : Nat → Nat → Prop) (m₀ : Memory) (C : Nat → Nat → Prop) (m : Memory)
    (q : Nat) (fields : List Nat) (C' : Nat → Nat → Prop) (m' : Memory) : Prop where
  builds : Builds C₀ m₀ (fun _ => False) (fields.length + 1) C m C' m'
  node : IstNode m'.words C' q fields
  eq_allocationPtr : q = m'.allocationPtr
  below : q + (fields.length + 1) = m.allocationPtr

/-- Some words of a node are written. -/
theorem IstNode.update {words words' : Nat → Nat} {C : Nat → Nat → Prop} {p : Nat}
    {L M M' R : List Nat} (h : IstNode words C p (L ++ M ++ R)) (hlen : M'.length = M.length)
    (hM : slice words' (p + 1 + L.length) M.length = M')
    (hw : ∀ i ≤ (L ++ M ++ R).length, i ≤ L.length ∨ L.length + M.length < i →
      words' (p + i) = words (p + i)) : IstNode words' C p (L ++ M' ++ R) := by
  have hlen' : (L ++ M' ++ R).length = (L ++ M ++ R).length := by simp [hlen]
  have hfields := h.fields_eq
  rw [List.length_append, List.length_append, slice_add, slice_add] at hfields
  obtain ⟨hLM, hR⟩ := List.append_inj hfields (by simp)
  obtain ⟨hL, -⟩ := List.append_inj hLM (by simp)
  simp only [List.length_append] at hw
  refine ⟨h.ne_null, hlen' ▸ h.length, ?_, ?_, hlen' ▸ h.cell⟩
  · rw [hlen', ← h.header]
    exact hw 0 (Nat.zero_le _) (.inl (Nat.zero_le _))
  · have hL' : slice words' (p + 1) L.length = L := by
      rw [slice_congr fun i hi => ?_, hL]
      rw [Nat.add_assoc]
      exact hw _ (by omega) (.inl (by omega))
    have hR' : slice words' (p + 1 + (L.length + M.length)) R.length = R := by
      rw [slice_congr fun i hi => ?_, hR]
      rw [Nat.add_assoc, Nat.add_assoc]
      exact hw _ (by omega) (.inr (by omega))
    rw [hlen', List.length_append, List.length_append, slice_add, slice_add, hL', hM, hR']

/-- One word of a node is written. -/
theorem IstNode.setWord {m : Memory} {C : Nat → Nat → Prop} {p c : Nat} {L R : List Nat}
    (h : IstNode m.words C p (L ++ c :: R)) (x : Nat) :
    IstNode (m.set (p + (L.length + 1)) x).words C p (L ++ x :: R) := by
  rw [← List.singleton_append, ← List.append_assoc] at h ⊢
  refine h.update rfl ?_ fun i _ hi => ?_
  · simp [slice, Nat.add_comm, Nat.add_left_comm]
  · rw [List.length_singleton] at hi
    rw [set_words, if_neg (by omega)]

section newNode

variable {C₀ C : Nat → Nat → Prop} {m₀ m : Memory} {p : Nat} {fields : List Nat}

theorem NewNode.extends {C' : Nat → Nat → Prop} {m' : Memory} {q : Nat}
    (h : NewNode C₀ m₀ C m q fields C' m') {a : Nat} (ha : m.Live a) :
    m'.words a = m.words a := h.builds.agree a ha fun hfalse => hfalse

/-- A new node over trees. -/
theorem NewNode.tree {κ : Type} {rank : Nat → κ} {C' : Nat → Nat → Prop} {m' : Memory} {q d : Nat}
    {items : List (κ × Nat)} (h : NewNode C₀ m₀ C m q fields C' m') (hm : Growing C₀ m₀ C m)
    (hsons : Sons rank (IstAt rank m.words C d) fields items) :
    IstAt rank m'.words C' (d + 1) (ptrToWord q) items :=
  ⟨q, fields, rfl, h.node,
    hsons.mono fun _ _ hc => h.builds.tree hm (fun _ _ hfalse => hfalse) hc⟩

/-- `allocate` and the words of the node. -/
theorem newNode_spec (fields : List Nat) (hm : Growing C₀ m₀ C m)
    (hlen : fields.length = 4 ∨ fields.length = 7 ∨ fields.length = 10)
    (hcan : m.canAllocate (fields.length + 1)) :
    ∃ q C' m', newNode m ((fields.length + 2) / 3) fields = (q, m') ∧
      NewNode C₀ m₀ C m q fields C' m' := by
  obtain ⟨q, hq⟩ : ∃ q, q = m.allocationPtr - (fields.length + 1) := ⟨_, rfl⟩
  obtain ⟨m', hm'⟩ : ∃ m', m' = fillCell q 1 fields
      ((m.allocate (fields.length + 1) .ist234).2.set q
        (CellType.ist234.header ||| (fields.length + 2) / 3)) := ⟨_, rfl⟩
  have hsize : 3 * ((fields.length + 2) / 3) - 1 = fields.length + 1 := by omega
  have hrun : newNode m ((fields.length + 2) / 3) fields = (q, m') := by
    unfold newNode
    rw [hsize, hm', hq]
    simp [allocate_fst]
  have hend := m.firstGenerationEnd_pos
  have hcan' := hcan
  unfold Memory.canAllocate at hcan'
  have hptr : m'.allocationPtr = q := by
    rw [hm', hq]
    simp
  have hall : m.Allocates m' := by
    rw [hm']
    refine ((allocates_allocate .ist234 (by omega) hcan).set ?_ _).fillCell fields ?_ ?_
    · rw [allocate_allocationPtr]
      omega
    · rw [set_allocationPtr, allocate_allocationPtr]
      omega
    · omega
  refine ⟨q, _, m', hrun, .newCell hm hall hcan (hptr.trans hq), ?_, hptr.symm, by omega⟩
  refine ⟨by unfold nullPtr; omega, hlen, ?_, ?_, ?_⟩
  · rw [hm', fillCell_words_of_lt fields _ (by omega), set_words, if_pos rfl,
      header_or _ (by omega),
      CellType.header_eq]
  · rw [hm']
    exact slice_fillCell q 1 fields _
  · rw [hptr]
    exact addCell_self C q _

/-- `copy_node`. -/
theorem copyNode_spec (hm : Growing C₀ m₀ C m) (hn : IstNode m.words C p fields)
    (hcan : m.canAllocate (fields.length + 1)) :
    ∃ q C' m', copyNode m p = (q, m') ∧ NewNode C₀ m₀ C m q fields C' m' := by
  obtain ⟨q, hq⟩ : ∃ q, q = m.allocationPtr - (fields.length + 1) := ⟨_, rfl⟩
  obtain ⟨m', hm'⟩ : ∃ m', m' = fillCell q 0 (slice m.words p (fields.length + 1))
      (m.allocate (fields.length + 1) .ist234).2 := ⟨_, rfl⟩
  have hlen := hn.length
  have hsize : 3 * nodeType m.words p - 1 = fields.length + 1 := by
    rw [hn.nodeType_eq]
    omega
  have hrun : copyNode m p = (q, m') := by
    unfold copyNode
    rw [hsize, hm', hq]
    simp [allocate_fst]
  have hend := m.firstGenerationEnd_pos
  have hcan' := hcan
  unfold Memory.canAllocate at hcan'
  have hptr : m'.allocationPtr = q := by
    rw [hm', hq]
    simp
  have hall : m.Allocates m' := by
    rw [hm']
    refine (allocates_allocate .ist234 (by omega) hcan).fillCell _ ?_ ?_
    · rw [allocate_allocationPtr]
      omega
    · rw [length_slice]
      omega
  have hslice : slice m'.words q (fields.length + 1) = m.words p :: fields := by
    have hfill := slice_fillCell q 0 (slice m.words p (fields.length + 1))
      (m.allocate (fields.length + 1) .ist234).2
    rw [length_slice, ← hm', Nat.add_zero] at hfill
    rw [hfill, slice, hn.fields_eq]
  rw [slice] at hslice
  obtain ⟨hheader, hfields⟩ := List.cons.inj hslice
  refine ⟨q, _, m', hrun, .newCell hm hall hcan (hptr.trans hq), ?_, hptr.symm, by omega⟩
  refine ⟨by unfold nullPtr; omega, hn.length, hheader.trans hn.header, hfields, ?_⟩
  rw [hptr]
  exact addCell_self C q _

end newNode

end Shades
