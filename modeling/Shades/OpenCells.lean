import Shades.Memory

/-!
# Shades.OpenCells

Cells that were allocated and are not complete yet.  An operation allocates
cells, fills them, and may write to some of them later; these are *open*.  The
other live words are closed: no step of the operation changes them, so what is
represented in them stays as it is.

A cell is given by its address and its size.
-/

namespace Shades

open Memory

/-- The words of the cells. -/
def InCells (cells : List (Nat × Nat)) (a : Nat) : Prop :=
  ∃ c ∈ cells, c.1 ≤ a ∧ a < c.1 + c.2

namespace Memory

/-- The live words that are not in open cells. -/
def Closed (m : Memory) (cells : List (Nat × Nat)) (a : Nat) : Prop :=
  m.Live a ∧ ¬ InCells cells a

/-- `m` was reached from `m₀` by allocating and writing cells, of which `cells`
are open. -/
structure Filling (m₀ : Memory) (cells : List (Nat × Nat)) (m : Memory) : Prop where
  allocates : m₀.Allocates m
  fits : m.firstGenerationEnd ≤ m.allocationPtr
  fresh : ∀ c ∈ cells, m.allocationPtr ≤ c.1 ∧ c.1 + c.2 ≤ m₀.allocationPtr
  apart : cells.Pairwise fun c d => c.1 + c.2 ≤ d.1 ∨ d.1 + d.2 ≤ c.1

/-- The closed words stay as they are. -/
def Keeps (m : Memory) (cells : List (Nat × Nat)) (m' : Memory) (cells' : List (Nat × Nat)) :
    Prop := ∀ a, m.Closed cells a → m'.Closed cells' a ∧ m'.words a = m.words a

variable {m₀ m m' m'' : Memory} {cells cells' cells'' : List (Nat × Nat)} {n q i : Nat}

theorem Keeps.refl (m : Memory) (cells : List (Nat × Nat)) : Keeps m cells m cells :=
  fun _ ha => ⟨ha, rfl⟩

theorem Keeps.trans (h : Keeps m cells m' cells') (h' : Keeps m' cells' m'' cells'') :
    Keeps m cells m'' cells'' := by
  intro a ha
  obtain ⟨ha', heq⟩ := h a ha
  obtain ⟨ha'', heq'⟩ := h' a ha'
  exact ⟨ha'', heq'.trans heq⟩

/-- Fewer cells are open. -/
theorem Keeps.close (m : Memory) (hsub : ∀ c ∈ cells', c ∈ cells) : Keeps m cells m cells' :=
  fun _ ⟨hlive, hnot⟩ => ⟨⟨hlive, fun ⟨c, hc, hin⟩ => hnot ⟨c, hsub c hc, hin⟩⟩, rfl⟩

theorem Filling.refl (hfits : m.firstGenerationEnd ≤ m.allocationPtr) : m.Filling [] m where
  allocates := .refl m
  fits := hfits
  fresh c hc := by cases hc
  apart := .nil

theorem Filling.extends (h : m₀.Filling cells m) : m₀.Extends m := h.allocates.extends h.fits

/-- What was live before is closed and as it was. -/
theorem Filling.keeps (h : m₀.Filling cells m) : Keeps m₀ [] m cells := by
  rintro a ⟨hlive, -⟩
  refine ⟨⟨h.extends.live hlive, fun ⟨c, hc, hin⟩ => ?_⟩, h.extends.agree a hlive⟩
  have hfresh := h.fresh c hc
  have hfits := h.fits
  have hend := h.allocates.firstGenerationEnd_eq
  unfold Live at hlive
  omega

theorem Filling.close (h : m₀.Filling cells m) (hsub : cells'.Sublist cells) :
    m₀.Filling cells' m where
  allocates := h.allocates
  fits := h.fits
  fresh c hc := h.fresh c (hsub.subset hc)
  apart := h.apart.sublist hsub

theorem Filling.perm (h : m₀.Filling cells m) (hperm : cells'.Perm cells) :
    m₀.Filling cells' m where
  allocates := h.allocates
  fits := h.fits
  fresh c hc := h.fresh c (hperm.subset hc)
  apart := (hperm.pairwise_iff fun hab => hab.symm).mpr h.apart

/-- A new cell of `n` words. -/
structure NewCell (m : Memory) (n : Nat) (type : CellType) (q : Nat) (m' : Memory) : Prop where
  eq : m.allocate n type = (q, m')
  size : q + n = m.allocationPtr
  fits : m'.firstGenerationEnd ≤ q
  header : m'.words q = type.header
  words : ∀ a, a ≠ q → m'.words a = m.words a
  allocationPtr_eq : m'.allocationPtr = q
  firstGenerationEnd_eq : m'.firstGenerationEnd = m.firstGenerationEnd
  allocates : m.Allocates m'

theorem exists_newCell (type : CellType) (hn : 0 < n) (hcan : m.canAllocate n) :
    ∃ q m', NewCell m n type q m' := by
  have hcan' := hcan
  unfold canAllocate at hcan'
  refine ⟨m.allocationPtr - n, (m.allocate n type).2, rfl, by omega, ?_, ?_, fun a ha => ?_, rfl,
    rfl, allocates_allocate type hn hcan⟩
  · rw [allocate_firstGenerationEnd]
    omega
  · rw [allocate_words, if_pos rfl]
  · rw [allocate_words, if_neg ha]

theorem NewCell.ne_nullPtr {type : CellType} (h : NewCell m n type q m') : q ≠ nullPtr := by
  have hend := m'.firstGenerationEnd_pos
  have hfits := h.fits
  unfold nullPtr
  omega

/-- A new cell is open. -/
theorem Filling.newCell {type : CellType} (h : m₀.Filling cells m)
    (hnew : NewCell m n type q m') : m₀.Filling ((q, n) :: cells) m' where
  allocates := h.allocates.trans hnew.allocates
  fits := hnew.allocationPtr_eq ▸ hnew.fits
  fresh := by
    have hsize := hnew.size
    have hle := h.allocates.allocationPtr_le
    intro c hc
    rw [hnew.allocationPtr_eq]
    rcases List.mem_cons.mp hc with rfl | hc
    · dsimp only
      omega
    · have hfresh := h.fresh c hc
      omega
  apart := by
    have hsize := hnew.size
    refine List.pairwise_cons.mpr ⟨fun c hc => .inl ?_, h.apart⟩
    have hfresh := h.fresh c hc
    dsimp only
    omega

theorem NewCell.keeps {type : CellType} (hnew : NewCell m n type q m') (hn : 0 < n)
    (cells : List (Nat × Nat)) : Keeps m cells m' ((q, n) :: cells) := by
  have hsize := hnew.size
  have hfits := hnew.fits
  have hend := hnew.firstGenerationEnd_eq
  have hptr := hnew.allocationPtr_eq
  rintro a ⟨hlive, hnot⟩
  unfold Live at hlive
  refine ⟨⟨by unfold Live; omega, fun ⟨c, hc, hin⟩ => ?_⟩, hnew.words a (by omega)⟩
  rcases List.mem_cons.mp hc with rfl | hc
  · dsimp only at hin
    omega
  · exact hnot ⟨c, hc, hin⟩

/-- A word of an open cell is written. -/
theorem Filling.set (h : m₀.Filling cells m) (hq : (q, n) ∈ cells) (hi : i < n) (x : Nat) :
    m₀.Filling cells (m.set (q + i) x) where
  allocates := by
    have hfresh := h.fresh _ hq
    dsimp only at hfresh
    exact h.allocates.set (by omega) x
  fits := h.fits
  fresh := h.fresh
  apart := h.apart

theorem Keeps.set (m : Memory) (hq : (q, n) ∈ cells) (hi : i < n) (x : Nat) :
    Keeps m cells (m.set (q + i) x) cells := by
  rintro a ⟨hlive, hnot⟩
  refine ⟨⟨hlive, hnot⟩, ?_⟩
  rw [set_words, if_neg]
  rintro rfl
  exact hnot ⟨_, hq, Nat.le_add_right q i, by dsimp only; omega⟩

/-- Some words of an open cell are written. -/
theorem Filling.fill (h : m₀.Filling cells m) (hq : (q, n) ∈ cells) (xs : List Nat)
    (hi : i + xs.length ≤ n) : m₀.Filling cells (fillCell q i xs m) := by
  induction xs generalizing m i with
  | nil => exact h
  | cons x xs ih =>
    rw [List.length_cons] at hi
    exact ih (h.set hq (by omega) x) (by omega)

theorem Keeps.fill (m : Memory) (hq : (q, n) ∈ cells) (xs : List Nat)
    (hi : i + xs.length ≤ n) : Keeps m cells (fillCell q i xs m) cells := by
  induction xs generalizing m i with
  | nil => exact .refl m cells
  | cons x xs ih =>
    rw [List.length_cons] at hi
    exact (Keeps.set m hq (by omega) x).trans (ih _ (by omega))

/-- A region of closed words. -/
theorem Keeps.agree (h : Keeps m cells m' cells') : AgreeOn (m.Closed cells) m.words m'.words :=
  fun a ha => (h a ha).2

theorem Keeps.closed (h : Keeps m cells m' cells') (a : Nat) (ha : m.Closed cells a) :
    m'.Closed cells' a := (h a ha).1

/-- Without open cells. -/
@[simp] theorem closed_nil (m : Memory) : m.Closed [] = m.Live := by
  funext a
  simp [Closed, InCells]

/-! ## cells that stay open -/

variable {c₁ c₁' c₂ : List (Nat × Nat)}

theorem Keeps.frame (hk : Keeps m c₁ m' c₁') (c₂ : List (Nat × Nat)) :
    Keeps m (c₁ ++ c₂) m' (c₁' ++ c₂) := by
  rintro a ⟨hlive, hnot⟩
  obtain ⟨⟨hlive', hnot'⟩, heq⟩ := hk a ⟨hlive, fun ⟨c, hc, hin⟩ =>
    hnot ⟨c, List.mem_append_left _ hc, hin⟩⟩
  refine ⟨⟨hlive', fun ⟨c, hc, hin⟩ => ?_⟩, heq⟩
  rcases List.mem_append.mp hc with hc | hc
  · exact hnot' ⟨c, hc, hin⟩
  · exact hnot ⟨c, List.mem_append_right _ hc, hin⟩

/-- A complete cell is closed. -/
theorem Filling.closed (hf : m₀.Filling c₁ m) {c : Nat × Nat} (hc : c ∈ c₁)
    (hapart : ∀ d ∈ c₂, d.1 + d.2 ≤ c.1 ∨ c.1 + c.2 ≤ d.1) {i : Nat} (hi : i < c.2) :
    m.Closed c₂ (c.1 + i) := by
  have hfresh := hf.fresh c hc
  refine ⟨.inr (by omega), fun ⟨d, hd, hin⟩ => ?_⟩
  have had := hapart d hd
  omega

/-- The other open cells are closed for a part of the operation. -/
theorem Filling.closed_right (hf : m₀.Filling (c₁ ++ c₂) m) {c : Nat × Nat} (hc : c ∈ c₂)
    {i : Nat} (hi : i < c.2) : m.Closed c₁ (c.1 + i) :=
  hf.closed (List.mem_append_right _ hc)
    (fun d hd => (List.pairwise_append.mp hf.apart).2.2 d hd c hc) hi

/-- The first open cell is complete. -/
theorem Filling.closed_first {c : Nat × Nat} (hf : m₀.Filling (c :: c₂) m)
    {i : Nat} (hi : i < c.2) : m.Closed c₂ (c.1 + i) :=
  hf.closed List.mem_cons_self
    (fun d hd => ((List.pairwise_cons.mp hf.apart).1 d hd).symm) hi

/-- The second open cell is complete. -/
theorem Filling.closed_second {c d : Nat × Nat} (hf : m₀.Filling (d :: c :: c₂) m)
    {i : Nat} (hi : i < c.2) : m.Closed (d :: c₂) (c.1 + i) := by
  obtain ⟨hd, hc⟩ := List.pairwise_cons.mp hf.apart
  refine hf.closed (List.mem_cons_of_mem _ List.mem_cons_self) (fun e he => ?_) hi
  rcases List.mem_cons.mp he with rfl | he
  · exact hd c List.mem_cons_self
  · exact ((List.pairwise_cons.mp hc).1 e he).symm

/-! ## words that were allocated -/

/-- `n` words were allocated, and the words that were there are as before. -/
structure Took (m : Memory) (n : Nat) (m' : Memory) : Prop where
  words : AgreeOn m.Live m.words m'.words
  allocationPtr_eq : m.allocationPtr = m'.allocationPtr + n
  firstGenerationEnd_eq : m'.firstGenerationEnd = m.firstGenerationEnd

theorem Took.live (ht : m.Took n m') {a : Nat} (ha : m.Live a) : m'.Live a := by
  have hptr := ht.allocationPtr_eq
  have hend := ht.firstGenerationEnd_eq
  unfold Live at ha ⊢
  omega

theorem Took.keeps (ht : m.Took n m') (cells : List (Nat × Nat)) :
    Keeps m cells m' cells :=
  fun a ha => ⟨⟨ht.live ha.1, ha.2⟩, ht.words a ha.1⟩

theorem Took.canAllocate {k : Nat} (ht : m.Took n m') (hcan : m.canAllocate (n + k)) :
    m'.canAllocate k := by
  have hptr := ht.allocationPtr_eq
  have hend := ht.firstGenerationEnd_eq
  unfold Memory.canAllocate at hcan ⊢
  omega

theorem Took.trans {k : Nat} {m'' : Memory} (ht : m.Took n m') (ht' : m'.Took k m'') :
    m.Took (n + k) m'' where
  words := ht.words.trans (ht'.words.mono fun _ ha => ht.live ha)
  allocationPtr_eq := by
    have hptr := ht.allocationPtr_eq
    have hptr' := ht'.allocationPtr_eq
    omega
  firstGenerationEnd_eq := ht'.firstGenerationEnd_eq.trans ht.firstGenerationEnd_eq

/-- A word of a new cell is written. -/
theorem Took.set (ht : m.Took n m') (hfits : m'.firstGenerationEnd ≤ m'.allocationPtr)
    {a : Nat} (hlow : m'.allocationPtr ≤ a) (hhigh : a < m.allocationPtr) (w : Nat) :
    m.Took n (m'.set a w) where
  words z hz := by
    have hend := ht.firstGenerationEnd_eq
    have hne : z ≠ a := by
      unfold Live at hz
      omega
    rw [Memory.set_words, if_neg hne]
    exact ht.words z hz
  allocationPtr_eq := ht.allocationPtr_eq
  firstGenerationEnd_eq := ht.firstGenerationEnd_eq

/-- The last cell is open. -/
theorem Took.keeps_open (ht : m.Took n m')
    (hfits : m'.firstGenerationEnd ≤ m'.allocationPtr) (cells : List (Nat × Nat)) :
    Keeps m cells m' ((m'.allocationPtr, n) :: cells) := by
  have hptr := ht.allocationPtr_eq
  have hend := ht.firstGenerationEnd_eq
  rintro a ⟨hlive, hnot⟩
  refine ⟨⟨ht.live hlive, fun ⟨c, hc, hin⟩ => ?_⟩, ht.words a hlive⟩
  rcases List.mem_cons.mp hc with rfl | hc
  · unfold Live at hlive
    dsimp only at hin
    omega
  · exact hnot ⟨c, hc, hin⟩

theorem Took.agree (ht : m.Took n m') {words : Nat → Nat}
    (hagree : AgreeOn m'.Live m'.words words) : AgreeOn m.Live m.words words :=
  ht.words.trans (hagree.mono fun _ ha => ht.live ha)

end Memory

end Shades
