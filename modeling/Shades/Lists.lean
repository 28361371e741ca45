import Shades.Memory

/-!
# Shades.Lists

The lists of `list.h`.  A list is the word of its first cell, or `NULL_WORD` if
it is empty; `ListAt words S w xs` says that the word `w` is a list of the words
`xs` kept in cells of the region `S`.

`Outside m q n` is the region of the live words of a memory without the cell of
`n` words at `q`.  A new cell is filled while other cells are allocated, and the
lists that it points to lie in that region.
-/

namespace Shades

/-! ## the code -/

/-- `CAR`. -/
def car (words : Nat → Nat) (p : Nat) : Option Nat := do
  assert (cellType (words p) = CellType.list.code)
  some (words (p + 1))

/-- `CDR`. -/
def cdr (words : Nat → Nat) (p : Nat) : Option Nat := do
  assert (cellType (words p) = CellType.list.code)
  some (words (p + 2))

/-- `WCAR`. -/
def wcar (words : Nat → Nat) (x : Nat) : Option Nat := car words (wordToPtr x)

/-- `WCDR`. -/
def wcdr (words : Nat → Nat) (x : Nat) : Option Nat := cdr words (wordToPtr x)

/-- `WCONS`. -/
def wcons (m : Memory) (a d : Nat) : Nat × Memory :=
  let (r, m) := m.allocate 3 .list
  (ptrToWord r, (m.set (r + 1) a).set (r + 2) d)

/-! ## lists in memory -/

/-- A list in cells of the region `S`. -/
inductive ListAt (words : Nat → Nat) (S : Nat → Prop) : Nat → List Nat → Prop
  | nil : ListAt words S nullWord []
  | cons {p x w : Nat} {xs : List Nat} (hp : p ≠ nullPtr)
      (htype : cellType (words p) = CellType.list.code) (hS : ∀ i < 3, S (p + i))
      (hcar : words (p + 1) = x) (hcdr : words (p + 2) = w) (htail : ListAt words S w xs) :
      ListAt words S (ptrToWord p) (x :: xs)

namespace ListAt

variable {words words' : Nat → Nat} {S S' : Nat → Prop} {w x : Nat} {xs : List Nat}

theorem frame (h : ListAt words S w xs) (hagree : AgreeOn S words words')
    (hS : ∀ a, S a → S' a) : ListAt words' S' w xs := by
  induction h with
  | nil => exact .nil
  | cons hp htype hcell hcar hcdr _ ih =>
    refine .cons hp ?_ (fun i hi => hS _ (hcell i hi)) ?_ ?_ ih
    · have hheader := hagree _ (hcell 0 (by decide))
      rw [Nat.add_zero] at hheader
      rw [hheader, htype]
    · rw [hagree _ (hcell 1 (by decide)), hcar]
    · rw [hagree _ (hcell 2 (by decide)), hcdr]

theorem wcar_eq (h : ListAt words S w (x :: xs)) : wcar words w = some x := by
  cases h with
  | cons hp htype hS hcar hcdr htail =>
    simp [wcar, car, wordToPtr_ptrToWord, assert_true htype, hcar]

theorem wcdr_eq (h : ListAt words S w (x :: xs)) :
    ∃ w', wcdr words w = some w' ∧ ListAt words S w' xs := by
  cases h with
  | cons hp htype hS hcar hcdr htail =>
    exact ⟨_, by simp [wcdr, cdr, wordToPtr_ptrToWord, assert_true htype, hcdr], htail⟩

theorem wcadr_eq {y : Nat} (h : ListAt words S w (y :: x :: xs)) :
    (wcdr words w).bind (wcar words) = some x := by
  obtain ⟨w', hw', htail⟩ := h.wcdr_eq
  rw [hw', Option.bind_some, htail.wcar_eq]

/-- Only the empty list is `NULL_WORD`. -/
theorem eq_nullWord_iff (h : ListAt words S w xs) : w = nullWord ↔ xs = [] := by
  cases h with
  | nil => simp
  | cons hp _ _ _ _ _ => simpa [nullWord, nullPtr] using hp

/-- The cell of a list that is not empty. -/
theorem cellType_eq (h : ListAt words S w (x :: xs)) :
    cellType (words (wordToPtr w)) = CellType.list.code := by
  cases h with
  | cons hp htype _ _ _ _ => rwa [wordToPtr_ptrToWord]

end ListAt

/-! ## new list cells -/

namespace Memory

/-- The live words without the cell of `n` words at `q`. -/
def Outside (m : Memory) (q n a : Nat) : Prop := m.Live a ∧ (a < q ∨ q + n ≤ a)

/-- `m'` was reached from `m` by allocating and filling fresh cells and by
writing to the cell of `n` words at `q`. -/
structure Fills (q n : Nat) (m m' : Memory) : Prop where
  allocationPtr_le : m'.allocationPtr ≤ m.allocationPtr
  firstGenerationEnd_eq : m'.firstGenerationEnd = m.firstGenerationEnd
  firstGenerationStart_eq : m'.firstGenerationStart = m.firstGenerationStart
  agree : AgreeOn (m.Outside q n) m.words m'.words

variable {q n : Nat} {m m' m'' : Memory}

theorem Fills.refl (q n : Nat) (m : Memory) : Fills q n m m :=
  ⟨Nat.le_refl _, rfl, rfl, fun _ _ => rfl⟩

theorem Fills.outside (h : Fills q n m m') {a : Nat} (ha : m.Outside q n a) :
    m'.Outside q n a := by
  obtain ⟨hlive, hcell⟩ := ha
  refine ⟨?_, hcell⟩
  rcases hlive with hlt | hle
  · exact .inl (h.firstGenerationEnd_eq ▸ hlt)
  · exact .inr (Nat.le_trans h.allocationPtr_le hle)

theorem Fills.trans (h : Fills q n m m') (h' : Fills q n m' m'') : Fills q n m m'' where
  allocationPtr_le := Nat.le_trans h'.allocationPtr_le h.allocationPtr_le
  firstGenerationEnd_eq := h'.firstGenerationEnd_eq.trans h.firstGenerationEnd_eq
  firstGenerationStart_eq := h'.firstGenerationStart_eq.trans h.firstGenerationStart_eq
  agree := h.agree.trans (h'.agree.mono fun _ ha => h.outside ha)

/-- Writing to the cell. -/
theorem fills_set {i : Nat} (hi : i < n) (x : Nat) : Fills q n m (m.set (q + i) x) where
  allocationPtr_le := Nat.le_refl _
  firstGenerationEnd_eq := rfl
  firstGenerationStart_eq := rfl
  agree := by
    intro a ha
    obtain ⟨-, hcell⟩ := ha
    rw [set_words, if_neg (by omega)]

end Memory

section

open Memory

variable {q n d : Nat} {m m' : Memory} {xs : List Nat}

/-- A list is not touched. -/
theorem ListAt.fills (h : ListAt m.words (m.Outside q n) d xs) (hfill : Fills q n m m') :
    ListAt m'.words (m'.Outside q n) d xs :=
  h.frame hfill.agree fun _ => hfill.outside

/-- What `WCONS` does while the cell at `q` is filled. -/
structure Consed (q n : Nat) (m m' : Memory) : Prop where
  fills : Fills q n m m'
  allocationPtr_eq : m'.allocationPtr + 3 = m.allocationPtr
  cell : ∀ i < n, m'.words (q + i) = m.words (q + i)

theorem wcons_spec (hd : ListAt m.words (m.Outside q n) d xs) (hcan : m.canAllocate 3)
    (hq : m.allocationPtr ≤ q) (x : Nat) :
    Consed q n m (wcons m x d).2 ∧
      ListAt (wcons m x d).2.words ((wcons m x d).2.Outside q n) (wcons m x d).1 (x :: xs) := by
  have hend := m.firstGenerationEnd_pos
  unfold canAllocate at hcan
  have hwords : ∀ a, a < m.allocationPtr - 3 ∨ m.allocationPtr ≤ a →
      (wcons m x d).2.words a = m.words a := by
    intro a ha
    simp [wcons, allocate_fst, show a ≠ m.allocationPtr - 3 by omega,
      show a ≠ m.allocationPtr - 3 + 1 by omega, show a ≠ m.allocationPtr - 3 + 2 by omega]
  have hfills : Fills q n m (wcons m x d).2 :=
    { allocationPtr_le := Nat.sub_le _ _
      firstGenerationEnd_eq := rfl
      firstGenerationStart_eq := rfl
      agree := by
        intro a ha
        obtain ⟨hlive | hlive, -⟩ := ha
        · exact hwords a (by omega)
        · exact hwords a (by omega) }
  have hptr : (wcons m x d).2.allocationPtr = m.allocationPtr - 3 := rfl
  refine ⟨⟨hfills, by omega, fun i _ => hwords _ (by omega)⟩, ?_⟩
  refine .cons (p := m.allocationPtr - 3) (w := d) ?_ ?_ ?_ ?_ ?_ (hd.fills hfills)
  · unfold nullPtr
    omega
  · simp [wcons, allocate_fst]
    rfl
  · intro i hi
    exact ⟨.inr (by omega), by omega⟩
  · simp [wcons, allocate_fst]
  · simp [wcons, allocate_fst]

end

end Shades
