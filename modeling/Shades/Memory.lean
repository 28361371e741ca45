import Shades.Cells

/-!
# Shades.Memory

The memory of the database as an array of words, and the allocator of the
first generation.

The first generation lies above the database pages and grows downwards:
`allocate` decrements `first_generation_allocation_ptr`.  A word is *live*
when it belongs to a page or has been allocated; the words between
`first_generation_end` and the allocation pointer hold whatever was left
there.  Code that only allocates and fills fresh cells leaves every live word
alone, which is what `Extends` says.
-/

namespace Shades

/-- The words of the database and the bounds of the first generation.  Index
`0` is `NULL_PTR`, so no cell of the first generation lies there. -/
structure Memory where
  words : Nat → Nat
  allocationPtr : Nat
  firstGenerationEnd : Nat
  firstGenerationStart : Nat
  firstGenerationEnd_pos : 0 < firstGenerationEnd

/-- The words listed with their addresses, and `0` elsewhere. -/
def wordsOf (cells : List (Nat × Nat)) (a : Nat) : Nat := (cells.lookup a).getD 0

/-- A small memory: the cells listed lie below `100`, and the first generation
has 500 words, none of them in use. -/
def smallMemory (cells : List (Nat × Nat)) : Memory where
  words := wordsOf cells
  allocationPtr := 600
  firstGenerationEnd := 100
  firstGenerationStart := 600
  firstGenerationEnd_pos := by decide

/-- A memory like `smallMemory` with a larger first generation. -/
def roomyMemory (cells : List (Nat × Nat)) : Memory where
  words := wordsOf cells
  allocationPtr := 5000
  firstGenerationEnd := 100
  firstGenerationStart := 5000
  firstGenerationEnd_pos := by decide

/-- Two memories hold the same words on a region. -/
def AgreeOn (S : Nat → Prop) (f g : Nat → Nat) : Prop := ∀ a, S a → g a = f a

theorem AgreeOn.mono {S T : Nat → Prop} {f g : Nat → Nat} (h : AgreeOn S f g)
    (hST : ∀ a, T a → S a) : AgreeOn T f g :=
  fun a ha => h a (hST a ha)

theorem AgreeOn.trans {S : Nat → Prop} {f g h : Nat → Nat} (hfg : AgreeOn S f g)
    (hgh : AgreeOn S g h) : AgreeOn S f h :=
  fun a ha => (hgh a ha).trans (hfg a ha)

namespace Memory

/-! ## reading and writing words -/

/-- `*p = x`. -/
def set (m : Memory) (p : Nat) (x : Nat) : Memory :=
  { m with words := fun q => if q = p then x else m.words q }

@[simp] theorem set_words (m : Memory) (p : Nat) (x : Nat) (q : Nat) :
    (m.set p x).words q = if q = p then x else m.words q := rfl

@[simp] theorem set_allocationPtr (m : Memory) (p : Nat) (x : Nat) :
    (m.set p x).allocationPtr = m.allocationPtr := rfl

@[simp] theorem set_firstGenerationEnd (m : Memory) (p : Nat) (x : Nat) :
    (m.set p x).firstGenerationEnd = m.firstGenerationEnd := rfl

@[simp] theorem set_firstGenerationStart (m : Memory) (p : Nat) (x : Nat) :
    (m.set p x).firstGenerationStart = m.firstGenerationStart := rfl

/-- Writing the word that is there already. -/
theorem set_self {m : Memory} {p x : Nat} (h : m.words p = x) : m.set p x = m := by
  have hwords : (fun q => if q = p then x else m.words q) = m.words := by
    funext q
    by_cases hq : q = p
    · rw [if_pos hq, hq, h]
    · rw [if_neg hq]
  unfold set
  rw [hwords]

/-- Writing two different words. -/
theorem set_comm {p q : Nat} (h : p ≠ q) (m : Memory) (x y : Nat) :
    (m.set p x).set q y = (m.set q y).set p x := by
  unfold set
  congr 1
  funext a
  by_cases ha : a = p
  · have hne : a ≠ q := ha ▸ h
    simp [ha, h]
  · simp [ha]

/-! ## the first generation -/

/-- `can_allocate`: the pointer would not pass the end of the first
generation. -/
def canAllocate (m : Memory) (numberOfWords : Nat) : Prop :=
  m.firstGenerationEnd + numberOfWords ≤ m.allocationPtr

instance (m : Memory) (n : Nat) : Decidable (m.canAllocate n) :=
  inferInstanceAs (Decidable (_ ≤ _))

theorem canAllocate_mono {m : Memory} {n k : Nat} (h : m.canAllocate n) (hk : k ≤ n) :
    m.canAllocate k := Nat.le_trans (Nat.add_le_add_left hk _) h

/-- `raw_allocate`: the new cell starts at the decremented pointer. -/
def rawAllocate (m : Memory) (numberOfWords : Nat) : Nat × Memory :=
  (m.allocationPtr - numberOfWords,
    { m with allocationPtr := m.allocationPtr - numberOfWords })

/-- `allocate`: as `raw_allocate`, and the first word receives the type
tag. -/
def allocate (m : Memory) (numberOfWords : Nat) (type : CellType) : Nat × Memory :=
  let (p, m) := m.rawAllocate numberOfWords
  (p, m.set p type.header)

/-- `restore_allocation_point`. -/
def restoreAllocationPoint (m : Memory) (p : Nat) : Memory := { m with allocationPtr := p }

theorem allocate_fst (m : Memory) (n : Nat) (t : CellType) :
    (m.allocate n t).1 = m.allocationPtr - n := rfl

@[simp] theorem allocate_allocationPtr (m : Memory) (n : Nat) (t : CellType) :
    (m.allocate n t).2.allocationPtr = m.allocationPtr - n := rfl

@[simp] theorem allocate_firstGenerationEnd (m : Memory) (n : Nat) (t : CellType) :
    (m.allocate n t).2.firstGenerationEnd = m.firstGenerationEnd := rfl

@[simp] theorem allocate_firstGenerationStart (m : Memory) (n : Nat) (t : CellType) :
    (m.allocate n t).2.firstGenerationStart = m.firstGenerationStart := rfl

@[simp] theorem allocate_words (m : Memory) (n : Nat) (t : CellType) (q : Nat) :
    (m.allocate n t).2.words q = if q = m.allocationPtr - n then t.header else m.words q := rfl

@[simp] theorem rawAllocate_words (m : Memory) (n : Nat) :
    (m.rawAllocate n).2.words = m.words := rfl

@[simp] theorem restoreAllocationPoint_words (m : Memory) (p : Nat) :
    (m.restoreAllocationPoint p).words = m.words := rfl

/-- The allocator is in the same state. -/
structure SameBounds (m m' : Memory) : Prop where
  allocationPtr_eq : m'.allocationPtr = m.allocationPtr
  firstGenerationEnd_eq : m'.firstGenerationEnd = m.firstGenerationEnd

theorem SameBounds.refl (m : Memory) : SameBounds m m := ⟨rfl, rfl⟩

theorem SameBounds.trans {m m' m'' : Memory} (h : SameBounds m m') (h' : SameBounds m' m'') :
    SameBounds m m'' where
  allocationPtr_eq := h'.allocationPtr_eq.trans h.allocationPtr_eq
  firstGenerationEnd_eq := h'.firstGenerationEnd_eq.trans h.firstGenerationEnd_eq

theorem SameBounds.canAllocate {m m' : Memory} (h : SameBounds m m') {n : Nat}
    (hcan : m.canAllocate n) : m'.canAllocate n := by
  unfold Memory.canAllocate at hcan ⊢
  rw [h.allocationPtr_eq, h.firstGenerationEnd_eq]
  exact hcan

/-- The words that belong to a page or to an allocated cell. -/
def Live (m : Memory) (a : Nat) : Prop := a < m.firstGenerationEnd ∨ m.allocationPtr ≤ a

/-- `m'` was reached from `m` by allocating and filling fresh cells only. -/
structure Extends (m m' : Memory) : Prop where
  allocationPtr_le : m'.allocationPtr ≤ m.allocationPtr
  firstGenerationEnd_eq : m'.firstGenerationEnd = m.firstGenerationEnd
  firstGenerationStart_eq : m'.firstGenerationStart = m.firstGenerationStart
  agree : AgreeOn m.Live m.words m'.words

theorem Extends.refl (m : Memory) : Extends m m :=
  ⟨Nat.le_refl _, rfl, rfl, fun _ _ => rfl⟩

/-- What was live stays live. -/
theorem Extends.live {m m' : Memory} (h : Extends m m') {a : Nat} (ha : m.Live a) : m'.Live a := by
  rcases ha with ha | ha
  · exact Or.inl (h.firstGenerationEnd_eq ▸ ha)
  · exact Or.inr (Nat.le_trans h.allocationPtr_le ha)

theorem Extends.trans {m m' m'' : Memory} (h : Extends m m') (h' : Extends m' m'') :
    Extends m m'' where
  allocationPtr_le := Nat.le_trans h'.allocationPtr_le h.allocationPtr_le
  firstGenerationEnd_eq := h'.firstGenerationEnd_eq.trans h.firstGenerationEnd_eq
  firstGenerationStart_eq := h'.firstGenerationStart_eq.trans h.firstGenerationStart_eq
  agree := h.agree.trans (h'.agree.mono fun _ ha => h.live ha)

/-- A region together with the words that were allocated between two states. -/
def grow (S : Nat → Prop) (m m' : Memory) (a : Nat) : Prop :=
  S a ∨ m'.allocationPtr ≤ a ∧ a < m.allocationPtr

/-- What was live and what was allocated is live. -/
theorem Extends.grow_live {S : Nat → Prop} {m m' : Memory} (h : Extends m m')
    (hS : ∀ a, S a → m.Live a) {a : Nat} (ha : grow S m m' a) : m'.Live a :=
  ha.elim (fun ha => h.live (hS a ha)) fun ha => .inr ha.1

/-- What is allocated between two states is allocated between earlier and later ones. -/
theorem grow_mono {S : Nat → Prop} {m m₁ m₂ m' : Memory} (h : m₁.allocationPtr ≤ m.allocationPtr)
    (h' : m'.allocationPtr ≤ m₂.allocationPtr) {a : Nat} (ha : grow S m₁ m₂ a) : grow S m m' a :=
  ha.imp_right fun ha => ⟨Nat.le_trans h' ha.1, Nat.lt_of_lt_of_le ha.2 h⟩

/-- A region that was live before is kept. -/
theorem Extends.agree_grow {S : Nat → Prop} {m m' m'' : Memory} (h : Extends m m')
    (h' : Extends m' m'') (hS : ∀ a, S a → m.Live a) :
    AgreeOn (grow S m m') m'.words m''.words :=
  h'.agree.mono fun _ ha => h.grow_live hS ha

/-- A word of an older cell is written that does not belong to the region. -/
theorem Extends.agree_grow_set {S : Nat → Prop} {m m' m'' : Memory} (h : Extends m m')
    (h' : Extends m' m'') (hS : ∀ a, S a → m.Live a) {p : Nat} (hp : ¬ S p)
    (hold : m.allocationPtr ≤ p) (x : Nat) : AgreeOn (grow S m m') m'.words (m''.set p x).words := by
  intro a ha
  have hne : a ≠ p := by
    rintro rfl
    exact ha.elim hp fun ha => by omega
  rw [set_words, if_neg hne, h.agree_grow h' hS a ha]

/-- `m'` was reached from `m` by lowering the allocation pointer and writing
only between the new and the old pointer. -/
structure Allocates (m m' : Memory) : Prop where
  allocationPtr_le : m'.allocationPtr ≤ m.allocationPtr
  firstGenerationEnd_eq : m'.firstGenerationEnd = m.firstGenerationEnd
  firstGenerationStart_eq : m'.firstGenerationStart = m.firstGenerationStart
  agree : ∀ a, a < m'.allocationPtr ∨ m.allocationPtr ≤ a → m'.words a = m.words a

theorem Allocates.refl (m : Memory) : Allocates m m :=
  ⟨Nat.le_refl _, rfl, rfl, fun _ _ => rfl⟩

theorem Allocates.trans {m m' m'' : Memory} (h : Allocates m m') (h' : Allocates m' m'') :
    Allocates m m'' where
  allocationPtr_le := Nat.le_trans h'.allocationPtr_le h.allocationPtr_le
  firstGenerationEnd_eq := h'.firstGenerationEnd_eq.trans h.firstGenerationEnd_eq
  firstGenerationStart_eq := h'.firstGenerationStart_eq.trans h.firstGenerationStart_eq
  agree := by
    intro a ha
    have hle := h.allocationPtr_le
    have hle' := h'.allocationPtr_le
    rw [h'.agree a (by omega), h.agree a (by omega)]

/-- One cell. -/
theorem allocates_allocate {m : Memory} {n : Nat} (t : CellType) (hn : 0 < n)
    (h : m.canAllocate n) : Allocates m (m.allocate n t).2 where
  allocationPtr_le := Nat.sub_le _ _
  firstGenerationEnd_eq := rfl
  firstGenerationStart_eq := rfl
  agree := by
    intro a ha
    unfold canAllocate at h
    rw [allocate_allocationPtr] at ha
    rw [allocate_words, if_neg (by omega)]

/-- One word of a fresh cell. -/
theorem Allocates.set {m m' : Memory} (h : Allocates m m') {p : Nat}
    (hp : m'.allocationPtr ≤ p ∧ p < m.allocationPtr) (x : Nat) : Allocates m (m'.set p x) where
  allocationPtr_le := h.allocationPtr_le
  firstGenerationEnd_eq := h.firstGenerationEnd_eq
  firstGenerationStart_eq := h.firstGenerationStart_eq
  agree := by
    intro a ha
    rw [set_allocationPtr] at ha
    rw [set_words, if_neg (by omega), h.agree a ha]

/-- As long as the allocations fitted, every live word is kept. -/
theorem Allocates.extends {m m' : Memory} (h : Allocates m m')
    (hfit : m'.firstGenerationEnd ≤ m'.allocationPtr) : Extends m m' where
  allocationPtr_le := h.allocationPtr_le
  firstGenerationEnd_eq := h.firstGenerationEnd_eq
  firstGenerationStart_eq := h.firstGenerationStart_eq
  agree := by
    intro a ha
    have hend := h.firstGenerationEnd_eq
    refine h.agree a (ha.imp_left fun hlt => ?_)
    omega

/-- Writing to a word that was not live. -/
theorem Extends.set {m m' : Memory} (h : Extends m m') {p : Nat} (hp : ¬ m.Live p) (x : Nat) :
    Extends m (m'.set p x) where
  allocationPtr_le := h.allocationPtr_le
  firstGenerationEnd_eq := h.firstGenerationEnd_eq
  firstGenerationStart_eq := h.firstGenerationStart_eq
  agree := by
    intro a ha
    have hne : a ≠ p := fun heq => hp (heq ▸ ha)
    rw [set_words, if_neg hne, h.agree a ha]

end Memory

/-! ## the words of a cell -/

/-- The words of a cell from the word `i` on. -/
@[simp] def fillCell (p : Nat) : Nat → List Nat → Memory → Memory
  | _, [], m => m
  | i, x :: xs, m => fillCell p (i + 1) xs (m.set (p + i) x)

@[simp] theorem fillCell_allocationPtr (p i : Nat) (xs : List Nat) (m : Memory) :
    (fillCell p i xs m).allocationPtr = m.allocationPtr := by
  induction xs generalizing i m with
  | nil => rfl
  | cons x xs ih => exact ih _ _

@[simp] theorem fillCell_firstGenerationEnd (p i : Nat) (xs : List Nat) (m : Memory) :
    (fillCell p i xs m).firstGenerationEnd = m.firstGenerationEnd := by
  induction xs generalizing i m with
  | nil => rfl
  | cons x xs ih => exact ih _ _

@[simp] theorem fillCell_firstGenerationStart (p i : Nat) (xs : List Nat) (m : Memory) :
    (fillCell p i xs m).firstGenerationStart = m.firstGenerationStart := by
  induction xs generalizing i m with
  | nil => rfl
  | cons x xs ih => exact ih _ _

theorem fillCell_words_of_lt {q i a : Nat} (xs : List Nat) (m : Memory) (ha : a < q + i) :
    (fillCell q i xs m).words a = m.words a := by
  induction xs generalizing i m with
  | nil => rfl
  | cons x xs ih =>
    unfold fillCell
    rw [ih _ (by omega), Memory.set_words, if_neg (by omega)]

/-- The words that a cell was filled with. -/
theorem fillCell_words {q i j x : Nat} {xs : List Nat} (m : Memory) (hj : xs[j]? = some x) :
    (fillCell q i xs m).words (q + (i + j)) = x := by
  induction xs generalizing i j m with
  | nil => cases hj
  | cons y xs ih =>
    unfold fillCell
    cases j with
    | zero =>
      obtain rfl : y = x := Option.some.inj hj
      rw [fillCell_words_of_lt _ _ (by omega)]
      simp
    | succ j =>
      have := ih (i := i + 1) (m.set (q + i) y) (j := j) (by simpa using hj)
      rwa [show i + (j + 1) = i + 1 + j by omega]

theorem fillCell_words_of_ge {q i a : Nat} (xs : List Nat) (m : Memory)
    (ha : q + i + xs.length ≤ a) : (fillCell q i xs m).words a = m.words a := by
  induction xs generalizing i m with
  | nil => rfl
  | cons x xs ih =>
    rw [List.length_cons] at ha
    unfold fillCell
    rw [ih _ (by omega), Memory.set_words, if_neg (by omega)]

/-- Filling a fresh cell. -/
theorem Memory.Allocates.fillCell {m m' : Memory} (h : m.Allocates m') {q i : Nat} (xs : List Nat)
    (hlow : m'.allocationPtr ≤ q + i) (htop : q + i + xs.length ≤ m.allocationPtr) :
    m.Allocates (fillCell q i xs m') := by
  induction xs generalizing i m' with
  | nil => exact h
  | cons x xs ih =>
    rw [List.length_cons] at htop
    exact ih (h.set ⟨hlow, by omega⟩ x) (by rw [Memory.set_allocationPtr]; omega) (by omega)

/-- The `n` words from the address `a` on. -/
@[simp] def slice (words : Nat → Nat) (a : Nat) : Nat → List Nat
  | 0 => []
  | n + 1 => words a :: slice words (a + 1) n

@[simp] theorem length_slice (words : Nat → Nat) (a n : Nat) : (slice words a n).length = n := by
  induction n generalizing a with
  | zero => rfl
  | succ n ih => simp [slice, ih]

theorem slice_getElem? {words : Nat → Nat} {a n j : Nat} (hj : j < n) :
    (slice words a n)[j]? = some (words (a + j)) := by
  induction n generalizing a j with
  | zero => omega
  | succ n ih =>
    cases j with
    | zero => rfl
    | succ j =>
      rw [slice, List.getElem?_cons_succ, ih (by omega), show a + 1 + j = a + (j + 1) by omega]

theorem slice_congr {words words' : Nat → Nat} {a n : Nat}
    (h : ∀ i < n, words' (a + i) = words (a + i)) : slice words' a n = slice words a n := by
  induction n generalizing a with
  | zero => rfl
  | succ n ih =>
    unfold slice
    have hzero := h 0 (by omega)
    rw [Nat.add_zero] at hzero
    rw [hzero, ih fun i hi => ?_]
    have hsucc := h (i + 1) (by omega)
    rwa [show a + 1 + i = a + (i + 1) by omega]

theorem slice_add (words : Nat → Nat) (a n k : Nat) :
    slice words a (n + k) = slice words a n ++ slice words (a + n) k := by
  induction n generalizing a with
  | zero => simp [slice]
  | succ n ih =>
    rw [Nat.succ_add, slice, slice, ih, List.cons_append, show a + 1 + n = a + (n + 1) by omega]

/-- What a cell was filled with. -/
theorem slice_fillCell (q i : Nat) (xs : List Nat) (m : Memory) :
    slice (fillCell q i xs m).words (q + i) xs.length = xs := by
  induction xs generalizing i m with
  | nil => rfl
  | cons x xs ih =>
    rw [List.length_cons, slice, show q + i + 1 = q + (i + 1) by omega]
    unfold fillCell
    rw [ih, fillCell_words_of_lt xs _ (by omega), Memory.set_words, if_pos rfl]

theorem fillCell_append (p i : Nat) (xs ys : List Nat) (m : Memory) :
    fillCell p i (xs ++ ys) m = fillCell p (i + xs.length) ys (fillCell p i xs m) := by
  induction xs generalizing i m with
  | nil => rfl
  | cons x xs ih =>
    rw [List.cons_append, fillCell, ih, fillCell, List.length_cons, Nat.add_assoc, Nat.add_comm 1]

theorem fillCell_slice (p i n : Nat) (m : Memory) :
    fillCell p i (slice m.words (p + i) n) m = m := by
  induction n generalizing i with
  | zero => rfl
  | succ n ih => rw [slice, fillCell, Memory.set_self rfl, Nat.add_assoc, ih]

/-- An update function that is handed to an operation, together with its
`context`.  It may allocate cells and fill them, so it acts on the memory; its
caller has checked `can_allocate` for it. -/
structure UpdateFunction where
  apply : Nat → Nat → Memory → Nat × Memory
  maxAllocation : Nat
  extends_apply : ∀ (x y : Nat) (m : Memory), m.canAllocate maxAllocation →
    m.Extends (apply x y m).2
  allocationPtr_apply : ∀ (x y : Nat) (m : Memory),
    m.allocationPtr ≤ (apply x y m).2.allocationPtr + maxAllocation

namespace UpdateFunction

/-- The words a possibly absent update function may allocate. -/
def cost (f : Option UpdateFunction) : Nat := f.elim 0 maxAllocation

/-- The new data for a key with the data `x`: `y` itself or what the function
makes of the two. -/
def call (f : Option UpdateFunction) (x y : Nat) (m : Memory) : Nat × Memory :=
  match f with
  | none => (y, m)
  | some f => f.apply x y m

theorem extends_call {f : Option UpdateFunction} {m : Memory} (x y : Nat)
    (h : m.canAllocate (cost f)) : m.Extends (call f x y m).2 := by
  cases f with
  | none => exact Memory.Extends.refl m
  | some f => exact f.extends_apply x y m h

theorem allocationPtr_call (f : Option UpdateFunction) (x y : Nat) (m : Memory) :
    m.allocationPtr ≤ (call f x y m).2.allocationPtr + cost f := by
  cases f with
  | none => exact Nat.le_refl _
  | some f => exact f.allocationPtr_apply x y m

end UpdateFunction

end Shades
