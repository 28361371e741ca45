import Mathlib.Order.Defs.LinearOrder
import Shades.Bits

/-!
# Shades.Cells

The low-level cell types of `cells-def.h`, in the order of the file: the
position of a type in that order is the tag kept in the uppermost 8 bits of
the first word of every cell.

Words are natural numbers below `2 ^ 32`; wherever the C code can overflow,
the reduction is written out.  A pointer is the index of a word counted from
`mem_base`, so `NULL_PTR` is index `0`, and `PTR_TO_WORD` turns an index into
the byte offset that is stored in cells.
-/

namespace Shades

/-- An assertion. -/
def assert (c : Prop) [Decidable c] : Option Unit := if c then some () else none

theorem assert_true {c : Prop} [Decidable c] (h : c) : assert c = some () := if_pos h

theorem of_assert {c : Prop} [Decidable c] {u : Unit} (h : assert c = some u) : c :=
  (Option.ite_none_right_eq_some.mp h).1

def nullWord : Nat := 0

def nullPtr : Nat := 0

/-- `WORD_TO_PTR`: the word holds a byte offset from `mem_base`. -/
def wordToPtr (x : Nat) : Nat := x / 4

/-- `PTR_TO_WORD`. -/
def ptrToWord (p : Nat) : Nat := 4 * p

@[simp] theorem wordToPtr_ptrToWord (p : Nat) : wordToPtr (ptrToWord p) = p := by
  simp [wordToPtr, ptrToWord]

@[simp] theorem ptrToWord_eq_zero (p : Nat) : ptrToWord p = 0 ↔ p = 0 := by
  simp [ptrToWord]

theorem ptrToWord_inj {p q : Nat} : ptrToWord p = ptrToWord q ↔ p = q := by
  simp [ptrToWord]

theorem ptrToWord_eq_nullWord {p : Nat} : ptrToWord p = nullWord ↔ p = nullPtr :=
  ptrToWord_eq_zero p

/-- `TAGGED_IS_PTR`: the two lowest bits of a pointer are clear. -/
def taggedIsPtr (x : Nat) : Bool := x &&& 0x3 == 0

theorem taggedIsPtr_ptrToWord (p : Nat) : taggedIsPtr (ptrToWord p) = true := by
  rw [taggedIsPtr, ptrToWord, show 0x3 = 2 ^ 2 - 1 by decide, and_mask]
  simp

/-- `TAGGED_IS_WORD`. -/
def taggedIsWord (x : Nat) : Bool := x &&& 0x3 == 1

/-- `cmp_result_t`. -/
inductive CmpResult where
  | equal
  | less
  | greater
  | uncomparable
  | error
  | pleaseContinue
  deriving DecidableEq, Repr

/-- A comparison function (`cmp_fun_t`) with its context. -/
def CmpFun : Type := Nat → Nat → CmpResult

/-- A strict total order, given by the keys behind the pointers. -/
def rankCmp {κ : Type} [LinearOrder κ] (rank : Nat → κ) : CmpFun := fun x y =>
  if rank x < rank y then .less else if rank x = rank y then .equal else .greater

section cmp

variable {κ : Type} [LinearOrder κ] {rank : Nat → κ} {x y : Nat}

theorem rankCmp_eq_equal : rankCmp rank x y = .equal ↔ rank x = rank y := by
  unfold rankCmp
  split_ifs with hlt heq
  · simp [ne_of_lt hlt]
  · simp [heq]
  · simp [heq]

theorem rankCmp_eq_greater : rankCmp rank x y = .greater ↔ rank y < rank x := by
  unfold rankCmp
  split_ifs with hlt heq
  · simp [le_of_lt hlt]
  · simp [heq]
  · simpa using lt_of_le_of_ne (not_lt.mp hlt) (Ne.symm heq)

theorem rankCmp_ne_error : rankCmp rank x y ≠ .error := by
  unfold rankCmp
  split_ifs <;> simp

/-- What a comparison of keys says about the way to go. -/
theorem rankCmp_cases (rank : Nat → κ) (x y : Nat) :
    rank x ≤ rank y ∧ (rankCmp rank x y = .less ∨ rankCmp rank x y = .equal) ∨
      ¬ rank x ≤ rank y ∧ rankCmp rank x y = .greater := by
  unfold rankCmp
  split_ifs with hlt heq
  · exact .inl ⟨le_of_lt hlt, .inl rfl⟩
  · exact .inl ⟨le_of_eq heq, .inr rfl⟩
  · exact .inr ⟨fun hle => (lt_or_eq_of_le hle).elim hlt heq, rfl⟩

theorem rankCmp_trichotomy (rank : Nat → κ) (x y : Nat) :
    rank x < rank y ∧ rankCmp rank x y = .less ∨ rank x = rank y ∧ rankCmp rank x y = .equal ∨
      rank y < rank x ∧ rankCmp rank x y = .greater := by
  unfold rankCmp
  rcases lt_trichotomy (rank x) (rank y) with hlt | heq | hgt
  · simp [hlt]
  · simp [heq]
  · simp [hgt, not_lt_of_gt hgt, hgt.ne']

end cmp

/-- The kinds of word a cell can declare (`word_type_t`). -/
inductive WordType where
  | word
  | ptr
  | nonnullPtr
  | tagged
  | void
  deriving DecidableEq, Repr

/-- The number that stands for the kind in a byte code. -/
def WordType.code : WordType → Nat
  | .word => 0
  | .ptr => 1
  | .nonnullPtr => 2
  | .tagged => 3
  | .void => 4

/-- The cell types of `cells-def.h` (`cell_type_t`). -/
inductive CellType where
  | bonk
  | list
  | object
  | oidFreelist
  | oidObject
  | wordVector
  | internal
  | leaf
  | queue
  | queueRev
  | lqEntryPoint
  | lqItem00
  | lqItem01
  | lqItem10
  | lqItem11
  | priqItem
  | ist234
  | avlInternal
  | avlLeaf
  | history
  | quadTrie
  | tuple
  | shtring
  | shtringChunk
  | shtringNode
  | shtringInternRoot
  | shtringInternNode
  | shtringCursor
  | bcode
  | cont
  | context
  | generationPinfo
  | forwardPointer
  | trie1234
  | trie123
  | trie124
  | trie12
  | trie134
  | trie13
  | trie14
  | trie1
  | trie234
  | trie23
  | trie24
  | trie2
  | trie34
  | trie3
  | trie4
  deriving DecidableEq, Repr

/-- The tag of a cell type: its position in `cells-def.h`. -/
def CellType.code (t : CellType) : Nat := t.ctorIdx

/-- Different types have different tags. -/
theorem CellType.code_injective : Function.Injective CellType.code :=
  Function.LeftInverse.injective CellType.ofNat_ctorIdx

/-- `INTERNAL_NODE_SIZE`. -/
def internalNodeSize : Nat := 4

/-- `CELL_TYPE_BITS`. -/
def cellTypeBits : Nat := 8

/-- The first word of a fresh cell of the given type. -/
def CellType.header (t : CellType) : Nat := t.code <<< (32 - cellTypeBits)

/-- `CELL_TYPE` of a cell whose first word is given. -/
def cellType (p0 : Nat) : Nat := p0 >>> (32 - cellTypeBits)

theorem CellType.header_eq (t : CellType) : t.header = t.code * 2 ^ 24 := by
  simp [CellType.header, cellTypeBits, Nat.shiftLeft_eq]

theorem cellType_eq (p0 : Nat) : cellType p0 = p0 / 2 ^ 24 := by
  simp [cellType, cellTypeBits, Nat.shiftRight_eq_div_pow]

/-- The 24 bits after the type are free for other data. -/
theorem header_or (t : CellType) {n : Nat} (h : n < 2 ^ 24) :
    t.header ||| n = t.code * 2 ^ 24 + n := by
  unfold CellType.header cellTypeBits
  exact or_of_lt _ _ _ h

/-- `p[0] & 0xFFFFFF`. -/
theorem header_or_and (t : CellType) {n : Nat} (h : n < 2 ^ 24) :
    (t.header ||| n) &&& 0xFFFFFF = n := by
  rw [header_or _ h, show (0xFFFFFF : Nat) = 2 ^ 24 - 1 from rfl, and_mask]
  omega

theorem cellType_header_or (t : CellType) {n : Nat} (h : n < 2 ^ 24) :
    cellType (t.header ||| n) = t.code := by
  rw [cellType_eq, header_or t h]
  omega

end Shades
