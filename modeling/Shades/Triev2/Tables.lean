import Shades.Cells

/-!
# Shades.Triev2.Tables

The constant tables of `triev2.c`.  A node of the quad trie is one of fifteen
cell types, named after the children it has: `trie124` holds the children for
the digits `0`, `1` and `3`.  The tables are indexed by the position of the
type after `trie1234`, as in the C code.
-/

namespace Shades

/-- `cell_type`. -/
def trieCellTypes : List CellType := [
  .trie1234, .trie123, .trie124, .trie12, .trie134, .trie13, .trie14, .trie1,
  .trie234, .trie23, .trie24, .trie2, .trie34, .trie3, .trie4]

/-- The cell type with the given index. -/
def trieCellType (t : Nat) : CellType := trieCellTypes.getD t .bonk

/-- `CELL_TYPE(p) - CELL_trie1234`. -/
def trieIndex (p0 : Nat) : Nat := cellType p0 - CellType.trie1234.code

/-- The index of a cell type. -/
def CellType.trieIndex (t : CellType) : Nat := t.code - CellType.trie1234.code

/-- `offset`. -/
def offsets : List (List Nat) := [
  [1, 2, 3, 4], [1, 2, 3, 0], [1, 2, 0, 3], [1, 2, 0, 0],
  [1, 0, 2, 3], [1, 0, 2, 0], [1, 0, 0, 2], [1, 0, 0, 0],
  [0, 1, 2, 3], [0, 1, 2, 0], [0, 1, 0, 2], [0, 1, 0, 0],
  [0, 0, 1, 2], [0, 0, 1, 0], [0, 0, 0, 1]]

/-- The position of the child for digit `b` in a node of type `t`, or `0` if
there is none. -/
def offset (t b : Nat) : Nat := (offsets.getD t []).getD b 0

/-- `deoffset`. -/
def deoffsets : List (List Nat) := [
  [0, 1, 2, 3], [0, 1, 2, 0xFF], [0, 1, 3, 0xFF], [0, 1, 0xFF, 0xFF],
  [0, 2, 3, 0xFF], [0, 2, 0xFF, 0xFF], [0, 3, 0xFF, 0xFF], [0, 0xFF, 0xFF, 0xFF],
  [1, 2, 3, 0xFF], [1, 2, 0xFF, 0xFF], [1, 3, 0xFF, 0xFF], [1, 0xFF, 0xFF, 0xFF],
  [2, 3, 0xFF, 0xFF], [2, 0xFF, 0xFF, 0xFF], [3, 0xFF, 0xFF, 0xFF]]

/-- The digit of the child at a position, counted from `0`. -/
def deoffset (t i : Nat) : Nat := (deoffsets.getD t []).getD i 0xFF

/-- `uni_cell_type`. -/
def uniCellType (d : Nat) : CellType := [CellType.trie1, .trie2, .trie3, .trie4].getD d .bonk

/-- `bi_cell_type`. -/
def biCellTypes : List (List CellType) := [
  [.bonk, .trie12, .trie13, .trie14],
  [.trie12, .bonk, .trie23, .trie24],
  [.trie13, .trie23, .bonk, .trie34],
  [.trie14, .trie24, .trie34, .bonk]]

/-- The type of a node with exactly the children for two digits. -/
def biCellType (d e : Nat) : CellType := (biCellTypes.getD d []).getD e .bonk

/-- `cell_type_without`. -/
def cellTypesWithout : List (List CellType) := [
  [.trie234, .trie134, .trie124, .trie123],
  [.trie23, .trie13, .trie12, .trie123],
  [.trie24, .trie14, .trie124, .trie12],
  [.trie2, .trie1, .trie12, .trie12],
  [.trie34, .trie134, .trie14, .trie13],
  [.trie3, .trie13, .trie1, .trie13],
  [.trie4, .trie14, .trie14, .trie1],
  [.bonk, .trie1, .trie1, .trie1],
  [.trie234, .trie34, .trie24, .trie23],
  [.trie23, .trie3, .trie2, .trie23],
  [.trie24, .trie4, .trie24, .trie2],
  [.trie2, .bonk, .trie2, .trie2],
  [.trie34, .trie34, .trie4, .trie3],
  [.trie3, .trie3, .bonk, .trie3],
  [.trie4, .trie4, .trie4, .bonk]]

/-- The type of a node after the child for a digit is taken away. -/
def cellTypeWithout (t d : Nat) : CellType := (cellTypesWithout.getD t []).getD d .bonk

/-- `cell_size`. -/
def cellSize (t : Nat) : Nat := [5, 4, 4, 3, 4, 3, 3, 2, 4, 3, 3, 2, 3, 2, 2].getD t 0

/-- One case of the switch in `triev2_insert`: the type of the new node, the
words copied into its fields `1, 2, …` from the old node, and the word of the
old node that is to be replaced.  The field without a source is the one that
`tmp_pp` points to. -/
structure InsertCase where
  type : CellType
  fields : List (Option Nat)
  old : Option Nat

/-- The switch in `triev2_insert`, by node type and digit. -/
def insertCases : List (List InsertCase) := [
  -- trie1234
  [⟨.trie1234, [none, some 2, some 3, some 4], some 1⟩,
   ⟨.trie1234, [some 1, none, some 3, some 4], some 2⟩,
   ⟨.trie1234, [some 1, some 2, none, some 4], some 3⟩,
   ⟨.trie1234, [some 1, some 2, some 3, none], some 4⟩],
  -- trie123
  [⟨.trie123, [none, some 2, some 3], some 1⟩,
   ⟨.trie123, [some 1, none, some 3], some 2⟩,
   ⟨.trie123, [some 1, some 2, none], some 3⟩,
   ⟨.trie1234, [some 1, some 2, some 3, none], none⟩],
  -- trie124
  [⟨.trie124, [none, some 2, some 3], some 1⟩,
   ⟨.trie124, [some 1, none, some 3], some 2⟩,
   ⟨.trie1234, [some 1, some 2, none, some 3], none⟩,
   ⟨.trie124, [some 1, some 2, none], some 3⟩],
  -- trie12
  [⟨.trie12, [none, some 2], some 1⟩,
   ⟨.trie12, [some 1, none], some 2⟩,
   ⟨.trie123, [some 1, some 2, none], none⟩,
   ⟨.trie124, [some 1, some 2, none], none⟩],
  -- trie134
  [⟨.trie134, [none, some 2, some 3], some 1⟩,
   ⟨.trie1234, [some 1, none, some 2, some 3], none⟩,
   ⟨.trie134, [some 1, none, some 3], some 2⟩,
   ⟨.trie134, [some 1, some 2, none], some 3⟩],
  -- trie13
  [⟨.trie13, [none, some 2], some 1⟩,
   ⟨.trie123, [some 1, none, some 2], none⟩,
   ⟨.trie13, [some 1, none], some 2⟩,
   ⟨.trie134, [some 1, some 2, none], none⟩],
  -- trie14
  [⟨.trie14, [none, some 2], some 1⟩,
   ⟨.trie124, [some 1, none, some 2], none⟩,
   ⟨.trie134, [some 1, none, some 2], none⟩,
   ⟨.trie14, [some 1, none], some 2⟩],
  -- trie1
  [⟨.trie1, [none], some 1⟩,
   ⟨.trie12, [some 1, none], none⟩,
   ⟨.trie13, [some 1, none], none⟩,
   ⟨.trie14, [some 1, none], none⟩],
  -- trie234
  [⟨.trie1234, [none, some 1, some 2, some 3], none⟩,
   ⟨.trie234, [none, some 2, some 3], some 1⟩,
   ⟨.trie234, [some 1, none, some 3], some 2⟩,
   ⟨.trie234, [some 1, some 2, none], some 3⟩],
  -- trie23
  [⟨.trie123, [none, some 1, some 2], none⟩,
   ⟨.trie23, [none, some 2], some 1⟩,
   ⟨.trie23, [some 1, none], some 2⟩,
   ⟨.trie234, [some 1, some 2, none], none⟩],
  -- trie24
  [⟨.trie124, [none, some 1, some 2], none⟩,
   ⟨.trie24, [none, some 2], some 1⟩,
   ⟨.trie234, [some 1, none, some 2], none⟩,
   ⟨.trie24, [some 1, none], some 2⟩],
  -- trie2
  [⟨.trie12, [none, some 1], none⟩,
   ⟨.trie2, [none], some 1⟩,
   ⟨.trie23, [some 1, none], none⟩,
   ⟨.trie24, [some 1, none], none⟩],
  -- trie34
  [⟨.trie134, [none, some 1, some 2], none⟩,
   ⟨.trie234, [none, some 1, some 2], none⟩,
   ⟨.trie34, [none, some 2], some 1⟩,
   ⟨.trie34, [some 1, none], some 2⟩],
  -- trie3
  [⟨.trie13, [none, some 1], none⟩,
   ⟨.trie23, [none, some 1], none⟩,
   ⟨.trie3, [none], some 1⟩,
   ⟨.trie34, [some 1, none], none⟩],
  -- trie4
  [⟨.trie14, [none, some 1], none⟩,
   ⟨.trie24, [none, some 1], none⟩,
   ⟨.trie34, [none, some 1], none⟩,
   ⟨.trie4, [none], some 1⟩]]

/-- The case for a node of type `t` and a digit `d`. -/
def insertCase (t d : Nat) : InsertCase := (insertCases.getD t []).getD d ⟨.bonk, [], none⟩

/-- The position that `tmp_pp` points to. -/
def InsertCase.slot (c : InsertCase) : Nat := c.fields.findIdx Option.isNone + 1

/-! ## what the tables say -/

/-- The tag of the type with index `t`. -/
theorem trieCellType_code : ∀ t < 15, (trieCellType t).code = CellType.trie1234.code + t := by
  decide

/-- A node has room for every child it names. -/
theorem offset_lt_cellSize : ∀ t < 15, ∀ d < 4, offset t d < cellSize t := by decide

theorem two_le_cellSize : ∀ t < 15, 2 ≤ cellSize t ∧ cellSize t ≤ 5 := by decide

/-- Different children have different positions. -/
theorem offset_injective : ∀ t < 15, ∀ d < 4, ∀ e < 4,
    offset t d ≠ 0 → offset t d = offset t e → d = e := by decide

/-- The node of `uni_cell_type` has the one child. -/
theorem uniCellType_spec : ∀ d < 4, (uniCellType d).code = CellType.trie1234.code +
    (uniCellType d).trieIndex ∧ (uniCellType d).trieIndex < 15 ∧
    cellSize (uniCellType d).trieIndex = 2 ∧
    ∀ e < 4, offset (uniCellType d).trieIndex e = if e = d then 1 else 0 := by decide

/-- The node of `bi_cell_type` is a node with two fields. -/
theorem biCellType_code : ∀ d < 4, ∀ e < 4, d = e ∨
    ((biCellType d e).code = CellType.trie1234.code + (biCellType d e).trieIndex ∧
      (biCellType d e).trieIndex < 15 ∧ cellSize (biCellType d e).trieIndex = 3) := by decide

/-- The node of `bi_cell_type` has the two children and no other. -/
theorem biCellType_offset : ∀ d < 4, ∀ e < 4, d = e ∨
    (offset (biCellType d e).trieIndex d ≠ 0 ∧ offset (biCellType d e).trieIndex e ≠ 0 ∧
      ∀ c < 4, c = d ∨ c = e ∨ offset (biCellType d e).trieIndex c = 0) := by decide

/-- Each case of the switch yields a trie node with as many fields as its type
says. -/
theorem insertCase_type : ∀ t < 15, ∀ d < 4,
    (insertCase t d).type.code = CellType.trie1234.code + (insertCase t d).type.trieIndex ∧
    (insertCase t d).type.trieIndex < 15 ∧
    cellSize (insertCase t d).type.trieIndex = (insertCase t d).fields.length + 1 := by decide

/-- The free field of a case is the place of the child for the digit. -/
theorem insertCase_slot : ∀ t < 15, ∀ d < 4,
    (insertCase t d).slot = offset (insertCase t d).type.trieIndex d ∧
    (insertCase t d).slot ≠ 0 ∧
    (insertCase t d).fields[(insertCase t d).slot - 1]? = some none := by decide

/-- The word to be replaced is the old child for the digit. -/
theorem insertCase_old : ∀ t < 15, ∀ d < 4,
    (insertCase t d).old = if offset t d = 0 then none else some (offset t d) := by decide

/-- No other child appears in the new node than those of the old one. -/
theorem insertCase_absent : ∀ t < 15, ∀ d < 4, ∀ e < 4, e = d ∨ offset t e ≠ 0 ∨
    offset (insertCase t d).type.trieIndex e = 0 := by decide

/-- Every other child of the old node has a place in the new node. -/
theorem insertCase_present : ∀ t < 15, ∀ d < 4, ∀ e < 4, e = d ∨ offset t e = 0 ∨
    offset (insertCase t d).type.trieIndex e ≠ 0 := by decide

/-- Every other child of the old node is copied to its place in the new
node. -/
theorem insertCase_copied : ∀ t < 15, ∀ d < 4, ∀ e < 4, e = d ∨ offset t e = 0 ∨
    (insertCase t d).fields[offset (insertCase t d).type.trieIndex e - 1]? =
      some (some (offset t e)) := by decide

/-- A node of size two has the one child. -/
theorem offset_of_size_two : ∀ t < 15, ∀ d < 4, ∀ e < 4,
    cellSize t ≠ 2 ∨ offset t d = 0 ∨ offset t e = 0 ∨ e = d := by decide

/-- A node of size three has a child at the other position. -/
theorem deoffset_other : ∀ t < 15, ∀ d < 4, cellSize t ≠ 3 ∨ offset t d = 0 ∨
    (deoffset t (2 - offset t d) < 4 ∧ deoffset t (2 - offset t d) ≠ d ∧
      offset t (deoffset t (2 - offset t d)) = 3 - offset t d ∧
      offset t (deoffset t (2 - offset t d)) ≠ 0) := by decide

/-- And it has no third child. -/
theorem deoffset_only : ∀ t < 15, ∀ d < 4, ∀ e < 4, cellSize t ≠ 3 ∨ offset t d = 0 ∨
    e = d ∨ e = deoffset t (2 - offset t d) ∨ offset t e = 0 := by decide

/-- Taking a child away leaves a trie node that is smaller by one field. -/
theorem cellTypeWithout_type : ∀ t < 15, ∀ d < 4, offset t d = 0 ∨ cellSize t = 2 ∨
    ((cellTypeWithout t d).trieIndex < 15 ∧
      cellSize (cellTypeWithout t d).trieIndex + 1 = cellSize t) := by decide

/-- It takes that child away and no other. -/
theorem cellTypeWithout_offset : ∀ t < 15, ∀ d < 4, ∀ e < 4, offset t d = 0 ∨ cellSize t = 2 ∨
    (offset (cellTypeWithout t d).trieIndex e = 0 ↔ e = d ∨ offset t e = 0) := by decide

/-- The remaining children keep their order. -/
theorem cellTypeWithout_remaining : ∀ t < 15, ∀ d < 4, ∀ e < 4, offset t d = 0 ∨
    cellSize t = 2 ∨ e = d ∨ offset t e = 0 ∨
    ((List.range 4).filter fun j => offset t j ≠ 0 ∧ j ≠ d)[
      offset (cellTypeWithout t d).trieIndex e - 1]? = some e := by decide

/-- In a node of size three it is the child at the other position. -/
theorem remaining_of_size_three : ∀ t < 15, ∀ d < 4, cellSize t ≠ 3 ∨ offset t d = 0 ∨
    (List.range 4).filter (fun j => offset t j ≠ 0 ∧ j ≠ d) = [deoffset t (2 - offset t d)] := by
  decide

/-- As many children remain as the smaller node has fields. -/
theorem length_remaining : ∀ t < 15, ∀ d < 4, offset t d = 0 ∨
    ((List.range 4).filter fun j => offset t j ≠ 0 ∧ j ≠ d).length + 2 = cellSize t := by decide

end Shades
