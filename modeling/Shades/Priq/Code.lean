import Shades.Memory

/-!
# Shades.Priq.Code

`priq.c`.  A cell of type `CELL_priq_item` is a binomial tree; its height is in
the lowest 24 bits of the word `0`, and the other words are

* `1`: the item,
* `2`: the rightmost son,
* `3`: the next tree.

A priority queue is the first tree of its list.  The loops of the code end with
a list; here they have as many rounds as two lists of trees of different heights
can have trees, and they stop if these do not suffice.  `cell_copy` knows the
sizes of all cell types; here it stops at a cell of another type.
-/

namespace Shades

/-- `PRIQ_MAX_ALLOCATION`. -/
def priqMaxAllocation : Nat := 4 + 3 * (4 * 32)

/-- `PRIQ_IS_EMPTY`. -/
def priqIsEmpty (priq : Nat) : Bool := priq = nullPtr

/-- The rounds of a loop. -/
def priqRounds : Nat := 2 ^ 25 + 1

namespace Priq

/-- `HEIGHT`. -/
def height (words : Nat → Nat) (p : Nat) : Nat := words p &&& 0xFFFFFF

/-- `ITEM`. -/
def item (words : Nat → Nat) (p : Nat) : Nat := wordToPtr (words (p + 1))

/-- `SON`. -/
def son (words : Nat → Nat) (p : Nat) : Nat := wordToPtr (words (p + 2))

/-- `NEXT`. -/
def next (words : Nat → Nat) (p : Nat) : Nat := wordToPtr (words (p + 3))

/-- What ends `merge` early: two items that cannot be compared, an assertion, or
the number of rounds of a loop. -/
inductive Stop
  | comparison (m : Memory)
  | assertion
  | rounds

/-! ## the minimum -/

/-- The loop of `find_min`. -/
def findMinLoop (words : Nat → Nat) (itemCmp : CmpFun) : Nat → Nat → Nat → Option Nat
  | 0, _, _ => none
  | rounds + 1, p, minimumTree =>
    let p := next words p
    if p = nullPtr then some minimumTree
    else do
      let cmpResult := itemCmp (item words minimumTree) (item words p)
      assert (cmpResult ≠ .error)
      findMinLoop words itemCmp rounds p (if cmpResult = .greater then p else minimumTree)

/-- `find_min`. -/
def findMin (words : Nat → Nat) (priq : Nat) (itemCmp : CmpFun) : Option Nat :=
  if priq = nullPtr then some nullPtr else findMinLoop words itemCmp priqRounds priq priq

/-! ## merging -/

/-- `cell_copy` of a tree. -/
def cellCopy (m : Memory) (p : Nat) : Except Stop (Nat × Memory) :=
  if cellType (m.words p) = CellType.priqItem.code ∧ m.canAllocate 4 then
    let (newP, m') := m.allocate 4 .priqItem
    .ok (newP, fillCell newP 0 (slice m.words p 4) m')
  else .error .assertion

/-- `pq_1` contains two trees with equal heights: they are linked. -/
def linkFirstTwo (itemCmp : CmpFun) (m : Memory) (pq1 : Nat) : Except Stop (Nat × Memory) :=
  let cmpResult := itemCmp (item m.words pq1) (item m.words (next m.words pq1))
  if cmpResult = .error then .error (.comparison m)
  else if cmpResult = .greater then
    -- the first tree is the son
    let (tmp, m) := m.allocate 4 .priqItem
    let son := pq1
    let pq1 := next m.words pq1
    let m := m.set (son + 3) (m.words (pq1 + 2))
    let m := m.set tmp (m.words tmp ||| (height m.words pq1 + 1))
    .ok (tmp, fillCell tmp 1 [m.words (pq1 + 1), ptrToWord son, m.words (pq1 + 3)] m)
  else
    -- the second tree is the son
    let (tmp, m) := m.allocate 4 .priqItem
    let son := next m.words pq1
    let m := m.set tmp (m.words tmp ||| height m.words son)
    let m := fillCell tmp 1 [m.words (son + 1), m.words (son + 2), m.words (pq1 + 2)] m
    let newHeight := height m.words pq1 + 1
    let m := m.set pq1 (m.words pq1 &&& 0xFF <<< 24)
    let m := m.set pq1 (m.words pq1 ||| newHeight)
    let m := m.set (pq1 + 2) (ptrToWord tmp)
    .ok (pq1, m.set (pq1 + 3) (m.words (son + 3)))

/-- The variables of `merge`. -/
structure Merging where
  m : Memory
  pq1 : Nat
  pq2 : Nat
  p : Nat
  last : Nat

/-- A tree is put at the end of the new queue. -/
def Merging.append (s : Merging) (tmp : Nat) : Merging :=
  if s.last = nullPtr then { s with p := tmp, last := tmp }
  else { s with m := s.m.set (s.last + 3) (ptrToWord tmp), last := tmp }

/-- The new cell `root` becomes a copy of `pq_1` with the new cell `son`, a copy of
`pq_2`, as its first son. -/
def linkCells (m : Memory) (root son pq1 pq2 : Nat) : Memory :=
  let m := m.set son (m.words son ||| height m.words pq2)
  let m := fillCell son 1 [m.words (pq2 + 1), m.words (pq2 + 2), m.words (pq1 + 2)] m
  let m := m.set root (m.words root ||| (height m.words pq1 + 1))
  fillCell root 1 [m.words (pq1 + 1), ptrToWord son, m.words (pq1 + 3)] m

/-- Two trees of equal heights are linked. -/
def linkEqual (itemCmp : CmpFun) (s : Merging) : Except Stop Merging :=
  let cmpResult := itemCmp (item s.m.words s.pq1) (item s.m.words s.pq2)
  if cmpResult = .error then .error (.comparison s.m)
  else
    let (root, m) := s.m.allocate 4 .priqItem
    let (son, m) := m.allocate 4 .priqItem
    let (pq1, pq2) := if cmpResult = .greater then (s.pq2, s.pq1) else (s.pq1, s.pq2)
    let m := linkCells m root son pq1 pq2
    .ok { s with m := m, pq1 := root, pq2 := next m.words pq2 }

/-- `pq_1` contains two trees with equal heights. -/
def twoEqual (words : Nat → Nat) (pq1 : Nat) : Bool :=
  words (pq1 + 3) ≠ nullWord ∧ height words pq1 = height words (next words pq1)

/-- A round of the first loop of `merge`. -/
def mergeRound (itemCmp : CmpFun) (s : Merging) : Except Stop Merging :=
  if twoEqual s.m.words s.pq1 then do
    let (pq1, m) ← linkFirstTwo itemCmp s.m s.pq1
    return { s with m, pq1 }
  else if height s.m.words s.pq1 < height s.m.words s.pq2 then do
    let (tmp, m) ← cellCopy s.m s.pq1
    let s' := { s with m }.append tmp
    return { s' with pq1 := next s'.m.words s.pq1 }
  else if height s.m.words s.pq1 > height s.m.words s.pq2 then do
    let (tmp, m) ← cellCopy s.m s.pq2
    let s' := { s with m }.append tmp
    return { s' with pq2 := next s'.m.words s.pq2 }
  else linkEqual itemCmp s

/-- The first loop of `merge`. -/
def mergeLoop (itemCmp : CmpFun) : Nat → Merging → Except Stop Merging
  | 0, _ => .error .rounds
  | rounds + 1, s =>
    if s.pq1 ≠ nullPtr ∧ s.pq2 ≠ nullPtr then do
      let s' ← mergeRound itemCmp s
      mergeLoop itemCmp rounds s'
    else .ok s

/-- The second loop of `merge`. -/
def memoryItemLoop (itemCmp : CmpFun) : Nat → Memory → Nat → Except Stop (Nat × Memory)
  | 0, _, _ => .error .rounds
  | rounds + 1, m, pq1 =>
    if pq1 ≠ nullPtr ∧ twoEqual m.words pq1 then do
      let (pq1, m) ← linkFirstTwo itemCmp m pq1
      memoryItemLoop itemCmp rounds m pq1
    else .ok (pq1, m)

/-- The rest of a list becomes the end of the new queue. -/
def Merging.finish (s : Merging) (rest : Nat) : Nat × Memory :=
  if s.last = nullPtr then (rest, s.m) else (s.p, s.m.set (s.last + 3) (ptrToWord rest))

/-- `merge`. -/
def merge (itemCmp : CmpFun) (m : Memory) (pq1 pq2 : Nat) : Except Stop (Nat × Memory) :=
  if pq1 = nullPtr ∧ pq2 = nullPtr then .error .assertion
  else if pq1 = nullPtr then .ok (pq2, m)
  else if pq2 = nullPtr then .ok (pq1, m)
  else do
    let s ← mergeLoop itemCmp priqRounds ⟨m, pq1, pq2, nullPtr, nullPtr⟩
    if s.pq1 = nullPtr then return s.finish s.pq2
    else do
      let (rest, m) ← memoryItemLoop itemCmp priqRounds s.m s.pq1
      return { s with m }.finish rest

/-! ## the minimum is removed -/

/-- A copy of a tree whose next tree is not known yet. -/
def copyTree (m : Memory) (p : Nat) : Nat × Memory :=
  let (newP, m) := m.allocate 4 .priqItem
  (newP, fillCell newP 0 [m.words p, m.words (p + 1), m.words (p + 2)] m)

/-- The trees before `minTree` are copied; `last` is the last copy. -/
def copyLoop (minTree : Nat) : Nat → Memory → Nat → Nat → Option (Nat × Nat × Memory)
  | 0, _, _, _ => none
  | rounds + 1, m, p, last =>
    if p ≠ minTree then
      let (newP, m) := copyTree m p
      copyLoop minTree rounds (m.set (last + 3) (ptrToWord newP)) (next m.words p) newP
    else some (last, p, m)

/-- The list without the tree `minTree`. -/
def exceptMin (m : Memory) (priq minTree : Nat) : Option (Nat × Memory) :=
  if priq = minTree then some (next m.words priq, m)
  else do
    let (newP, m) := copyTree m priq
    let (last, p, m) ← copyLoop minTree priqRounds m (next m.words priq) newP
    some (newP, m.set (last + 3) (ptrToWord (next m.words p)))

/-- The sons of the minimum tree are copied in reverse order. -/
def reverseLoop : Nat → Memory → Nat → Nat → Option (Nat × Memory)
  | 0, _, _, _ => none
  | rounds + 1, m, p, restOfMin =>
    if p ≠ nullPtr then
      let (newP, m) := copyTree m p
      reverseLoop rounds (m.set (newP + 3) (ptrToWord restOfMin)) (next m.words p) newP
    else some (restOfMin, m)

end Priq

open Priq

/-! ## the operations -/

/-- `priq_find_min`. -/
def priqFindMin (words : Nat → Nat) (priq : Nat) (itemCmp : CmpFun) : Option Nat := do
  let p ← findMin words priq itemCmp
  some (if p = nullPtr then nullPtr else item words p)

/-- What an operation makes of the result of `merge`: the old queue and the
allocation point if the items are not comparable. -/
def mergedOr (ap old : Nat) : Except Stop (Nat × Memory) → Option (Nat × Memory)
  | .ok r => some r
  | .error (.comparison m) => some (old, m.restoreAllocationPoint ap)
  | .error _ => none

/-- `priq_insert`. -/
def priqInsert (m : Memory) (priq data : Nat) (itemCmp : CmpFun) : Option (Nat × Memory) :=
  let (newPriqItem, m') := m.allocate 4 .priqItem
  let m' := fillCell newPriqItem 1 [ptrToWord data, nullWord, nullWord] m'
  mergedOr m.allocationPtr priq (merge itemCmp m' priq newPriqItem)

/-- `priq_delete`. -/
def priqDelete (m : Memory) (priq : Nat) (itemCmp : CmpFun) : Option (Nat × Memory) :=
  if priq = nullPtr then some (nullPtr, m)
  else do
    let minTree ← findMin m.words priq itemCmp
    let (priqExceptMin, m') ← exceptMin m priq minTree
    let (restOfMin, m') ← Priq.reverseLoop priqRounds m' (son m'.words minTree) nullPtr
    if priqExceptMin = nullPtr ∧ restOfMin = nullPtr then some (nullPtr, m')
    else mergedOr m.allocationPtr priq (merge itemCmp m' restOfMin priqExceptMin)

/-- `priq_merge`. -/
def priqMerge (m : Memory) (pq1 pq2 : Nat) (itemCmp : CmpFun) : Option (Nat × Memory) :=
  if pq1 = nullPtr ∧ pq2 = nullPtr then some (nullPtr, m)
  else mergedOr m.allocationPtr nullPtr (merge itemCmp m pq1 pq2)

end Shades
