import Shades.Memory

/-!
# Shades.Lq.Code

`lq.c`, a logarithmic queue.  A cell of type `CELL_lq_entry_point` has the words

* `1`: the head, a list of trees,
* `2`: the tail, another list of trees.

The cells of the trees have their height in the lowest 24 bits of the word `0`.
The word `1` is the item, and the type tells which words follow:

* `CELL_lq_item00`: none,
* `CELL_lq_item01`: the brother,
* `CELL_lq_item10`: the right son,
* `CELL_lq_item11`: the brother and the right son.

The loops of `lq_remove_first` allocate a cell in each round.  Here they stop
after as many rounds as words were promised.  The result of an operation is
`none` if one of its assertions fails.
-/

namespace Shades

/-- `LQ_INSERT_MAX_ALLOCATION`. -/
def lqInsertMaxAllocation : Nat := 14

/-- `LQ_REMOVE_MAX_ALLOCATION`. -/
def lqRemoveMaxAllocation : Nat := 3 + 3 * 31 * 4

namespace Lq

/-- `NEXT`. -/
def next (words : Nat → Nat) (p : Nat) : Nat := wordToPtr (words (p + 2))

/-- `HEIGHT`. -/
def height (words : Nat → Nat) (p : Nat) : Nat := words p &&& 0xFFFFFF

/-- `CELL_TYPE(p) == type`. -/
def IsType (words : Nat → Nat) (p : Nat) (type : CellType) : Prop :=
  cellType (words p) = type.code

instance (words : Nat → Nat) (p : Nat) (type : CellType) : Decidable (IsType words p type) :=
  inferInstanceAs (Decidable (_ = _))

/-- `p = allocate(n, type)`, `p[0] |= height`, and the words from `p[1]` on, which
are read after the allocation.  The height of a cell that gets none is `0`. -/
def newItem (m : Memory) (n : Nat) (type : CellType) (height : Nat)
    (xs : (Nat → Nat) → List Nat) : Nat × Memory :=
  let (p, m) := m.allocate n type
  (p, fillCell p 1 (xs m.words) (m.set p (m.words p ||| height)))

/-! ## insertion -/

/-- The new item becomes a tree in front of the tail. -/
def insertFront (m : Memory) (queue data : Nat) : Nat × Memory :=
  newItem m 3 .lqItem01 0 fun words => [ptrToWord data, words (queue + 2)]

/-- The sons of the new item, made of the first two trees, which are single
items. -/
def singletonSons (m : Memory) (firstTree secondTree : Nat) : Nat × Memory :=
  let (leftSon, m) := newItem m 2 .lqItem00 0 fun words => [words (firstTree + 1)]
  newItem m 3 .lqItem01 0 fun words => [words (secondTree + 1), ptrToWord leftSon]

/-- Two single items are linked. -/
def linkSingletons (m : Memory) (data firstTree secondTree : Nat) : Option (Nat × Memory) :=
  if IsType m.words secondTree .lqItem00 then
    let (newItem, m) := newItem m 3 .lqItem10 1 fun _ => [ptrToWord data]
    let (rightSon, m) := singletonSons m firstTree secondTree
    some (newItem, m.set (newItem + 2) (ptrToWord rightSon))
  else if IsType m.words secondTree .lqItem01 then
    let (newItem, m) := newItem m 4 .lqItem11 1 fun words =>
      [ptrToWord data, words (secondTree + 2)]
    let (rightSon, m) := singletonSons m firstTree secondTree
    some (newItem, m.set (newItem + 3) (ptrToWord rightSon))
  else none

/-- Two trees of the same height are linked. -/
def linkTrees (m : Memory) (data firstTree secondTree : Nat) : Nat × Memory :=
  let (leftSon, m) := newItem m 3 .lqItem10 (height m.words firstTree) fun words =>
    [words (firstTree + 1), words (firstTree + 3)]
  let (rightSon, m) := newItem m 4 .lqItem11 (height m.words secondTree) fun words =>
    [words (secondTree + 1), ptrToWord leftSon]
  if IsType m.words secondTree .lqItem10 then
    let (newItem, m) := newItem m 3 .lqItem10 (height m.words firstTree + 1) fun _ =>
      [ptrToWord data]
    let m := m.set (rightSon + 3) (m.words (secondTree + 2))
    (newItem, m.set (newItem + 2) (ptrToWord rightSon))
  else
    let (newItem, m) := newItem m 4 .lqItem11 (height m.words firstTree + 1) fun words =>
      [ptrToWord data, words (secondTree + 2)]
    let m := m.set (rightSon + 3) (m.words (secondTree + 3))
    (newItem, m.set (newItem + 3) (ptrToWord rightSon))

/-- The new item and the trees of the tail. -/
def insertTree (m : Memory) (queue data : Nat) : Option (Nat × Memory) :=
  let firstTree := wordToPtr (m.words (queue + 2))
  let secondTree := next m.words firstTree
  if IsType m.words firstTree .lqItem00 ∨ IsType m.words firstTree .lqItem10 then
    some (insertFront m queue data)
  else if IsType m.words firstTree .lqItem01 then
    -- the tail contains at least two trees
    if IsType m.words secondTree .lqItem10 ∨ IsType m.words secondTree .lqItem11 then
      some (insertFront m queue data)
    else linkSingletons m data firstTree secondTree
  else do
    assert (IsType m.words firstTree .lqItem11)
    assert (height m.words (wordToPtr (m.words (firstTree + 3))) =
      sub32 (height m.words firstTree) 1)
    assert (height m.words firstTree > 0)
    assert (IsType m.words secondTree .lqItem10 ∨ IsType m.words secondTree .lqItem11)
    assert (height m.words secondTree ≥ height m.words firstTree)
    if height m.words firstTree ≠ height m.words secondTree then some (insertFront m queue data)
    else some (linkTrees m data firstTree secondTree)

end Lq

open Lq

/-- `lq_insert_last`. -/
def lqInsertLast (m : Memory) (queue data : Nat) : Option (Nat × Memory) :=
  if queue = nullPtr then
    let (item, m) := newItem m 2 .lqItem00 0 fun _ => [ptrToWord data]
    some (newItem m 3 .lqEntryPoint 0 fun _ => [ptrToWord item, nullWord])
  else if m.words (queue + 2) = nullWord then do
    assert (m.words (queue + 1) ≠ nullWord)
    let (item, m) := newItem m 2 .lqItem00 0 fun _ => [ptrToWord data]
    some (newItem m 3 .lqEntryPoint 0 fun words => [words (queue + 1), ptrToWord item])
  else do
    let (item, m) ← insertTree m queue data
    some (newItem m 3 .lqEntryPoint 0 fun words => [words (queue + 1), ptrToWord item])

namespace Lq

/-! ## removal -/

/-- `new_queue[1] = PTR_TO_WORD(p)` for a new cell `p`. -/
def pushHead (newQueue : Nat) (item : Nat × Memory) : Memory :=
  item.2.set (newQueue + 1) (ptrToWord item.1)

/-- The loop `unpack`: `tree` and its brother are the sons of the tree whose root
was moved to the head.  The oldest item below `tree` is left out. -/
def unpack (newQueue : Nat) : Nat → Nat → Memory → Option Memory
  | 0, _, _ => none
  | rounds + 1, tree, m => do
    assert (m.words (newQueue + 1) ≠ nullWord)
    if IsType m.words tree .lqItem01 then
      assert (height m.words tree = 0)
      let tree := next m.words tree
      assert (height m.words tree = 0)
      some (pushHead newQueue (newItem m 3 .lqItem01 0 fun words =>
        [words (tree + 1), words (newQueue + 1)]))
    else
      assert (IsType m.words tree .lqItem11)
      let brother := next m.words tree
      assert (IsType m.words brother .lqItem10)
      let m := pushHead newQueue (newItem m 4 .lqItem11 (height m.words brother) fun words =>
        [words (brother + 1), words (newQueue + 1), words (brother + 2)])
      let m := pushHead newQueue (newItem m 3 .lqItem01 0 fun words =>
        [words (tree + 1), words (newQueue + 1)])
      assert (height m.words (wordToPtr (m.words (tree + 3))) = sub32 (height m.words tree) 1)
      unpack newQueue rounds (wordToPtr (m.words (tree + 3))) m

/-- The loop `reverse`: the trees after `tree` move to the head, and the last one
is unpacked. -/
def reverse (newQueue : Nat) : Nat → Nat → Memory → Option Memory
  | 0, _, _ => none
  | rounds + 1, tree, m => do
    let tree := next m.words tree
    if IsType m.words tree .lqItem00 then some m
    else if IsType m.words tree .lqItem10 then
      assert (height m.words tree > 0)
      let m := pushHead newQueue (newItem m 3 .lqItem01 0 fun words =>
        [words (tree + 1), words (newQueue + 1)])
      assert (height m.words (wordToPtr (m.words (tree + 2))) = sub32 (height m.words tree) 1)
      unpack newQueue lqRemoveMaxAllocation (wordToPtr (m.words (tree + 2))) m
    else if IsType m.words tree .lqItem01 then
      reverse newQueue rounds tree (pushHead newQueue (newItem m 3 .lqItem01 0 fun words =>
        [words (tree + 1), words (newQueue + 1)]))
    else
      assert (IsType m.words tree .lqItem11)
      assert (height m.words tree > 0)
      reverse newQueue rounds tree (pushHead newQueue
        (newItem m 4 .lqItem11 (height m.words tree) fun words =>
          [words (tree + 1), words (newQueue + 1), words (tree + 3)]))

/-- The new queue with its head `p` and the tail `w`. -/
def newHead (p : Nat) (w : (Nat → Nat) → Nat) (m : Memory) : Nat × Memory :=
  newItem m 3 .lqEntryPoint 0 fun words => [ptrToWord p, w words]

/-- The first tree of the head is taken. -/
def removeHead (m : Memory) (queue : Nat) : Option (Nat × Memory) :=
  let tree := wordToPtr (m.words (queue + 1))
  if IsType m.words tree .lqItem00 then
    if m.words (queue + 2) = nullWord then some (nullPtr, m)
    else some (newItem m 3 .lqEntryPoint 0 fun words => [nullWord, words (queue + 2)])
  else if IsType m.words tree .lqItem01 then
    some (newItem m 3 .lqEntryPoint 0 fun words => [words (tree + 2), words (queue + 2)])
  else if IsType m.words tree .lqItem10 then do
    assert (height m.words tree > 0)
    let (p, m) := newItem m 2 .lqItem00 0 fun words => [words (tree + 1)]
    let tree := wordToPtr (m.words (tree + 2))
    let (newQueue, m) := newHead p (fun words => words (queue + 2)) m
    let m ← unpack newQueue lqRemoveMaxAllocation tree m
    some (newQueue, m)
  else do
    assert (IsType m.words tree .lqItem11)
    assert (height m.words tree > 0)
    let (p, m) := newItem m 3 .lqItem01 0 fun words => [words (tree + 1), words (tree + 2)]
    let tree := wordToPtr (m.words (tree + 3))
    let (newQueue, m) := newHead p (fun words => words (queue + 2)) m
    let m ← unpack newQueue lqRemoveMaxAllocation tree m
    some (newQueue, m)

/-- The head is empty and the tail is reversed. -/
def removeTail (m : Memory) (queue : Nat) : Option (Nat × Memory) := do
  assert (m.words (queue + 2) ≠ nullWord)
  let tree := wordToPtr (m.words (queue + 2))
  if IsType m.words tree .lqItem00 then some (nullPtr, m)
  else if IsType m.words tree .lqItem10 then
    assert (height m.words tree > 0)
    let (p, m) := newItem m 2 .lqItem00 0 fun words => [words (tree + 1)]
    let tree := wordToPtr (m.words (tree + 2))
    let (newQueue, m) := newHead p (fun _ => nullWord) m
    let m ← unpack newQueue lqRemoveMaxAllocation tree m
    some (newQueue, m)
  else if IsType m.words tree .lqItem01 then
    let (p, m) := newItem m 2 .lqItem00 0 fun words => [words (tree + 1)]
    let (newQueue, m) := newHead p (fun _ => nullWord) m
    let m ← reverse newQueue lqRemoveMaxAllocation tree m
    some (newQueue, m)
  else
    assert (IsType m.words tree .lqItem11)
    assert (height m.words tree > 0)
    let (p, m) := newItem m 3 .lqItem10 (height m.words tree) fun words =>
      [words (tree + 1), words (tree + 3)]
    let (newQueue, m) := newHead p (fun _ => nullWord) m
    let m ← reverse newQueue lqRemoveMaxAllocation tree m
    some (newQueue, m)

end Lq

/-- `lq_remove_first`. -/
def lqRemoveFirst (m : Memory) (queue : Nat) : Option (Nat × Memory) :=
  if queue = nullPtr then some (nullPtr, m)
  else if m.words (queue + 1) ≠ nullWord then removeHead m queue
  else removeTail m queue

end Shades
