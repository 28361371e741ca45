import Shades.Lists
import Shades.Queue.Schedule

/-!
# Shades.Queue.Code

`queue.c`.  A cell of type `CELL_queue` has the words

* `1`, `2`: the head and the tail,
* `3`, `4`: the numbers of items in the head and in the tail,

and a cell of type `CELL_queue_rev`, a queue in a transfer, also has

* `5`, `6`: the unreversed part of the old head and the reversed part,
* `7`, `8`: the same for the old tail,
* `9`: the number of items moved from `6` to `8`,
* `10`: the number of items in the head when the transfer started.

The counts are natural numbers here: a queue has fewer items than there are
words in the memory, so they do not overflow.  The result of an operation is
`none` if one of its assertions fails.
-/

namespace Shades

/-- `WORDS_IN_QUEUE_HEADER`. -/
def wordsInQueueHeader : Nat := 5

/-- `QUEUE_MAX_ALLOCATION`. -/
def queueMaxAllocation : Nat :=
  3 + wordsInQueueHeader + wordsInQueueHeader + 6 + 3 * 2 * 3

/-- `QUEUE_IS_EMPTY`. -/
def queueIsEmpty (queue : Nat) : Bool := queue = nullPtr

/-- `QUEUE_GET_FIRST`. -/
def queueGetFirst (words : Nat → Nat) (queue : Nat) : Option Nat := do
  assert (¬ queueIsEmpty queue)
  assert (cellType (words (wordToPtr (words (queue + 1)))) = CellType.list.code)
  let x ← wcar words (words (queue + 1))
  some (wordToPtr x)

/-- `q[j] = WCONS(WCAR(q[i]), q[j]); q[i] = WCDR(q[i]);` -/
def moveItem (i j q : Nat) (m : Memory) : Option Memory := do
  let x ← wcar m.words (m.words (q + i))
  let (w, m) := wcons m x (m.words (q + j))
  let m := m.set (q + j) w
  let d ← wcdr m.words (m.words (q + i))
  some (m.set (q + i) d)

/-- The loop that starts a transfer: `n` items of the old head and of the old
tail are reversed. -/
def reverseLoop (q : Nat) : Nat → Memory → Option Memory
  | 0, m => some m
  | n + 1, m => do
    let m ← moveItem 5 6 q m
    let m ← moveItem 7 8 q m
    reverseLoop q n m

/-- An item is moved in the second phase, `new_queue[9]++`. -/
def restoreItem (q : Nat) (m : Memory) : Option Memory := do
  let m ← moveItem 6 8 q m
  some (m.set (q + 9) (m.words (q + 9) + 1))

/-- `for (i = 0; i < n && new_queue[3] > new_queue[9]; i++)` -/
def restoreLoop (q : Nat) : Nat → Memory → Option Memory
  | 0, m => some m
  | n + 1, m =>
    if m.words (q + 9) < m.words (q + 3) then do
      let m ← restoreItem q m
      restoreLoop q n m
    else some m

/-- The items that an operation moves in the second phase; `moved` is the word
`9` of the cell. -/
def restoreItems (q moved : Nat) (m : Memory) : Option Memory :=
  (if moved = 0 ∧ m.words (q + 3) % 2 ≠ 0 then restoreItem q m else some m).bind
    (restoreLoop q 2)

/-- A transfer that is complete is replaced by a plain queue. -/
def completeTransfer (q : Nat) (m : Memory) : Nat × Memory :=
  if m.words (q + 3) = m.words (q + 9) then
    let (p, m) := m.allocate wordsInQueueHeader .queue
    (p, fillCell p 1 [m.words (q + 8), m.words (q + 2), m.words (q + 3) + m.words (q + 10) + 1,
      m.words (q + 4)] m)
  else (q, m)

/-- The part of `queue_insert_last` and `queue_remove_first` that proceeds with
the transfer in the new cell `q`. -/
def proceedTransfer (q moved : Nat) (m : Memory) : Option (Nat × Memory) :=
  if m.words (q + 5) = nullWord then do
    -- The old head and tail are already reversed.
    assert (m.words (q + 7) = nullWord)
    let m ← restoreItems q moved m
    some (completeTransfer q m)
  else do
    let m ← moveItem 5 6 q m
    let m ← moveItem 5 6 q m
    let m ← moveItem 7 8 q m
    let m ← moveItem 7 8 q m
    some (q, m)

/-- `queue_insert_last`. -/
def queueInsertLast (m : Memory) (queue data : Nat) : Option (Nat × Memory) :=
  if queueIsEmpty queue then
    let (q, m) := m.allocate wordsInQueueHeader .queue
    let (w, m) := wcons m (ptrToWord data) nullWord
    some (q, fillCell q 1 [w, nullWord, 1, 0] m)
  else if cellType (m.words queue) = CellType.queue.code then
    if m.words (queue + 3) = m.words (queue + 4) then
      if m.words (queue + 3) = 1 then do
        let (q, m) := m.allocate wordsInQueueHeader .queue
        let (newTail, m) := wcons m (ptrToWord data) nullWord
        let x ← wcar m.words (m.words (queue + 2))
        let (newTail, m) := wcons m x newTail
        let x ← wcar m.words (m.words (queue + 1))
        let (w, m) := wcons m x newTail
        some (q, fillCell q 1 [w, nullWord, 3, 0] m)
      else do
        let (q, m) := m.allocate (wordsInQueueHeader + 6) .queueRev
        let (w, m) := wcons m (ptrToWord data) nullWord
        let m := fillCell q 1 [m.words (queue + 1), nullWord, m.words (queue + 3), 0,
          m.words (queue + 1), nullWord, m.words (queue + 2), w, 0, m.words (queue + 3)] m
        let m ← reverseLoop q (2 + m.words (q + 3) % 2) m
        some (q, m)
    else
      let (q, m) := m.allocate wordsInQueueHeader .queue
      let (w, m) := wcons m (ptrToWord data) (m.words (queue + 2))
      some (q, fillCell q 1 [m.words (queue + 1), w, m.words (queue + 3),
        m.words (queue + 4) + 1] m)
  else do
    assert (cellType (m.words queue) = CellType.queueRev.code)
    let (q, m) := m.allocate (wordsInQueueHeader + 6) .queueRev
    let (w, m) := wcons m (ptrToWord data) (m.words (queue + 2))
    let m := fillCell q 1 [m.words (queue + 1), w, m.words (queue + 3), m.words (queue + 4) + 1,
      m.words (queue + 5), m.words (queue + 6), m.words (queue + 7), m.words (queue + 8),
      m.words (queue + 9), m.words (queue + 10)] m
    proceedTransfer q (m.words (queue + 9)) m

/-- `queue_remove_first`. -/
def queueRemoveFirst (m : Memory) (queue : Nat) : Option (Nat × Memory) := do
  assert (¬ queueIsEmpty queue)
  assert (cellType (m.words (wordToPtr (m.words (queue + 1)))) = CellType.list.code)
  if cellType (m.words queue) = CellType.queue.code then
    if m.words (queue + 3) = m.words (queue + 4) then
      if m.words (queue + 3) = 1 then
        let (q, m) := m.allocate wordsInQueueHeader .queue
        some (q, fillCell q 1 [m.words (queue + 2), nullWord, 1, 0] m)
      else if m.words (queue + 3) = 2 then do
        let (q, m) := m.allocate wordsInQueueHeader .queue
        let x ← wcar m.words (m.words (queue + 2))
        let (newTail, m) := wcons m x nullWord
        let x ← (wcdr m.words (m.words (queue + 2))).bind (wcar m.words)
        let (newTail, m) := wcons m x newTail
        let x ← (wcdr m.words (m.words (queue + 1))).bind (wcar m.words)
        let (w, m) := wcons m x newTail
        some (q, fillCell q 1 [w, nullWord, 3, 0] m)
      else do
        let (q, m) := m.allocate (wordsInQueueHeader + 6) .queueRev
        let head ← wcdr m.words (m.words (queue + 1))
        let x ← wcar m.words (m.words (queue + 2))
        let (w, m) := wcons m x nullWord
        let back ← wcdr m.words (m.words (queue + 2))
        let m := fillCell q 1 [head, nullWord, m.words (queue + 3) - 1, 0, head, nullWord, back, w,
          0, m.words (queue + 3) - 1] m
        let m ← reverseLoop q (2 + m.words (q + 3) % 2) m
        some (q, m)
    else if m.words (queue + 3) = 1 ∧ m.words (queue + 4) = 0 then some (nullPtr, m)
    else do
      let (q, m) := m.allocate wordsInQueueHeader .queue
      let head ← wcdr m.words (m.words (queue + 1))
      some (q, fillCell q 1 [head, m.words (queue + 2), m.words (queue + 3) - 1,
        m.words (queue + 4)] m)
  else do
    assert (cellType (m.words queue) = CellType.queueRev.code)
    let (q, m) := m.allocate (wordsInQueueHeader + 6) .queueRev
    let head ← wcdr m.words (m.words (queue + 1))
    let m := fillCell q 1 [head, m.words (queue + 2), m.words (queue + 3) - 1,
      m.words (queue + 4), m.words (queue + 5), m.words (queue + 6), m.words (queue + 7),
      m.words (queue + 8), m.words (queue + 9), m.words (queue + 10)] m
    proceedTransfer q (m.words (q + 9)) m

end Shades
