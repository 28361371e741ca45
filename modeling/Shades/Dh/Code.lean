import Shades.Bits
import Shades.Memory

/-!
# Shades.Dh.Code

`dh.c`: dynamic hashing.  The keys are in cells of type `CELL_leaf`, with their
number in the lowest 24 bits of the word `0` and then the keys, each followed by
its data.  The cells of type `CELL_internal` have `INTERNAL_NODE_SIZE` sons, and
two more bits of a key select one of them.

`dh_insert` copies the cells on its way down and keeps the address `pp` of the
word that the next copy is put into; at first this is the variable `new_root`.
`dhInsert` is the function for `f == NULL`, `dhInsertWith` the one for any `f`.
The loops of the code that go down end when a leaf was found; here they have so
many rounds as there can be levels.
-/

namespace Shades

/-- `MAX_KEYS_IN_LEAF`. -/
def maxKeysInLeaf : Nat := 32

namespace Dh

/-- The bits that a level takes, `DO_ILOG2(INTERNAL_NODE_SIZE) - 1`. -/
def offset : Nat := 2

/-- The son that a key goes to. -/
def slot (key bitsCompared : Nat) : Nat := lshift32 key bitsCompared >>> (32 - offset)

/-- The rounds of a loop. -/
def rounds : Nat := 32

def numberOfKeys (words : Nat → Nat) (p : Nat) : Nat := words p &&& 0xFFFFFF

/-- The loop that looks for a key in the next `n` entries from the word `i` on. -/
def keyLoop (words : Nat → Nat) (p key : Nat) : Nat → Nat → Option Nat
  | 0, _ => none
  | n + 1, i => if words (p + i) = key then some i else keyLoop words p key n (i + 2)

/-- The next `n` entries from the word `i` on, the keys and the words of the data. -/
def entriesFrom (words : Nat → Nat) (p : Nat) : Nat → Nat → List (Nat × Nat)
  | 0, _ => []
  | n + 1, i => (words (p + i), words (p + i + 1)) :: entriesFrom words p n (i + 2)

end Dh

open Dh

/-- `DH_MAX_ALLOCATION`. -/
def dhMaxAllocation : Nat := (internalNodeSize + 1) * 32 / offset + 4 * 2 + 1

namespace Dh

/-! ## searching -/

/-- The loop of `dh_find`. -/
def findLoop (words : Nat → Nat) (key : Nat) : Nat → Nat → Nat → Option Nat
  | 0, _, _ => none
  | n + 1, p, bitsCompared =>
    if p = nullPtr then some nullPtr
    else if cellType (words p) = CellType.leaf.code then
      match keyLoop words p key (numberOfKeys words p) 1 with
      | some i => some (wordToPtr (words (p + i + 1)))
      | none => some nullPtr
    else do
      assert (cellType (words p) = CellType.internal.code)
      findLoop words key n (wordToPtr (words (p + (slot key bitsCompared + 1))))
        (bitsCompared + offset)

/-- The loop that looks for the smallest key in the next `n` entries from the word
`i` on; `key` is the smallest one so far. -/
def smallestLoop (words : Nat → Nat) (p : Nat) : Nat → Nat → Nat → Nat
  | 0, _, key => key
  | n + 1, i, key =>
    smallestLoop words p n (i + 2) (if words (p + i) < key then words (p + i) else key)

/-- The first of the next `n` sons from `i` on that is there.  When there is none
the assertion after the loop is violated. -/
def firstSon (words : Nat → Nat) (p : Nat) : Nat → Nat → Option Nat
  | 0, _ => none
  | n + 1, i => if words (p + i) = nullWord then firstSon words p n (i + 1) else some i

/-- The loop of `dh_find_min`: the data and the key. -/
def findMinLoop (words : Nat → Nat) : Nat → Nat → Option (Nat × Nat)
  | 0, _ => none
  | n + 1, p =>
    if cellType (words p) = CellType.leaf.code then
      some (wordToPtr (words (p + 4)),
        smallestLoop words p (numberOfKeys words p - 1) 3 (words (p + 1)))
    else do
      assert (cellType (words p) = CellType.internal.code)
      -- always try first to go left
      let i ← firstSon words p internalNodeSize 1
      findMinLoop words n (wordToPtr (words (p + i)))

/-! ## insertion -/

/-- The variables of `dh_insert`.  The word `*pp` is `new_root` at first. -/
structure Inserting where
  m : Memory
  newRoot : Nat
  pp : Option Nat
  p : Nat
  bitsCompared : Nat

/-- `*pp = x`. -/
def Inserting.link (s : Inserting) (x : Nat) : Inserting :=
  match s.pp with
  | none => { s with newRoot := x }
  | some a => { s with m := s.m.set a x }

/-- What a round comes to: another one, the end of an insertion that changes
nothing, or the end of another one. -/
inductive Round
  | next (s : Inserting)
  | nilpotent (s : Inserting)
  | done (s : Inserting)

/-- The words of some entries. -/
def flatten (entries : List (Nat × Nat)) : List Nat := entries.flatMap fun e => [e.1, e.2]

/-- A leaf of one key. -/
def emptySlot (s : Inserting) (key data : Nat) : Inserting :=
  let (p, m) := s.m.allocate 3 .leaf
  let m := m.set p (m.words p ||| 0x1)
  { s with m := fillCell p 1 [key, ptrToWord data] m }.link (ptrToWord p)

/-- A node on the way is copied. -/
def descend (s : Inserting) (key : Nat) : Inserting :=
  let (newP, m) := s.m.allocate (internalNodeSize + 1) .internal
  let m := fillCell newP 1 (slice m.words (s.p + 1) internalNodeSize) m
  let s := { s with m }.link (ptrToWord newP)
  let i := slot key s.bitsCompared + 1
  { s with pp := some (newP + i), p := wordToPtr (s.m.words (newP + i)),
           bitsCompared := s.bitsCompared + offset }

/-- The data of the key in the word `i` are replaced. -/
def update (s : Inserting) (i data : Nat) : Inserting :=
  let cellSize := 2 * numberOfKeys s.m.words s.p + 1
  let (newP, m) := s.m.allocate cellSize .leaf
  let m := fillCell newP 0 (slice m.words s.p cellSize) m
  { s with m := m.set (newP + i + 1) (ptrToWord data) }.link (ptrToWord newP)

/-- There is room for the key in the leaf. -/
def addKey (s : Inserting) (key data : Nat) : Inserting :=
  let n := numberOfKeys s.m.words s.p
  let (newP, m) := s.m.allocate (2 * n + 1 + 2) .leaf
  let m := m.set newP (m.words newP ||| (n + 1))
  let m := fillCell newP 1 (slice m.words (s.p + 1) (2 * n)) m
  let m := fillCell newP (2 * n + 1) [key, ptrToWord data] m
  { s with m }.link (ptrToWord newP)

/-- All keys from the word `i` on branch to the son of the key before them. -/
def sameSlots (words : Nat → Nat) (p bitsCompared : Nat) : Nat → Nat → Bool
  | 0, _ => true
  | n + 1, i =>
    slot (words (p + i - 2)) bitsCompared = slot (words (p + i)) bitsCompared ∧
      sameSlots words p bitsCompared n (i + 2)

/-- `new_overflow`: the new key and all keys of the leaf branch to the same son. -/
def newOverflow (words : Nat → Nat) (p key bitsCompared : Nat) : Bool :=
  slot key bitsCompared = slot (words (p + 1)) bitsCompared ∧
    sameSlots words p bitsCompared (numberOfKeys words p - 1) 3

/-- A new node with one son, the full leaf. -/
def overflow (s : Inserting) (newPp key : Nat) : Inserting :=
  let m := fillCell newPp 1 (List.replicate internalNodeSize nullWord) s.m
  let i := slot key s.bitsCompared + 1
  { s with m := m.set (newPp + i) (ptrToWord s.p), pp := some (newPp + i),
           bitsCompared := s.bitsCompared + offset }

/-- The son `i` of the new node `newPp`: a leaf of the keys that branch to it. -/
def newLeaf (p newPp key data bitsCompared i : Nat) (m : Memory) : Memory :=
  let entries := entriesFrom m.words p (numberOfKeys m.words p) 1
  let items := (if slot key bitsCompared = i then 1 else 0) +
    entries.countP fun e => slot e.1 bitsCompared = i
  if items = 0 then m.set (newPp + (i + 1)) nullWord
  else
    let (newLeaf, m) := m.allocate (2 * items + 1) .leaf
    let m := m.set newLeaf (m.words newLeaf ||| items)
    let m := fillCell newLeaf 1
      (flatten ((if slot key bitsCompared = i then [(key, ptrToWord data)] else []) ++
        (entriesFrom m.words p (numberOfKeys m.words p) 1).filter fun e =>
          slot e.1 bitsCompared = i)) m
    m.set (newPp + (i + 1)) (ptrToWord newLeaf)

/-- The sons from `i` on. -/
def leafLoop (p newPp key data bitsCompared : Nat) : Nat → Nat → Memory → Memory
  | 0, _, m => m
  | n + 1, i, m =>
    leafLoop p newPp key data bitsCompared n (i + 1) (newLeaf p newPp key data bitsCompared i m)

/-- The full leaf is replaced by a node. -/
def replaceLeaf (s : Inserting) (key data : Nat) : Round :=
  let (newPp, m) := s.m.allocate (internalNodeSize + 1) .internal
  let s := { s with m }.link (ptrToWord newPp)
  if newOverflow s.m.words s.p key s.bitsCompared then .next (overflow s newPp key)
  else .done { s with m := leafLoop s.p newPp key data s.bitsCompared internalNodeSize 0 s.m }

/-- A round of the loop of `dh_insert`. -/
def insertRound (s : Inserting) (key data : Nat) : Option Round :=
  if s.p = nullPtr then some (.done (emptySlot s key data))
  else if cellType (s.m.words s.p) = CellType.internal.code then some (.next (descend s key))
  else if cellType (s.m.words s.p) = CellType.leaf.code then
    let n := numberOfKeys s.m.words s.p
    match keyLoop s.m.words s.p key n 1 with
    | some i =>
      if s.m.words (s.p + i + 1) = ptrToWord data then some (.nilpotent s)
      else some (.done (update s i data))
    | none =>
      if n < maxKeysInLeaf then some (.done (addKey s key data))
      else do
        assert (2 * n + 1 = 2 * maxKeysInLeaf + 1)
        some (replaceLeaf s key data)
  else some (.next s)

/-- The loop of `dh_insert`, and whether the insertion changes anything. -/
def insertLoop (key data : Nat) : Nat → Inserting → Option (Bool × Inserting)
  | 0, _ => none
  | n + 1, s => do
    match ← insertRound s key data with
    | .next s => insertLoop key data n s
    | .nilpotent s => some (false, s)
    | .done s => some (true, s)

/-! ## insertion with an update function -/

/-- The full leaf is replaced by a node.  The update function is called when the
node distinguishes the keys. -/
def replaceLeafWith (f : Option UpdateFunction) (s : Inserting) (key data : Nat) : Round :=
  let (newPp, m) := s.m.allocate (internalNodeSize + 1) .internal
  let s := { s with m }.link (ptrToWord newPp)
  if newOverflow s.m.words s.p key s.bitsCompared then .next (overflow s newPp key)
  else
    let (data, m) := UpdateFunction.call f nullPtr data s.m
    .done { s with m := leafLoop s.p newPp key data s.bitsCompared internalNodeSize 0 m }

/-- A round of the loop of `dh_insert`. -/
def insertRoundWith (f : Option UpdateFunction) (s : Inserting) (key data : Nat) : Option Round :=
  if s.p = nullPtr then
    let (data, m) := UpdateFunction.call f nullPtr data s.m
    some (.done (emptySlot { s with m } key data))
  else if cellType (s.m.words s.p) = CellType.internal.code then some (.next (descend s key))
  else if cellType (s.m.words s.p) = CellType.leaf.code then
    let n := numberOfKeys s.m.words s.p
    match keyLoop s.m.words s.p key n 1 with
    | some i =>
      let (data, m) := UpdateFunction.call f (wordToPtr (s.m.words (s.p + i + 1))) data s.m
      if m.words (s.p + i + 1) = ptrToWord data then some (.nilpotent { s with m })
      else some (.done (update { s with m } i data))
    | none =>
      -- the update function is not called
      if n < maxKeysInLeaf then some (.done (addKey s key data))
      else do
        assert (2 * n + 1 = 2 * maxKeysInLeaf + 1)
        some (replaceLeafWith f s key data)
  else some (.next s)

/-- The loop of `dh_insert`, and whether the insertion changes anything. -/
def insertLoopWith (f : Option UpdateFunction) (key data : Nat) :
    Nat → Inserting → Option (Bool × Inserting)
  | 0, _ => none
  | n + 1, s => do
    match ← insertRoundWith f s key data with
    | .next s => insertLoopWith f key data n s
    | .nilpotent s => some (false, s)
    | .done s => some (true, s)

end Dh

/-! ## the operations -/

/-- `dh_find_min` with what it assigns to `*key_p`. -/
def dhFindMin (words : Nat → Nat) (root keyP : Nat) : Option (Nat × Nat) :=
  if root = nullPtr then some (nullPtr, keyP) else findMinLoop words rounds root

/-- `dh_find`. -/
def dhFind (words : Nat → Nat) (root key : Nat) : Option Nat := findLoop words key rounds root 0

/-- `dh_insert` without an update function. -/
def dhInsert (m : Memory) (root key data : Nat) : Option (Nat × Memory) := do
  let (changed, s) ← insertLoop key data rounds ⟨m, nullWord, none, root, 0⟩
  if changed then some (wordToPtr s.newRoot, s.m)
  -- the work is retracted
  else some (root, s.m.restoreAllocationPoint m.allocationPtr)

/-- `dh_insert`. -/
def dhInsertWith (m : Memory) (root key : Nat) (f : Option UpdateFunction) (data : Nat) :
    Option (Nat × Memory) := do
  let (changed, s) ← insertLoopWith f key data rounds ⟨m, nullWord, none, root, 0⟩
  if changed then some (wordToPtr s.newRoot, s.m)
  -- the work is retracted
  else some (root, s.m.restoreAllocationPoint m.allocationPtr)

/-! ## no update function -/

@[simp] theorem insertRoundWith_none (s : Inserting) (key data : Nat) :
    insertRoundWith none s key data = insertRound s key data := rfl

@[simp] theorem insertLoopWith_none (key data n : Nat) (s : Inserting) :
    insertLoopWith none key data n s = insertLoop key data n s := by
  induction n generalizing s with
  | zero => rfl
  | succ n ih =>
    rw [insertLoopWith, insertLoop, insertRoundWith_none]
    simp only [ih]

@[simp] theorem dhInsertWith_none (m : Memory) (root key data : Nat) :
    dhInsertWith m root key none data = dhInsert m root key data := by
  rw [dhInsertWith, dhInsert, insertLoopWith_none]

end Shades
