import Shades.Shtring.Code

/-!
# Shades.Shtring.CatCode

`shtring_cat` and what it is made of.  The result of an operation is `none` if
one of its assertions fails; the assertions on the types of cells are left out,
and so are the checks made by `heavy_assert`.

The bytes that `memcpy` copies are those of a machine whose words have the
lowest byte first.
-/

namespace Shades

/-! ## new cells -/

/-- `shtring_tree_height`. -/
def shtringTreeHeight (words : Nat → Nat) (p : Nat) : Nat :=
  if p = nullPtr then 0
  else if isShtringNode words p then shtringNodeHeight words p
  else 1

/-- `shtring_new_chunk`. -/
def shtringNewChunk (m : Memory) (n : Nat) : Option (Nat × Memory) := do
  assert (0 < n)
  let (p, m) := m.allocate (shtringChunkWordsNeeded n) .shtringChunk
  some (p, m.set p (m.words p ||| n))

/-- The loop of `shtring_new_node` over the children. -/
def clearChildren : Nat → Memory → Nat → Memory
  | 0, m, _ => m
  | n + 1, m, p => (clearChildren n m p).set (p + 3 + n) (ptrToWord nullPtr)

/-- `shtring_new_node`. -/
def shtringNewNode (m : Memory) (children height : Nat) : Option (Nat × Memory) := do
  assert (0 < children)
  assert (1 < height)
  let (p, m) := m.allocate (3 + children) .shtringNode
  let m := m.set p (m.words p ||| children)
  let m := (m.set (p + 1) 0).set (p + 2) height
  some (p, clearChildren children m p)

/-- `shtring_add_child`, with the index of the next child as its result. -/
def shtringAddChild (m : Memory) (p kid nextUnass len : Nat) : Option (Nat × Memory) := do
  assert (p ≠ nullPtr)
  assert (kid ≠ nullPtr)
  assert (1 < shtringNodeHeight m.words p)
  assert (shtringTreeHeight m.words kid + 1 = shtringNodeHeight m.words p)
  assert (nextUnass ≤ shtringNodeChildren m.words p)
  let m := m.set (p + 2 + nextUnass) (ptrToWord kid)
  some (nextUnass + 1, m.set (p + 1) (add32 (m.words (p + 1)) len))

/-- The loop of `shtring_add_children`: `n` children from the `i`th on. -/
def addChildrenLoop (q p : Nat) : Nat → Memory → Nat → Nat → Option (Nat × Memory)
  | 0, m, nextUnass, _ => some (nextUnass, m)
  | n + 1, m, nextUnass, i => do
    let kid := shtringNodeChild m.words p i
    let (nextUnass, m) ← shtringAddChild m q kid nextUnass (shtringTreeLength m.words kid)
    addChildrenLoop q p n m nextUnass (i + 1)

/-- `shtring_add_children`. -/
def shtringAddChildren (m : Memory) (q nextUnass p i j : Nat) : Option (Nat × Memory) := do
  assert (p ≠ nullPtr)
  assert (i ≤ j)
  assert (1 ≤ i)
  assert (j ≤ shtringNodeChildren m.words p)
  addChildrenLoop q p (j + 1 - i) m nextUnass i

/-- `shtring_new_shtring`. -/
def shtringNewShtring (m : Memory) (offset len height root : Nat) : Option (Nat × Memory) := do
  assert (height = shtringTreeHeight m.words root)
  assert (offset ≤ shtringTreeLength m.words root)
  assert (add32 offset len ≤ shtringTreeLength m.words root)
  let (p, m) := m.allocate shtringWords .shtring
  some (p, (((m.set (p + 1) offset).set (p + 2) len).set (p + 3) height).set (p + 4)
    (ptrToWord root))

/-! ## joining trees -/

/-- The loop of `make_of_height`: `n` more levels of nodes with one child. -/
def raiseLoop (len : Nat) : Nat → Memory → Nat → Nat → Option (Nat × Memory)
  | 0, m, p, _ => some (p, m)
  | n + 1, m, p, current => do
    let (new, m) ← shtringNewNode m 1 (current + 1)
    let (_, m) ← shtringAddChild m new p 1 len
    raiseLoop len n m new (current + 1)

/-- `make_of_height`. -/
def makeOfHeight (m : Memory) (p h : Nat) : Option (Nat × Memory) := do
  let current := shtringTreeHeight m.words p
  assert (current ≤ h)
  raiseLoop (shtringTreeLength m.words p) (h - current) m p current

/-- A new node of height `h` for `n` children: `p1` and then the children `i`, …,
`j` of `p2`. -/
def consNode (m : Memory) (n h p1 p2 i j : Nat) : Option (Nat × Memory) := do
  let (q, m) ← shtringNewNode m n h
  let (unass, m) ← shtringAddChild m q p1 1 (shtringTreeLength m.words p1)
  let (_, m) ← shtringAddChildren m q unass p2 i j
  some (q, m)

/-- A new node of height `h` for `n` children: the children `1`, …, `j` of `p1`
and then `p2`. -/
def snocNode (m : Memory) (n h p1 j p2 : Nat) : Option (Nat × Memory) := do
  let (q, m) ← shtringNewNode m n h
  let (unass, m) ← shtringAddChildren m q 1 p1 1 j
  let (_, m) ← shtringAddChild m q p2 unass (shtringTreeLength m.words p2)
  some (q, m)

/-- `cat_recursive`; it recurs on the higher of the two trees. -/
def catRecursive : Nat → Memory → Nat → Nat → Nat → Nat → Option (Nat × Memory)
  | 0, _, _, _, _, _ => none
  | depth + 1, m, p1, h1, p2, h2 => do
    assert (0 < h1)
    assert (0 < h2)
    assert (h1 = shtringTreeHeight m.words p1)
    assert (h2 = shtringTreeHeight m.words p2)
    let n1 := shtringNodeChildren m.words p1
    let n2 := shtringNodeChildren m.words p2
    if h1 = h2 then
      if h1 = 1 ∨ maxShtringNodeChildren < n1 + n2 then some (nullPtr, m)
      else
        let (q, m) ← shtringNewNode m (n1 + n2) h1
        let (unass, m) ← shtringAddChildren m q 1 p1 1 n1
        let (_, m) ← shtringAddChildren m q unass p2 1 n2
        some (q, m)
    else if h1 < h2 then
      let (q, m) ← catRecursive depth m p1 h1 (shtringNodeChild m.words p2 1) (h2 - 1)
      if q = nullPtr then some (nullPtr, m) else consNode m n2 h2 q p2 2 n2
    else
      let (q, m) ← catRecursive depth m (shtringNodeChild m.words p1 n1) (h1 - 1) p2 h2
      if q = nullPtr then some (nullPtr, m) else snocNode m n1 h1 p1 (n1 - 1) q

/-- A node of height `h` with the two trees as its children, as `cat_trees`
makes it. -/
def newRoot (m : Memory) (h p1 p2 : Nat) : Option (Nat × Memory) := do
  let (q, m) ← shtringNewNode m 2 h
  let (unass, m) ← shtringAddChild m q p1 1 (shtringTreeLength m.words p1)
  let (_, m) ← shtringAddChild m q p2 unass (shtringTreeLength m.words p2)
  some (q, m)

/-- `cat_trees`. -/
def catTrees (m : Memory) (p1 h1 p2 h2 : Nat) : Option (Nat × Memory) := do
  let (q, m) ← catRecursive (max h1 h2) m p1 h1 p2 h2
  if q ≠ nullPtr then some (q, m)
  else if h1 = h2 then newRoot m (h1 + 1) p1 p2
  else if h1 < h2 then
    let n := shtringNodeChildren m.words p2
    if n < maxShtringNodeChildren then
      let (p1, m) ← makeOfHeight m p1 (h2 - 1)
      consNode m (n + 1) h2 p1 p2 1 n
    else
      let (p1, m) ← makeOfHeight m p1 h2
      newRoot m (h2 + 1) p1 p2
  else
    let n := shtringNodeChildren m.words p1
    if n < maxShtringNodeChildren then
      let (p2, m) ← makeOfHeight m p2 (h1 - 1)
      snocNode m (n + 1) h1 p1 n p2
    else
      let (p2, m) ← makeOfHeight m p2 h1
      newRoot m (h1 + 1) p1 p2

/-! ## trimming -/

/-- `memcpy` between words: whole words, and the lower bytes of the last
one. -/
def copyBytes (m : Memory) (q p : Nat) : Nat → Memory
  | 0 => m
  | n + 1 =>
    let m := copyBytes m q p n
    let a := q + n / 4
    let b := 2 ^ (8 * (n % 4))
    m.set a (m.words a - m.words a / b % 256 * b + m.words (p + n / 4) / b % 256 * b)

/-- The loop of `copy_chunk_text` for text that starts within a word. -/
def copyShifted (off : Nat) : Nat → Memory → Nat → Nat → Nat → Option Memory
  | 0, _, _, _, _ => none
  | fuel + 1, m, q, p, len =>
    if 4 < add32 off len then
      copyShifted off fuel
        (m.set q (lshift32 (m.words p) (off * 8) ||| (m.words (p + 1) >>> ((4 - off) * 8))))
        (q + 1) (p + 1) (sub32 len 4)
    else some (m.set q (lshift32 (m.words p) (off * 8)))

/-- `copy_chunk_text`.  The number of bytes copied for text that starts with a
word is the number of words. -/
def copyChunkText (m : Memory) (q p start : Nat) : Option Memory := do
  assert (start ≤ shtringChunkLength m.words p)
  let off := start % 4
  let len := shtringChunkLength m.words q
  if off = 0 then some (copyBytes m (q + 1) (p + 1 + start / 4) ((len + 4 - 1) / 4))
  else copyShifted off (len + 1) m (q + 1) (p + 1 + start / 4) len

/-- A new chunk of `n` characters with the text of `p` from `start` on. -/
def copyChunk (m : Memory) (p start n : Nat) : Option (Nat × Memory) := do
  let (q, m) ← shtringNewChunk m n
  let m ← copyChunkText m q p start
  some (q, m)

/-- The first loop of `trim_ends`. -/
def skipLeft (words : Nat → Nat) (p : Nat) : Nat → Nat → Nat → Option (Nat × Nat)
  | 0, _, _ => none
  | fuel + 1, i, start => do
    if start = 0 then some (i, start)
    else
      assert (i ≤ shtringNodeChildren words p)
      let len := shtringTreeLength words (shtringNodeChild words p i)
      if start < len then some (i, start) else skipLeft words p fuel (i + 1) (start - len)

/-- The second loop of `trim_ends`. -/
def skipRight (words : Nat → Nat) (p i : Nat) : Nat → Nat → Nat × Nat
  | 0, fin => (0, fin)
  | j + 1, fin =>
    if 0 < fin ∧ i < j + 1 then
      let len := shtringTreeLength words (shtringNodeChild words p (j + 1))
      if fin < len then (j + 1, fin) else skipRight words p i j (fin - len)
    else (j + 1, fin)

/-- The last loop of `trim_ends`. -/
def skipSingle (words : Nat → Nat) : Nat → Nat → Nat
  | 0, q => q
  | h + 1, q =>
    if 1 < h + 1 ∧ shtringNodeChildren words q = 1 then
      skipSingle words h (shtringNodeChild words q 1)
    else q

/-- `trim_ends`; it recurs on the levels of the tree. -/
def trimEnds : Nat → Memory → Nat → Nat → Nat → Option (Nat × Memory)
  | 0, _, _, _, _ => none
  | depth + 1, m, p, start, fin => do
    assert (p ≠ nullPtr)
    assert (add32 start fin < shtringTreeLength m.words p)
    if start = 0 ∧ fin = 0 then some (p, m)
    else if isShtringNode m.words p then
      let n := shtringNodeChildren m.words p
      let h := shtringNodeHeight m.words p
      let (i, start) ← skipLeft m.words p (n + 2) 1 start
      let (j, fin) := skipRight m.words p i n fin
      assert (i ≤ j)
      let (q, m) ← shtringNewNode m (j - i + 1) h
      let (left, right, m) ←
        if 2 < h then
          if i = j then do
            let (left, m) ← trimEnds depth m (shtringNodeChild m.words p i) start fin
            some (left, nullPtr, m)
          else do
            let (left, m) ← trimEnds depth m (shtringNodeChild m.words p i) start 0
            let (right, m) ← trimEnds depth m (shtringNodeChild m.words p j) 0 fin
            some (left, right, m)
        else if i = j then do
          let child := shtringNodeChild m.words p i
          let (left, m) ←
            copyChunk m child start (sub32 (sub32 (shtringChunkLength m.words child) start) fin)
          some (left, nullPtr, m)
        else do
          let first := shtringNodeChild m.words p i
          let (left, m) ←
            copyChunk m first start (sub32 (shtringChunkLength m.words first) start)
          let len := shtringChunkLength m.words (shtringNodeChild m.words p j)
          -- the text is that of the first chunk here too
          let (right, m) ← copyChunk m first 0 (sub32 len fin)
          some (left, right, m)
      let (unass, m) ← shtringAddChild m q left 1 (shtringTreeLength m.words left)
      let (unass, m) ← addChildrenLoop q p (j - (i + 1)) m unass (i + 1)
      let (_, m) ←
        if right = nullPtr then some (unass, m)
        else shtringAddChild m q right unass (shtringTreeLength m.words right)
      some (skipSingle m.words h q, m)
    else copyChunk m p start (sub32 (sub32 (shtringChunkLength m.words p) start) fin)

/-! ## catenation -/

/-- `SHTRING_NODE_WORDS_NEEDED`. -/
def shtringNodeWordsNeeded (n : Nat) : Nat := 3 + n

/-- `needed_for_height`. -/
def neededForHeight (words : Nat → Nat) (p h : Nat) : Nat :=
  (h - shtringTreeHeight words p) * shtringNodeWordsNeeded 1

/-- `needed_for_trim`. -/
def neededForTrim (words : Nat → Nat) (p start fin : Nat) : Nat :=
  if p = nullPtr then 0
  else if start = 0 ∧ fin = 0 then 0
  else
    2 * shtringChunkWordsNeeded shtringChunkMax +
      shtringTreeHeight words p * shtringNodeWordsNeeded maxShtringNodeChildren * 2

/-- `shtring_cat_max_allocation`. -/
def shtringCatMaxAllocation (words : Nat → Nat) (shtr1 shtr2 : Nat) : Nat :=
  let h := max (shtringHeight words shtr1) (shtringHeight words shtr2) + 1
  let p1 := shtringChunkTree words shtr1
  let p2 := shtringChunkTree words shtr2
  neededForHeight words p1 h + neededForHeight words p2 h + h * (maxShtringNodeChildren + 1) +
    neededForTrim words p1 (shtringOffset words shtr1) 1 +
    neededForTrim words p2 (shtringOffset words shtr2) 1 + shtringWords

/-- `shtring_cat`. -/
def shtringCat (m : Memory) (shtr1 shtr2 : Nat) : Option (Nat × Memory) :=
  let p1 := shtringChunkTree m.words shtr1
  let p2 := shtringChunkTree m.words shtr2
  if p1 = nullPtr then some (shtr2, m)
  else if p2 = nullPtr then some (shtr1, m)
  else do
    let fin := sub32 (sub32 (shtringTreeLength m.words p1) (shtringOffset m.words shtr1))
      (shtringLength m.words shtr1)
    let (p1, m) ← trimEnds (shtringHeight m.words shtr1) m p1 0 fin
    let (p2, m) ← trimEnds (shtringHeight m.words shtr2) m p2 (shtringOffset m.words shtr2) 0
    let (q, m) ← catTrees m p1 (shtringHeight m.words shtr1) p2 (shtringHeight m.words shtr2)
    shtringNewShtring m (shtringOffset m.words shtr1)
      (add32 (shtringLength m.words shtr1) (shtringLength m.words shtr2))
      (shtringNodeHeight m.words q) q

end Shades
