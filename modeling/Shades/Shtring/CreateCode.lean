import Shades.Shtring.CatCode

/-!
# Shades.Shtring.CreateCode

`shtring_create`, which makes a shtring of an array of bytes, and
`shtring_charat`.  The array is given as the list of the bytes that have not
been converted yet, which stands for both `*cstr` and `*len`.

Words have the lowest byte first in the memory of the machine, so an aligned
array is read word by word and the bytes of the words are swapped.

`SHTRING_CHUNK_MAX` can be configured, so the functions that depend on it have it as
an argument, and those with the names of the source are for the value that it has
without a configuration.
-/

namespace Shades

/-! ## packing bytes -/

/-- `SWAP_BYTES`. -/
def swapBytes (x : Nat) : Nat :=
  let m := 0xFF00FF
  let x := lshift32 (x &&& m) 8 ||| ((x >>> 8) &&& m)
  lshift32 x 16 ||| (x >>> 16)

/-- `SWAP_BYTES(*wstr)` for the four bytes at `wstr`. -/
def readSwapped (b₀ b₁ b₂ b₃ : Nat) : Nat :=
  swapBytes (((b₃ <<< 24 ||| b₂ <<< 16) ||| b₁ <<< 8) ||| b₀)

/-- Four bytes put together. -/
def packWord (b₀ b₁ b₂ b₃ : Nat) : Nat :=
  ((b₀ <<< 24 ||| b₁ <<< 16) ||| b₂ <<< 8) ||| b₃

/-- The words that `build_chunk` fills a chunk with: four bytes each, and the
bytes that are left over.  There are at most eight whole words, so the unrolled
loop is never entered. -/
@[simp] def packBytes (word : Nat → Nat → Nat → Nat → Nat) : List Nat → List Nat
  | [] => []
  | [b₀] => [b₀ <<< 24]
  | [b₀, b₁] => [b₀ <<< 24 ||| b₁ <<< 16]
  | [b₀, b₁, b₂] => [(b₀ <<< 24 ||| b₁ <<< 16) ||| b₂ <<< 8]
  | b₀ :: b₁ :: b₂ :: b₃ :: bytes => word b₀ b₁ b₂ b₃ :: packBytes word bytes

/-- `build_chunk`; `aligned` is the value of `IS_ALIGNED`. -/
def buildChunkOf (chunkMax : Nat) (aligned : Bool) (m : Memory) (cstr : List Nat) :
    Option (Nat × List Nat × Memory) := do
  assert (0 < cstr.length)
  let n := if chunkMax < cstr.length then chunkMax else cstr.length
  let (p, m) ← shtringNewChunk m n
  let word := if 4 ≤ n ∧ aligned then readSwapped else packWord
  some (p, cstr.drop n, fillCell p 1 (packBytes word (cstr.take n)) m)

def buildChunk (aligned : Bool) (m : Memory) (cstr : List Nat) :
    Option (Nat × List Nat × Memory) :=
  buildChunkOf shtringChunkMax aligned m cstr

/-! ## building a tree -/

/-- The loop of `build_tree` that builds at most `n` children. -/
@[simp] def buildKids (build : Memory → List Nat → Option (Nat × List Nat × Memory)) :
    Nat → Memory → List Nat → Option (List Nat × List Nat × Memory)
  | 0, m, cstr => some ([], cstr, m)
  | n + 1, m, cstr =>
    if 0 < cstr.length then do
      let (kid, cstr, m) ← build m cstr
      let (tab, cstr, m) ← buildKids build n m cstr
      some (kid :: tab, cstr, m)
    else some ([], cstr, m)

/-- The loops of `build_tree` that add the children to the node `p`. -/
@[simp] def addTab (length : (Nat → Nat) → Nat → Nat) (p : Nat) :
    List Nat → Memory → Nat → Option (Nat × Memory)
  | [], m, unass => some (unass, m)
  | kid :: tab, m, unass => do
    let (unass, m) ← shtringAddChild m p kid unass (length m.words kid)
    addTab length p tab m unass

/-- `build_tree`. -/
def buildTreeOf (chunkMax : Nat) (aligned : Bool) :
    Nat → Memory → List Nat → Option (Nat × List Nat × Memory)
  | 0, m, cstr => do
    assert (cstr.length = 0)
    some (nullPtr, cstr, m)
  | 1, m, cstr => buildChunkOf chunkMax aligned m cstr
  | h + 2, m, cstr => do
    let (tab, cstr, m) ←
      buildKids (buildTreeOf chunkMax aligned (h + 1)) maxShtringNodeChildren m cstr
    let (p, m) ← shtringNewNode m tab.length (h + 2)
    let (_, m) ← addTab (if h + 2 = 2 then shtringChunkLength else shtringNodeLength) p tab m 1
    some (p, cstr, m)

def buildTree (aligned : Bool) (h : Nat) (m : Memory) (cstr : List Nat) :
    Option (Nat × List Nat × Memory) :=
  buildTreeOf shtringChunkMax aligned h m cstr

/-! ## creating a shtring -/

/-- `shtring_idiv`. -/
def shtringIdiv (a b : Nat) : Nat := sub32 (add32 a b) 1 / b

theorem shtringIdiv_lt {i : Nat} (hi : 1 < i) : shtringIdiv i maxShtringNodeChildren < i := by
  unfold shtringIdiv sub32 add32 maxShtringNodeChildren
  omega

/-- The loop of `shtring_tree_size`, with the height and the words. -/
def treeSizeLoop (i height words : Nat) : Nat × Nat :=
  if h : 1 < i then
    let n := shtringIdiv i maxShtringNodeChildren
    treeSizeLoop n (add32 height 1) (add32 words (add32 i (n * 3)))
  else (height, words)
termination_by i
decreasing_by exact shtringIdiv_lt h

/-- `shtring_tree_size`: the height and the words; a word has four bytes. -/
def shtringTreeSizeOf (chunkMax len : Nat) : Nat × Nat :=
  let chunks := shtringIdiv len chunkMax
  let words := add32 (shtringIdiv len 4) chunks
  let height := if 0 < chunks then 1 else 0
  let size := treeSizeLoop chunks height words
  (size.1, add32 size.2 shtringWords)

def shtringTreeSize (len : Nat) : Nat × Nat := shtringTreeSizeOf shtringChunkMax len

/-- `shtring_create_max_allocation`. -/
def shtringCreateMaxAllocationOf (chunkMax len : Nat) : Nat := (shtringTreeSizeOf chunkMax len).2

def shtringCreateMaxAllocation (len : Nat) : Nat :=
  shtringCreateMaxAllocationOf shtringChunkMax len

/-- `shtring_create`.  The shtring is `none` if the array is too long for the
first generation. -/
def shtringCreateOf (chunkMax firstGenerationSize : Nat) (aligned : Bool) (m : Memory)
    (cstr : List Nat) : Option (Option Nat × Memory) :=
  if firstGenerationSize / 2 < cstr.length then some (none, m)
  else do
    let len := cstr.length
    let height := (shtringTreeSizeOf chunkMax len).1
    let (root, _, m) ← buildTreeOf chunkMax aligned height m cstr
    let (shtr, m) ← shtringNewShtring m 0 len height root
    some (some shtr, m)

def shtringCreate (firstGenerationSize : Nat) (aligned : Bool) (m : Memory) (cstr : List Nat) :
    Option (Option Nat × Memory) :=
  shtringCreateOf shtringChunkMax firstGenerationSize aligned m cstr

/-! ## reading a character -/

/-- The inner loop of `find_chunk`: the child `i` of a node with the position,
where the node has `n` children from the `i`th on. -/
@[simp] def findChild (words : Nat → Nat) (length : (Nat → Nat) → Nat → Nat) (root pos : Nat) :
    Nat → Nat → Nat → Option (Nat × Nat)
  | 0, _, _ => none
  | n + 1, i, start =>
    let q := shtringNodeChild words root i
    let len := length words q
    if pos < add32 start len then some (q, start)
    else findChild words length root pos n (i + 1) (add32 start len)

/-- The outer loop of `find_chunk`; the first argument is `h`. -/
@[simp] def findChunkLoop (words : Nat → Nat) (pos : Nat) : Nat → Nat → Nat → Option (Nat × Nat)
  | 0, root, start => some (root, start)
  | 1, root, start => some (root, start)
  | h + 2, root, start => do
    let (q, start) ← findChild words
      (if h + 2 = 2 then shtringChunkLength else shtringNodeLength) root pos
      (shtringNodeChildren words root) 1 start
    assert (h + 1 = shtringTreeHeight words q)
    findChunkLoop words pos (h + 1) q start

/-- `find_chunk`: the chunk and where it starts. -/
def findChunk (words : Nat → Nat) (root pos : Nat) : Option (Nat × Nat) := do
  assert (pos < shtringTreeLength words root)
  let (chunk, start) ← findChunkLoop words pos (shtringTreeHeight words root) root 0
  assert (cellType (words chunk) = CellType.shtringChunk.code)
  some (chunk, start)

/-- A `char` as an `int`, where `char` may be a signed type. -/
def intOfChar (signed : Bool) (b : Nat) : Int := if signed ∧ 128 ≤ b then b - 256 else b

/-- `shtring_charat`, with the assertions of `copy_chunk_to_cstr`. -/
def shtringCharat (signed : Bool) (words : Nat → Nat) (shtr pos : Nat) : Option Int := do
  assert (pos < shtringLength words shtr)
  let pos := add32 pos (shtringOffset words shtr)
  let (p, start) ← findChunk words (shtringChunkTree words shtr) pos
  assert (sub32 pos start + 1 ≤ shtringChunkLength words p)
  some (intOfChar signed ((copyChunkToCstr words p (sub32 pos start) 1).headD 0))

end Shades
