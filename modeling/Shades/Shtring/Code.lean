import Shades.Memory

/-!
# Shades.Shtring.Code

The reading operations of `shtring.c` and `shtring_internal.c`.  A shtring is
a window on the text in a tree of chunks, which are all at the same level.
The bytes of a chunk are packed into words with the first byte uppermost.

`shtring_monkey` calls a function for every chunk that has text of a window.
It recurs on the levels of the tree; here it takes a bound on the depth, and
the result is `none` if that bound is too small.
-/

namespace Shades

/-! ## fields -/

/-- `SHTRING_OFFSET`. -/
def shtringOffset (words : Nat → Nat) (p : Nat) : Nat := words (p + 1)

/-- `SHTRING_LENGTH`. -/
def shtringLength (words : Nat → Nat) (p : Nat) : Nat := words (p + 2)

/-- `SHTRING_HEIGHT`. -/
def shtringHeight (words : Nat → Nat) (p : Nat) : Nat := words (p + 3)

/-- `SHTRING_CHUNK_TREE`. -/
def shtringChunkTree (words : Nat → Nat) (p : Nat) : Nat := wordToPtr (words (p + 4))

/-- `SHTRING_NODE_CHILDREN`. -/
def shtringNodeChildren (words : Nat → Nat) (p : Nat) : Nat := words p &&& 0xFF

/-- `SHTRING_NODE_LENGTH`. -/
def shtringNodeLength (words : Nat → Nat) (p : Nat) : Nat := words (p + 1)

/-- `SHTRING_NODE_HEIGHT`. -/
def shtringNodeHeight (words : Nat → Nat) (p : Nat) : Nat := words (p + 2)

/-- `SHTRING_NODE_CHILD`; the first child is number `1`. -/
def shtringNodeChild (words : Nat → Nat) (p i : Nat) : Nat := wordToPtr (words (p + 2 + i))

/-- `SHTRING_CHUNK_LENGTH`. -/
def shtringChunkLength (words : Nat → Nat) (p : Nat) : Nat := words p &&& 0xFFFFFF

/-- `MAX_SHTRING_NODE_CHILDREN`. -/
def maxShtringNodeChildren : Nat := 8

/-- `SHTRING_CHUNK_MAX`. -/
def shtringChunkMax : Nat := 32

/-- `SHTRING_WORDS`. -/
def shtringWords : Nat := 5

/-- `SHTRING_CHUNK_WORDS_NEEDED`. -/
def shtringChunkWordsNeeded (n : Nat) : Nat := 1 + (n + 4 - 1) / 4

/-- Whether the cell at `p` is of type `CELL_shtring_node`. -/
def isShtringNode (words : Nat → Nat) (p : Nat) : Bool :=
  cellType (words p) == CellType.shtringNode.code

/-! ## walking over the chunks -/

/-- `shtring_monkey_order_t`. -/
inductive MonkeyOrder where
  | leftToRight
  | rightToLeft
  deriving DecidableEq, Repr

/-- The loop over the children of a node; it stops when a call returns
`-1`. -/
def monkeyChildren {α : Type} (visit : Nat → Nat → α → Option (Int × Nat × α)) :
    List Nat → Int → Nat → α → Option (Int × Nat × α)
  | [], ret, pos, arg => some (ret, pos, arg)
  | child :: children, ret, pos, arg =>
    if ret = -1 then some (ret, pos, arg)
    else
      (visit child pos arg).bind fun (ret, pos, arg) =>
        monkeyChildren visit children ret pos arg

/-- The branch of `shtring_monkey` for a chunk. -/
def monkeyChunk {α : Type} (words : Nat → Nat) (f : Nat → Nat → Nat → Nat → α → Int × α)
    (order : MonkeyOrder) (start len root pos : Nat) (arg : α) : Int × Nat × α :=
  let chunkLen := shtringChunkLength words root
  let pos := if order = .rightToLeft then sub32 pos chunkLen else pos
  let (ret, arg) :=
    if pos < add32 start len ∧ start < add32 pos chunkLen then
      let offInChunk := if start ≤ pos then 0 else sub32 start pos
      let offInTree := if start ≤ pos then sub32 pos start else 0
      let interestingLen :=
        if add32 pos chunkLen ≤ add32 start len then sub32 chunkLen offInChunk
        else sub32 (add32 start len) (add32 pos offInChunk)
      f root offInChunk offInTree interestingLen arg
    else (0, arg)
  (ret, if order = .leftToRight then add32 pos chunkLen else pos, arg)

/-- The length of the text below a node or of a chunk (`shtring_tree_length`). -/
def shtringTreeLength (words : Nat → Nat) (p : Nat) : Nat :=
  if p = nullPtr then 0
  else if isShtringNode words p then shtringNodeLength words p
  else shtringChunkLength words p

/-- `SHTRING_MONKEY_START_POS`. -/
def shtringMonkeyStartPos : Nat := 2 ^ 32 - 1

/-- `shtring_monkey`: call `f` for each chunk that has text of the window, with
the offset of that text in the chunk and in the window and its length. -/
def shtringMonkey {α : Type} (words : Nat → Nat) (f : Nat → Nat → Nat → Nat → α → Int × α)
    (order : MonkeyOrder) (start len : Nat) : Nat → Nat → Nat → α → Option (Int × Nat × α)
  | 0, _, _, _ => none
  | depth + 1, root, pos, arg =>
    if root = nullPtr then some (0, pos, arg)
    else
      let pos :=
        if pos = shtringMonkeyStartPos then
          match order with
          | .leftToRight => 0
          | .rightToLeft => shtringTreeLength words root
        else pos
      if isShtringNode words root then
        let rootLen := shtringNodeLength words root
        let children := (List.range (shtringNodeChildren words root)).map fun i =>
          shtringNodeChild words root (i + 1)
        match order with
        | .leftToRight =>
          if add32 start len ≤ pos ∨ add32 pos rootLen ≤ start then
            some (0, add32 pos rootLen, arg)
          else
            monkeyChildren (shtringMonkey words f order start len depth) children 0 pos arg
        | .rightToLeft => do
          assert (rootLen ≤ pos)
          if add32 start len ≤ sub32 pos rootLen ∨ pos ≤ start then
            some (0, sub32 pos rootLen, arg)
          else
            monkeyChildren (shtringMonkey words f order start len depth) children.reverse 0 pos
              arg
      else some (monkeyChunk words f order start len root pos arg)

/-! ## copying text -/

/-- A byte of a word, the uppermost one first. -/
def wordByte (w i : Nat) : Nat := (w >>> (8 * (3 - i))) &&& 0xFF

/-- The last loop of `copy_chunk_to_cstr`: the upper bytes of a word. -/
def copyUpper : Nat → Nat → List Nat
  | 0, _ => []
  | n + 1, w => ((w >>> 24) &&& 0xFF) :: copyUpper n (lshift32 w 8)

/-- The loop of `copy_chunk_to_cstr` over whole words. -/
def copyWords (words : Nat → Nat) : Nat → Nat → List Nat
  | 0, _ => []
  | n + 1, p =>
    [wordByte (words p) 0, wordByte (words p) 1, wordByte (words p) 2, wordByte (words p) 3] ++
      copyWords words n (p + 1)

/-- `copy_chunk_to_cstr`, with the bytes it writes as its result.  The switch
on the offset copies the rest of the first word, or as much as is asked for. -/
def copyChunkToCstr (words : Nat → Nat) (p start len : Nat) : List Nat :=
  let i := p + 1 + start / 4
  let off := start % 4
  let first := if 0 < off then
    (((List.range 4).map (wordByte (words i))).drop off).take len else []
  let i := if 0 < off then i + 1 else i
  let len := len - first.length
  first ++ copyWords words (len / 4) i ++ copyUpper (len % 4) (words (i + len / 4))

/-- `collect_string`: append the text of a chunk to the buffer. -/
def collectString (words : Nat → Nat) (chunk offInChunk _offInTree len : Nat)
    (buf : List Nat) : Int × List Nat :=
  (0, buf ++ copyChunkToCstr words chunk offInChunk len)

/-- `shtring_strat`: the bytes copied to the buffer, which are asserted to be as
many as were asked for. -/
def shtringStrat (words : Nat → Nat) (shtr pos len : Nat) : Option (List Nat) := do
  let (_, _, buf) ← shtringMonkey words (collectString words) .leftToRight
    (add32 (shtringOffset words shtr) pos) len (shtringHeight words shtr + 1)
    (shtringChunkTree words shtr) shtringMonkeyStartPos []
  assert (buf.length = len)
  some buf

/-! ## comparing -/

/-- `CMP_BUF`. -/
def cmpBuf : Nat := 10240

/-- The loop of `shtring_cmp_without_allocating` over the common length, with
what follows it. -/
def cmpLoop (words : Nat → Nat) (shtr1 shtr2 len : Nat) : Nat → Nat → Nat → Option CmpResult
  | 0, _, _ => none
  | fuel + 1, n, pos =>
    if pos < len then
      let n := if len < add32 pos cmpBuf then sub32 len pos else n
      (shtringStrat words shtr1 pos n).bind fun buf1 =>
        (shtringStrat words shtr2 pos n).bind fun buf2 =>
          if buf1 < buf2 then some .less
          else if buf2 < buf1 then some .greater
          else cmpLoop words shtr1 shtr2 len fuel n (add32 pos n)
    else if shtringLength words shtr1 < shtringLength words shtr2 then some .less
    else if shtringLength words shtr2 < shtringLength words shtr1 then some .greater
    else some .equal

/-- `shtring_cmp_without_allocating`. -/
def shtringCmpWithoutAllocating (words : Nat → Nat) (shtr1 shtr2 : Nat) : Option CmpResult :=
  let len1 := shtringLength words shtr1
  let len2 := shtringLength words shtr2
  let len := if len1 < len2 then len1 else len2
  cmpLoop words shtr1 shtr2 len (len / cmpBuf + 2) cmpBuf 0

/-! ## hashing -/

/-- Add a character to the hash. -/
def hashByte (h c : Nat) : Nat := add32 (add32 (add32 (lshift32 h 5) h) (h >>> 3)) c

/-- Add the upper bytes of a word to the hash. -/
def hashUpper : Nat → Nat → Nat → Nat
  | 0, _, h => h
  | n + 1, w, h => hashUpper n (lshift32 w 8) (hashByte h ((w &&& 0xFF000000) >>> 24))

/-- The loop of `hash_chunk` over whole words. -/
def hashWords (words : Nat → Nat) : Nat → Nat → Nat → Nat
  | 0, _, h => h
  | n + 1, p, h => hashWords words n (p + 1) (hashUpper 4 (words p) h)

/-- `hash_chunk`: when the text starts inside a word, the rest of that word is
hashed and `off_in_chunk` is taken off the length. -/
def hashChunk (words : Nat → Nat) (chunk offInChunk _offInTree len : Nat) (h : Nat) : Int × Nat :=
  let p := chunk + 1 + offInChunk / 4
  let off := offInChunk % 4
  let h := if 0 < off then hashUpper (4 - off) (lshift32 (words p) (8 * off)) h else h
  let p := if 0 < off then p + 1 else p
  let len := if 0 < off then sub32 len off else len
  let h := hashWords words (len / 4) p h
  (0, hashUpper (len % 4) (words (p + len / 4)) h)

/-- `SHTRING_HASH_START_VALUE`. -/
def shtringHashStartValue : Nat := 5381

/-- `shtring_hash`. -/
def shtringHash (words : Nat → Nat) (shtr : Nat) : Option Nat :=
  (shtringMonkey words (hashChunk words) .leftToRight (shtringOffset words shtr)
    (shtringLength words shtr) (shtringHeight words shtr + 1) (shtringChunkTree words shtr)
    shtringMonkeyStartPos shtringHashStartValue).map fun (_, _, h) => h

end Shades
