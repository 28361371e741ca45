import Shades.Shtring.CreateCode

/-!
# Shades.Shtring.WindowCode

The operations that give another window on a chunk tree (`shtring_copy`,
`shtring_trim_leading` and `shtring_trim_trailing`), and `shtring_fprint`.  The
result of an operation is `none` if one of its assertions fails or if it reads
past the children of a node.
-/

namespace Shades

/-! ## the subtree of a window -/

/-- The inner loop of `minimal_subtree`, where the node has `n` children from the
`i`th on: the number of the child with the start, the child, its length, and the
start in it. -/
def minimalChild (words : Nat → Nat) (length : (Nat → Nat) → Nat → Nat) (p : Nat) :
    Nat → Nat → Nat → Option (Nat × Nat × Nat × Nat)
  | 0, _, _ => none
  | n + 1, i, start =>
    let child := shtringNodeChild words p i
    let childLen := length words child
    if start < childLen then some (i, child, childLen, start)
    else minimalChild words length p n (i + 1) (sub32 start childLen)

/-- The outer loop of `minimal_subtree`; the first argument is `h`. -/
def minimalLoop (words : Nat → Nat) (len : Nat) : Nat → Nat → Nat → Option (Nat × Nat)
  | 0, p, start => some (p, start)
  | 1, p, start => some (p, start)
  | h + 2, p, start => do
    let (i, child, childLen, newStart) ← minimalChild words
      (if h + 2 = 2 then shtringChunkLength else shtringNodeLength) p
      (shtringNodeChildren words p) 1 start
    assert (childLen = shtringTreeLength words child)
    if i < shtringNodeChildren words p ∧ childLen < add32 newStart len then some (p, start)
    else do
      assert (h + 1 = shtringTreeHeight words child)
      assert (newStart ≤ shtringTreeLength words child)
      assert (len ≤ shtringTreeLength words child)
      assert (add32 newStart len ≤ shtringTreeLength words child)
      minimalLoop words len (h + 1) child newStart

/-- `minimal_subtree`: the tree and the start in it. -/
def minimalSubtree (words : Nat → Nat) (p start len : Nat) : Option (Nat × Nat) := do
  assert (start ≤ shtringTreeLength words p)
  assert (len ≤ shtringTreeLength words p)
  assert (add32 start len ≤ shtringTreeLength words p)
  minimalLoop words len (shtringTreeHeight words p) p start

/-- `shtring_copy`. -/
def shtringCopy (m : Memory) (shtr start len : Nat) : Option (Nat × Memory) := do
  assert (start ≤ shtringLength m.words shtr)
  assert (len ≤ shtringLength m.words shtr)
  assert (add32 start len ≤ shtringLength m.words shtr)
  let offset := add32 (shtringOffset m.words shtr) start
  let (tree, offset) ← minimalSubtree m.words (shtringChunkTree m.words shtr) offset len
  shtringNewShtring m offset len (shtringTreeHeight m.words tree) tree

/-! ## trimming -/

/-- `isspace`. -/
def isSpace (c : Nat) : Bool := c == 32 || (9 ≤ c && c ≤ 13)

/-- `find_first_non_ws`. -/
def findFirstNonWs (words : Nat → Nat) (chunk offInChunk offInTree len : Nat) (_arg : Nat) :
    Int × Nat :=
  let i := ((copyChunkToCstr words chunk offInChunk len).takeWhile isSpace).length
  (if i < len then -1 else 0, add32 offInTree i)

/-- `shtring_trim_leading`. -/
def shtringTrimLeading (m : Memory) (shtr : Nat) : Option (Nat × Memory) := do
  let root := shtringChunkTree m.words shtr
  let off := shtringOffset m.words shtr
  let len := shtringLength m.words shtr
  let (_, _, firstNonWs) ← shtringMonkey m.words (findFirstNonWs m.words) .leftToRight off len
    (shtringHeight m.words shtr + 1) root shtringMonkeyStartPos 0
  if firstNonWs = 0 then some (shtr, m)
  else do
    let len := sub32 len firstNonWs
    let (root, start) ← minimalSubtree m.words root (add32 off firstNonWs) len
    shtringNewShtring m start len (shtringTreeHeight m.words root) root

/-- `find_last_non_ws`. -/
def findLastNonWs (words : Nat → Nat) (chunk offInChunk offInTree len : Nat) (arg : Nat) :
    Int × Nat :=
  if len = 0 then (0, arg)
  else
    let i := ((copyChunkToCstr words chunk offInChunk len).takeWhile isSpace).length
    if i = len then (0, arg) else (-1, add32 offInTree i)

/-- `(word_t) -1`. -/
def noNonWs : Nat := 2 ^ 32 - 1

/-- `shtring_trim_trailing`. -/
def shtringTrimTrailing (m : Memory) (shtr : Nat) : Option (Nat × Memory) := do
  let root := shtringChunkTree m.words shtr
  let off := shtringOffset m.words shtr
  let len := shtringLength m.words shtr
  let (_, _, lastNonWs) ← shtringMonkey m.words (findLastNonWs m.words) .rightToLeft off len
    (shtringHeight m.words shtr + 1) root shtringMonkeyStartPos noNonWs
  if lastNonWs = noNonWs then shtringNewShtring m 0 0 0 nullPtr
  else if add32 lastNonWs 1 = len then some (shtr, m)
  else do
    let len := add32 lastNonWs 1
    let (root, start) ← minimalSubtree m.words root 0 len
    shtringNewShtring m start len (shtringTreeHeight m.words root) root

/-! ## printing -/

/-- The loop of `fprint_chunk`, with the bytes it writes as its result. -/
def fprintLoop (words : Nat → Nat) (chunk offInChunk len : Nat) : List Nat :=
  if 0 < len then
    let n := if shtringChunkMax < len then shtringChunkMax else len
    copyChunkToCstr words chunk offInChunk n ++ fprintLoop words chunk offInChunk (len - n)
  else []
termination_by len
decreasing_by
  unfold shtringChunkMax
  by_cases hbig : 32 < len <;> simp [hbig] <;> omega

/-- `fprint_chunk`: append what is written to the file. -/
def fprintChunk (words : Nat → Nat) (chunk offInChunk _offInTree len : Nat) (file : List Nat) :
    Int × List Nat :=
  (0, file ++ fprintLoop words chunk offInChunk len)

/-- `shtring_fprint`: the bytes written to the file. -/
def shtringFprint (words : Nat → Nat) (shtr : Nat) : Option (List Nat) :=
  (shtringMonkey words (fprintChunk words) .leftToRight 0 (shtringLength words shtr)
    (shtringHeight words shtr + 1) (shtringChunkTree words shtr) shtringMonkeyStartPos
    []).map fun (_, _, file) => file

end Shades
