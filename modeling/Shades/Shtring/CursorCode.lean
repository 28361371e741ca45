import Shades.Shtring.CreateCode

/-!
# Shades.Shtring.CursorCode

The cursors of `shtring_cursor.c`.  The stack of a cursor has the path to its
chunk, with the chunk first and the root last.  No other cell points to it, so it
is a list here, and an operation that changes it in place gives the new list.

A result is `none` if an assertion fails, and `some none` where the code gives
`NULL_PTR` or `-1`.
-/

namespace Shades

/-! ## cursors -/

/-- A node of the stack. -/
structure StackNode where
  childNumber : Nat
  node : Nat
  deriving DecidableEq, Repr

/-- `CELL_shtring_cursor`. -/
structure Cursor where
  shtring : Nat
  posOfChunk : Nat
  offsetIntoChunk : Nat
  stack : List StackNode
  deriving DecidableEq, Repr

/-- `STACK_NODE` of the top of the stack. -/
def stackNode : List StackNode → Nat
  | [] => nullPtr
  | top :: _ => top.node

/-- `SHTRING_CURSOR_CHUNK`. -/
def Cursor.chunk (cur : Cursor) : Nat := stackNode cur.stack

/-- The child with the number that the top of the stack has. -/
def stackChild (words : Nat → Nat) : List StackNode → Nat
  | [] => nullPtr
  | top :: _ => shtringNodeChild words top.node top.childNumber

/-- Whether the cell at `p` is of type `CELL_shtring_chunk`. -/
def isShtringChunk (words : Nat → Nat) (p : Nat) : Bool :=
  cellType (words p) == CellType.shtringChunk.code

/-! ## creation -/

/-- The inner loop of `shtring_cursor_create`, with `n` more rounds: the number of
the child, and the lengths before it added up. -/
def cursorChild (words : Nat → Nat) (p shtringOffset : Nat) : Nat → Nat → Nat → Nat × Nat
  | 0, child, offsetToChunk => (child, offsetToChunk)
  | n + 1, child, offsetToChunk =>
    let childLength := shtringNodeLength words (shtringNodeChild words p child)
    if shtringOffset < add32 offsetToChunk childLength then (child, offsetToChunk)
    else cursorChild words p shtringOffset n (child + 1) (add32 offsetToChunk childLength)

/-- The outer loop of `shtring_cursor_create`; the first argument is `i`. -/
def cursorStack (words : Nat → Nat) (shtringOffset : Nat) :
    Nat → Nat → Nat → List StackNode → Option (Nat × Nat × List StackNode)
  | 0, _, _, _ => none
  | 1, p, offsetToChunk, stack => some (p, offsetToChunk, stack)
  | i + 2, p, offsetToChunk, stack => do
    assert (isShtringNode words p)
    let (child, offsetToChunk) := cursorChild words p shtringOffset
      (shtringNodeChildren words p - 1) 1 offsetToChunk
    cursorStack words shtringOffset (i + 1) (shtringNodeChild words p child) offsetToChunk
      (⟨child, p⟩ :: stack)

/-- `shtring_cursor_create`. -/
def shtringCursorCreate (words : Nat → Nat) (shtr : Nat) : Option (Option Cursor) :=
  if shtringLength words shtr = 0 then some none
  else do
    let root := shtringChunkTree words shtr
    let offset := shtringOffset words shtr
    let (p, offsetToChunk, stack) ← cursorStack words offset (shtringTreeHeight words root) root 0 []
    some (some ⟨shtr, offsetToChunk, sub32 offset offsetToChunk, ⟨0, p⟩ :: stack⟩)

/-- `shtring_cursor_get_position`. -/
def shtringCursorGetPosition (words : Nat → Nat) (cur : Cursor) : Nat :=
  sub32 (add32 cur.posOfChunk cur.offsetIntoChunk) (shtringOffset words cur.shtring)

/-! ## moving -/

/-- `move_to_next_chunk_in_place`. -/
def moveToNextChunk (words : Nat → Nat) : List StackNode → Option (Option (List StackNode))
  | [] => some none
  | top :: down => do
    assert (isShtringNode words top.node ∨ isShtringChunk words top.node)
    if isShtringChunk words top.node then do
      let moved ← moveToNextChunk words down
      some (moved.map fun down => ⟨top.childNumber, stackChild words down⟩ :: down)
    else if top.childNumber < shtringNodeChildren words top.node then
      some (some (⟨top.childNumber + 1, top.node⟩ :: down))
    else do
      let moved ← moveToNextChunk words down
      some (moved.map fun down => ⟨1, stackChild words down⟩ :: down)

/-- The loop of `move_forward_in_place`, with a bound on its rounds: where the chunk
starts, and the stack. -/
def moveForwardLoop (words : Nat → Nat) (desiredPos : Nat) :
    Nat → List StackNode → Nat → Option (Option (Nat × List StackNode))
  | 0, _, _ => none
  | rounds + 1, stack, posOfChunk => do
    let chunk := stackNode stack
    let chunkLength := shtringChunkLength words chunk
    assert (posOfChunk ≤ desiredPos)
    if desiredPos < add32 posOfChunk chunkLength then some (some (posOfChunk, stack))
    else do
      let moved ← moveToNextChunk words stack
      match moved with
      | none => some none
      | some stack => do
        assert (chunk ≠ stackNode stack)
        moveForwardLoop words desiredPos rounds stack (add32 posOfChunk chunkLength)

/-- `move_forward_in_place`.  Every round takes at least one character of the
tree. -/
def moveForwardInPlace (words : Nat → Nat) (cur : Cursor) (nchars : Nat) :
    Option (Option Cursor) := do
  assert (cur.stack ≠ [])
  let desiredPos := add32 (add32 cur.posOfChunk cur.offsetIntoChunk) nchars
  if add32 (shtringOffset words cur.shtring) (shtringLength words cur.shtring) ≤ desiredPos then
    some none
  else do
    let moved ← moveForwardLoop words desiredPos
      (shtringTreeLength words (shtringChunkTree words cur.shtring) + 1) cur.stack cur.posOfChunk
    some (moved.map fun (posOfChunk, stack) =>
      { cur with
        posOfChunk := posOfChunk
        offsetIntoChunk := sub32 desiredPos posOfChunk
        stack := stack })

/-! ## comparing -/

/-- `new_stack_node`. -/
def newStackNode (words : Nat → Nat) (childno node : Nat) (stack : List StackNode) :
    Option (List StackNode) := do
  assert (isShtringNode words node ∨ isShtringChunk words node)
  if isShtringNode words node then do
    assert (1 ≤ childno)
    assert (childno ≤ shtringNodeChildren words node)
    some (⟨childno, node⟩ :: stack)
  else do
    assert (childno = 1)
    some (⟨childno, node⟩ :: stack)

/-- `copy_stack`. -/
def copyStack (words : Nat → Nat) : List StackNode → Option (List StackNode)
  | [] => some []
  | top :: down => do
    let below ← copyStack words down
    if isShtringChunk words top.node then newStackNode words 1 top.node below
    else newStackNode words top.childNumber top.node below

/-- `copy_cursor`. -/
def copyCursor (words : Nat → Nat) (cur : Cursor) : Option Cursor := do
  let stack ← copyStack words cur.stack
  some { cur with stack := stack }

/-- `shtring_cursor_get_chunk`: the chunk, the offset into it and its useful
length. -/
def shtringCursorGetChunk (words : Nat → Nat) (cur : Cursor) : Option (Nat × Nat × Nat) := do
  let chunk := cur.chunk
  let offset := cur.offsetIntoChunk
  let chunkLength := shtringChunkLength words chunk
  let shtringEnd := add32 (shtringOffset words cur.shtring) (shtringLength words cur.shtring)
  if add32 cur.posOfChunk chunkLength ≤ shtringEnd then
    some (chunk, offset, sub32 chunkLength offset)
  else do
    assert (add32 cur.posOfChunk offset ≤ shtringEnd)
    some (chunk, offset, sub32 shtringEnd (add32 cur.posOfChunk offset))

/-- The array `mask`. -/
def byteMask : Nat → Nat
  | 0 => 0
  | 1 => 0xFF000000
  | 2 => 0xFFFF0000
  | _ => 0xFFFFFF00

/-- `BYTEAT`. -/
def byteAt (words : Nat → Nat) (chunk off : Nat) : Nat :=
  words (chunk + 1 + off / 4) &&& byteMask (off % 4)

/-- The loop of `shtring_cmp_piecemeal` from `i` on, where `n` more rounds may
follow: the values of `w1` and `w2` in the end. -/
def cmpBytes (words : Nat → Nat) (chunk1 off1 chunk2 off2 : Nat) : Nat → Nat → Nat × Nat
  | 0, i => (byteAt words chunk1 (add32 off1 i), byteAt words chunk2 (add32 off2 i))
  | n + 1, i =>
    let w1 := byteAt words chunk1 (add32 off1 i)
    let w2 := byteAt words chunk2 (add32 off2 i)
    if w1 = w2 then cmpBytes words chunk1 off1 chunk2 off2 n (i + 1) else (w1, w2)

/-- The end of `shtring_cmp_piecemeal`: the result, where the cursors after the
move may be `NULL_PTR`. -/
def piecemealResult (w1 w2 : Nat) (cur1 cur2 : Option Cursor) : CmpResult :=
  if w1 < w2 ∨ (w1 = w2 ∧ cur1.isNone ∧ cur2.isSome) then .less
  else if w2 < w1 ∨ (w1 = w2 ∧ cur1.isSome ∧ cur2.isNone) then .greater
  else if cur1.isNone ∧ cur2.isNone then .equal
  else .pleaseContinue

/-- `shtring_cmp_piecemeal`: the result and the new cursors. -/
def shtringCmpPiecemeal (words : Nat → Nat) (cur1 cur2 : Option Cursor) (maxchars : Nat) :
    Option (CmpResult × Option Cursor × Option Cursor) :=
  match cur1, cur2 with
  | none, none => some (.equal, none, none)
  | none, some cur2 => do
    let cur2 ← copyCursor words cur2
    some (.less, none, some cur2)
  | some cur1, none => do
    let cur1 ← copyCursor words cur1
    some (.greater, some cur1, none)
  | some cur1, some cur2 => do
    let cur1 ← copyCursor words cur1
    let cur2 ← copyCursor words cur2
    let (chunk1, off1, len1) ← shtringCursorGetChunk words cur1
    let (chunk2, off2, len2) ← shtringCursorGetChunk words cur2
    let len := if len1 < len2 then len1 else len2
    let len := if maxchars < len then maxchars else len
    let (w1, w2) := cmpBytes words chunk1 off1 chunk2 off2 len 0
    let cur1 ← moveForwardInPlace words cur1 len
    let cur2 ← moveForwardInPlace words cur2 len
    some (piecemealResult w1 w2 cur1 cur2, cur1, cur2)

end Shades
