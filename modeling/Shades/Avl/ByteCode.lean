import Shades.Avl.Code

/-!
# Shades.Avl.ByteCode

The operations of `avl.c` for byte code.  The comparisons are done beforehand
and recorded in a history, a list of cells with the words

* `0`: the type and, in the lowest 4 bits, the way that was taken: `2` for left,
  `3` for right and `0` if the key is that of the leaf,
* `1`: the node,
* `2`: the history before that, `NULL_PTR` at the root.

A loop over a history is given the number of cells that it may follow.
-/

namespace Shades

/-- `AVL_BC_DELVE_MAX_ALLOCATION`. -/
def avlBcDelveMaxAllocation : Nat := 3

/-- A node and the way that is taken from it are put into the history. -/
def avlBcDelve (way : Nat) (m : Memory) (history node : Nat) : Nat × Memory :=
  let (newHistory, m) := m.allocate 3 .history
  let m := m.set (newHistory + 1) (ptrToWord node)
  let m := m.set newHistory (m.words newHistory ||| way)
  (newHistory, m.set (newHistory + 2) (ptrToWord history))

/-- `avl_bc_delve_left`. -/
def avlBcDelveLeft : Memory → Nat → Nat → Nat × Memory := avlBcDelve 2

/-- `avl_bc_delve_right`. -/
def avlBcDelveRight : Memory → Nat → Nat → Nat × Memory := avlBcDelve 3

/-- `avl_bc_delve_equal`. -/
def avlBcDelveEqual : Memory → Nat → Nat → Nat × Memory := avlBcDelve 0

/-! ## building histories -/

/-- Where the search for a leaf has ended. -/
inductive AvlSearch where
  | leaf (p history : Nat)
  | error

/-- The loop of `build_history_for_insert` and `build_history_for_delete`. -/
def buildHistoryLoop (cmp : CmpFun) (key : Nat) : Nat → Memory → Nat → Nat →
    Option (AvlSearch × Memory)
  | n, m, history, p =>
    if isInternalNode m.words p then
      match n with
      | 0 => none
      | n + 1 =>
        match cmp key (wordToPtr (m.words (p + 1))) with
        | .error => some (.error, m)
        | .less | .equal =>
          let (history, m) := avlBcDelveLeft m history p
          buildHistoryLoop cmp key n m history (wordToPtr (m.words (p + 2)))
        | _ =>
          let (history, m) := avlBcDelveRight m history p
          buildHistoryLoop cmp key n m history (wordToPtr (m.words (p + 3)))
    else do
      assert (cellType (m.words p) = CellType.avlLeaf.code)
      some (.leaf p history, m)

/-- `build_history_for_insert`, with `*result` as a second result that is
`true` if it was left alone. -/
def buildHistoryForInsert (n : Nat) (m : Memory) (root key : Nat) (cmp : CmpFun) :
    Option (Nat × Bool × Memory) :=
  if root = nullPtr then some (nullPtr, true, m)
  else do
    let (d, m) ← buildHistoryLoop cmp key n m nullPtr root
    match d with
    | .error => some (nullPtr, false, m)
    | .leaf p history =>
      match cmp key (wordToPtr (m.words (p + 1))) with
      | .error => some (nullPtr, false, m)
      | .equal =>
        let (history, m) := avlBcDelveEqual m history p
        some (history, true, m)
      | .less =>
        let (history, m) := avlBcDelveLeft m history p
        some (history, true, m)
      | _ =>
        let (history, m) := avlBcDelveRight m history p
        some (history, true, m)

/-- `build_history_for_delete`. -/
def buildHistoryForDelete (n : Nat) (m : Memory) (root key : Nat) (cmp : CmpFun) :
    Option (Nat × Bool × Memory) :=
  if root = nullPtr then some (nullPtr, true, m)
  else do
    let (d, m) ← buildHistoryLoop cmp key n m nullPtr root
    match d with
    | .error => some (nullPtr, false, m)
    | .leaf p history =>
      if cmp key (wordToPtr (m.words (p + 1))) ≠ .equal then some (nullPtr, false, m)
      else some (history, true, m)

/-! ## replaying histories -/

/-- A copy of the node `p` of the history with the new son `newPath` at
`ix`. -/
def newPathItem (m : Memory) (p ix newPath : Nat) : Nat × Memory :=
  let (item, m) := m.allocate 4 .avlInternal
  let m := m.set (item + 1) (m.words (p + 1))
  let m := m.set (item + ix) (ptrToWord newPath)
  let m := m.set (item + ((ix + 1) % 2 + 2)) (m.words (p + ((ix + 1) % 2 + 2)))
  (item, m.set item (m.words item ||| sonsHeight m.words item))

/-- The rotations of `avl_bc_insert`. -/
def rotateAfterInsert (m : Memory) (newPath : Nat) : Option (Nat × Memory) :=
  if avlBalance m.words newPath < -1 then
    if avlBalance m.words (wordToPtr (m.words (newPath + 2))) = -1 then simpleRotateRight m newPath
    else if avlBalance m.words (wordToPtr (m.words (newPath + 2))) = 1 then
      doubleRotateRight m newPath
    else some (newPath, m)
  else if avlBalance m.words newPath > 1 then
    if avlBalance m.words (wordToPtr (m.words (newPath + 3))) = 1 then simpleRotateLeft m newPath
    else if avlBalance m.words (wordToPtr (m.words (newPath + 3))) = -1 then
      doubleRotateLeft m newPath
    else some (newPath, m)
  else some (newPath, m)

/-- The loop of `avl_bc_insert`. -/
def avlBcInsertLoop : Nat → Memory → Nat → Nat → Option (Nat × Memory)
  | n, m, history, newPath =>
    if history = nullPtr then some (newPath, m)
    else
      match n with
      | 0 => none
      | n + 1 => do
        let (newPath, m) := newPathItem m (wordToPtr (m.words (history + 1)))
          (m.words history &&& 0xF) newPath
        let history := wordToPtr (m.words (history + 2))
        let (newPath, m) ← rotateAfterInsert m newPath
        avlBcInsertLoop n m history newPath

/-- `avl_bc_insert`. -/
def avlBcInsert (n : Nat) (m : Memory) (history key data : Nat) : Option (Nat × Memory) :=
  let (item, m) := newAvlLeaf m (ptrToWord key) data
  if history = nullPtr then some (item, m)
  else
    let p := wordToPtr (m.words (history + 1))
    let ix := m.words history &&& 0xF
    let (newPath, m) :=
      if ix = 0 then (item, m) else newFather m (if ix = 2 then .less else .greater) key p item
    avlBcInsertLoop n m (wordToPtr (m.words (history + 2))) newPath

/-- The rotations of `avl_bc_delete`. -/
def rotateAfterDelete (m : Memory) (newPath : Nat) : Option (Nat × Memory) :=
  if avlBalance m.words newPath < -1 then
    if avlBalance m.words (wordToPtr (m.words (newPath + 2))) = 1 then doubleRotateRight m newPath
    else simpleRotateRight m newPath
  else if avlBalance m.words newPath > 1 then
    if avlBalance m.words (wordToPtr (m.words (newPath + 3))) = -1 then doubleRotateLeft m newPath
    else simpleRotateLeft m newPath
  else some (newPath, m)

/-- The loop of `avl_bc_delete`. -/
def avlBcDeleteLoop : Nat → Memory → Nat → Nat → Option (Nat × Memory)
  | n, m, history, newPath => do
    let (newPath, m) ← rotateAfterDelete m newPath
    if history = nullPtr then some (newPath, m)
    else
      match n with
      | 0 => none
      | n + 1 =>
        let (newPath, m) := newPathItem m (wordToPtr (m.words (history + 1)))
          (m.words history &&& 0xF) newPath
        avlBcDeleteLoop n m (wordToPtr (m.words (history + 2))) newPath

/-- `avl_bc_delete`. -/
def avlBcDelete (n : Nat) (m : Memory) (history : Nat) : Option (Nat × Memory) :=
  if history = nullPtr then some (nullPtr, m)
  else
    let p := wordToPtr (m.words (history + 1))
    let ix := ((m.words history &&& 0xF) + 1) % 2 + 2
    let newPath := wordToPtr (m.words (p + ix))
    let history := wordToPtr (m.words (history + 2))
    if history = nullPtr then some (newPath, m)
    else
      let (newPath, m) := newPathItem m (wordToPtr (m.words (history + 1)))
        (m.words history &&& 0xF) newPath
      avlBcDeleteLoop n m (wordToPtr (m.words (history + 2))) newPath

/-! ## both passes -/

/-- A history is built and replayed unless `*result` was set to `0`. -/
def bcInsert (n : Nat) (m : Memory) (root key : Nat) (cmp : CmpFun) (data : Nat) :
    Option (Nat × Memory) := do
  let (history, result, m) ← buildHistoryForInsert n m root key cmp
  if result then avlBcInsert n m history key data else some (root, m)

def bcDelete (n : Nat) (m : Memory) (root key : Nat) (cmp : CmpFun) : Option (Nat × Memory) := do
  let (history, result, m) ← buildHistoryForDelete n m root key cmp
  if result then avlBcDelete n m history else some (root, m)

end Shades
