import Shades.Memory

/-!
# Shades.Avl.Code

`avl.c`.  An internal node has the words

* `0`: the type and, in the lowest 24 bits, the height,
* `1`: the key that routes searches,
* `2`, `3`: the left and the right son,

and a leaf has the key in the word `1` and the data in the word `2`; its height
is `0`.

A comparison function is given together with its context.  The result of an
operation is `none` if an assertion fails or a path has more than its 50
entries.
-/

namespace Shades

/-- The number of entries of `path`. -/
def avlPathSize : Nat := 50

/-- `AVL_MAX_ALLOCATION_IN_INSERT`. -/
def avlMaxAllocationInInsert : Nat := 207

/-- `AVL_MAX_ALLOCATION_IN_DELETE`. -/
def avlMaxAllocationInDelete : Nat := 583

/-- `IS_INTERNAL_NODE`. -/
def isInternalNode (words : Nat → Nat) (p : Nat) : Bool :=
  cellType (words p) = CellType.avlInternal.code

/-- The height in the first word of a node. -/
def avlHeight (words : Nat → Nat) (p : Nat) : Nat := words p &&& 0xFFFFFF

/-- `HEIGHT`: the height that a node should have. -/
def sonsHeight (words : Nat → Nat) (p : Nat) : Nat :=
  if avlHeight words (wordToPtr (words (p + 2))) > avlHeight words (wordToPtr (words (p + 3))) then
    avlHeight words (wordToPtr (words (p + 2))) + 1
  else avlHeight words (wordToPtr (words (p + 3))) + 1

/-- `BALANCE`, as the signed number that it is assigned to. -/
def avlBalance (words : Nat → Nat) (p : Nat) : Int :=
  avlHeight words (wordToPtr (words (p + 3))) - avlHeight words (wordToPtr (words (p + 2)))

/-- `p[0] >>= 24; p[0] <<= 24; p[0] |= HEIGHT(p);` -/
def updateHeight (m : Memory) (p : Nat) : Memory :=
  m.set p (m.words p >>> 24 <<< 24 ||| sonsHeight m.words p)

/-- A new internal node with its height. -/
def newAvlInternal (m : Memory) (key left right : Nat) : Nat × Memory :=
  let (p, m) := m.allocate 4 .avlInternal
  let m := ((m.set (p + 1) key).set (p + 2) left).set (p + 3) right
  (p, m.set p (m.words p ||| sonsHeight m.words p))

/-- A new leaf. -/
def newAvlLeaf (m : Memory) (key data : Nat) : Nat × Memory :=
  let (p, m) := m.allocate 3 .avlLeaf
  (p, (m.set (p + 1) key).set (p + 2) (ptrToWord data))

/-! ## rotations -/

/-- `simple_rotate_right`. -/
def simpleRotateRight (m : Memory) (p : Nat) : Option (Nat × Memory) := do
  let q := wordToPtr (m.words (p + 2))
  assert (q ≠ nullPtr)
  let m := updateHeight (m.set (p + 2) (m.words (q + 3))) p
  some (newAvlInternal m (m.words (q + 1)) (m.words (q + 2)) (ptrToWord p))

/-- `simple_rotate_left`. -/
def simpleRotateLeft (m : Memory) (p : Nat) : Option (Nat × Memory) := do
  let q := wordToPtr (m.words (p + 3))
  assert (q ≠ nullPtr)
  let m := updateHeight (m.set (p + 3) (m.words (q + 2))) p
  some (newAvlInternal m (m.words (q + 1)) (ptrToWord p) (m.words (q + 3)))

/-- `double_rotate_right`. -/
def doubleRotateRight (m : Memory) (p : Nat) : Option (Nat × Memory) := do
  let q := wordToPtr (m.words (p + 2))
  assert (q ≠ nullPtr)
  let r := wordToPtr (m.words (q + 3))
  assert (r ≠ nullPtr)
  let m := updateHeight (m.set (p + 2) (m.words (r + 3))) p
  let (newQ, m) := newAvlInternal m (m.words (q + 1)) (m.words (q + 2)) (m.words (r + 2))
  some (newAvlInternal m (m.words (r + 1)) (ptrToWord newQ) (ptrToWord p))

/-- `double_rotate_left`. -/
def doubleRotateLeft (m : Memory) (p : Nat) : Option (Nat × Memory) := do
  let q := wordToPtr (m.words (p + 3))
  assert (q ≠ nullPtr)
  let r := wordToPtr (m.words (q + 2))
  assert (r ≠ nullPtr)
  let m := updateHeight (m.set (p + 3) (m.words (r + 2))) p
  let (newQ, m) := newAvlInternal m (m.words (q + 1)) (m.words (r + 3)) (m.words (q + 3))
  some (newAvlInternal m (m.words (r + 1)) (ptrToWord p) (ptrToWord newQ))

/-! ## searching -/

/-- The loop of `avl_find`.  A comparison that fails ends the search. -/
def avlFindLoop (words : Nat → Nat) (cmp : CmpFun) (key : Nat) : Nat → Nat → Option Nat
  | n, p =>
    if isInternalNode words p then
      match n with
      | 0 => none
      | n + 1 =>
        match cmp key (wordToPtr (words (p + 1))) with
        | .error => some nullPtr
        | .less | .equal => avlFindLoop words cmp key n (wordToPtr (words (p + 2)))
        | _ => avlFindLoop words cmp key n (wordToPtr (words (p + 3)))
    else do
      assert (cellType (words p) = CellType.avlLeaf.code)
      if cmp key (wordToPtr (words (p + 1))) = .equal then some (wordToPtr (words (p + 2)))
      else some nullPtr

/-- `avl_find`. -/
def avlFind (words : Nat → Nat) (root key : Nat) (cmp : CmpFun) : Option Nat :=
  if root = nullPtr then some nullPtr
  else avlFindLoop words cmp key avlPathSize root

/-! ## paths -/

/-- An entry of `path`. -/
structure AvlPathEntry where
  node : Nat
  son : Nat

/-- `path[level - 1].node[path[level - 1].son] = PTR_TO_WORD(p)`; the last entry
of a path comes first. -/
def chainSon (path : List AvlPathEntry) (p : Nat) (m : Memory) : Memory :=
  match path with
  | [] => m
  | e :: _ => m.set (e.node + e.son) (ptrToWord p)

/-- The copy of a node on the way down. -/
def copyPathNode (m : Memory) (path : List AvlPathEntry) (p : Nat) : Nat × Memory :=
  let (newP, m) := m.allocate 4 .avlInternal
  let m := (((m.set newP (m.words p)).set (newP + 1) (m.words (p + 1))).set (newP + 2)
    (m.words (p + 2))).set (newP + 3) (m.words (p + 3))
  (newP, chainSon path newP m)

/-- Where the way down has ended: at a leaf, or because a comparison failed. -/
inductive AvlDescent where
  | leaf (p : Nat) (path : List AvlPathEntry)
  | error

/-- The way down of `avl_insert` and `avl_delete`: the nodes are copied and
recorded in the path, which has room for `n` more. -/
def avlDescend (cmp : CmpFun) (key : Nat) : Nat → Memory → List AvlPathEntry → Nat →
    Option (AvlDescent × Memory)
  | n, m, path, p =>
    if isInternalNode m.words p then
      match n with
      | 0 => none
      | n + 1 =>
        let (newP, m) := copyPathNode m path p
        match cmp key (wordToPtr (m.words (p + 1))) with
        | .error => some (.error, m)
        | .less | .equal =>
          avlDescend cmp key n m (⟨newP, 2⟩ :: path) (wordToPtr (m.words (p + 2)))
        | _ => avlDescend cmp key n m (⟨newP, 3⟩ :: path) (wordToPtr (m.words (p + 3)))
    else do
      assert (cellType (m.words p) = CellType.avlLeaf.code)
      some (.leaf p path, m)

/-- `path[0].node`. -/
def firstNode (path : List AvlPathEntry) (p : Nat) : Nat := (path.getLast?.map (·.node)).getD p

/-! ## insertion -/

/-- After a rotation in `avl_insert`: the new root of the subtree is chained,
and nothing above it changes. -/
def finishInsert (path : List AvlPathEntry) (p : Nat) (m : Memory) : Nat × Memory :=
  (firstNode path p, chainSon path p m)

/-- The way up of `avl_insert`; `first` is `path[0].node`. -/
def avlInsertUp (first : Nat) : List AvlPathEntry → Memory → Option (Nat × Memory)
  | [], m => some (first, m)
  | e :: path, m =>
    let p := e.node
    if avlBalance m.words p < -1 then do
      let balanceOfSon := avlBalance m.words (wordToPtr (m.words (p + 2)))
      let (p, m) ←
        if balanceOfSon = -1 then simpleRotateRight m p
        else if balanceOfSon = 1 then doubleRotateRight m p
        else some (p, m)
      some (finishInsert path p m)
    else if avlBalance m.words p > 1 then do
      let balanceOfSon := avlBalance m.words (wordToPtr (m.words (p + 3)))
      let (p, m) ←
        if balanceOfSon = 1 then simpleRotateLeft m p
        else if balanceOfSon = -1 then doubleRotateLeft m p
        else some (p, m)
      some (finishInsert path p m)
    else avlInsertUp first path (updateHeight m p)

/-- The new internal node over the leaf `p` and the new leaf `item`. -/
def newFather (m : Memory) (cmpResult : CmpResult) (key p item : Nat) : Nat × Memory :=
  let (newP, m) := m.allocate 4 .avlInternal
  let m := m.set newP (m.words newP ||| 1)
  if cmpResult = .less then
    (newP, ((m.set (newP + 1) (ptrToWord key)).set (newP + 2) (ptrToWord item)).set (newP + 3)
      (ptrToWord p))
  else
    (newP, ((m.set (newP + 1) (m.words (p + 1))).set (newP + 2) (ptrToWord p)).set (newP + 3)
      (ptrToWord item))

/-- `avl_insert`. -/
def avlInsert (m : Memory) (root key : Nat) (cmp : CmpFun) (updateFun : Option UpdateFunction)
    (data : Nat) : Option (Nat × Memory) :=
  let ap := m.allocationPtr
  if root = nullPtr then
    let (data, m) := UpdateFunction.call updateFun root data m
    some (newAvlLeaf m (ptrToWord key) data)
  else do
    let (d, m) ← avlDescend cmp key avlPathSize m [] root
    match d with
    | .error => some (root, m.restoreAllocationPoint ap)
    | .leaf p path =>
      let cmpResult := cmp key (wordToPtr (m.words (p + 1)))
      if cmpResult = .error then some (root, m.restoreAllocationPoint ap)
      else
        let (data, m) := UpdateFunction.call updateFun (wordToPtr (m.words (p + 2))) data m
        if cmpResult = .equal then
          if m.words (p + 2) = ptrToWord data then some (root, m.restoreAllocationPoint ap)
          else
            let (p, m) := newAvlLeaf m (ptrToWord key) data
            some (firstNode path p, chainSon path p m)
        else
          let (item, m) := newAvlLeaf m (ptrToWord key) data
          let (newP, m) := newFather m cmpResult key p item
          avlInsertUp (firstNode path newP) path (chainSon path newP m)

/-! ## deletion -/

/-- The way up of `avl_delete`; `first` is `path[0].node`, which is returned
even if that node has been rotated. -/
def avlDeleteUp (first : Nat) : List AvlPathEntry → Memory → Option (Nat × Memory)
  | [], m => some (first, m)
  | e :: path, m =>
    let p := e.node
    if avlBalance m.words p < -1 then do
      let balanceOfSon := avlBalance m.words (wordToPtr (m.words (p + 2)))
      let (p, m) ← if balanceOfSon = 1 then doubleRotateRight m p else simpleRotateRight m p
      avlDeleteUp first path (chainSon path p m)
    else if avlBalance m.words p > 1 then do
      let balanceOfSon := avlBalance m.words (wordToPtr (m.words (p + 3)))
      let (p, m) ← if balanceOfSon = -1 then doubleRotateLeft m p else simpleRotateLeft m p
      avlDeleteUp first path (chainSon path p m)
    else avlDeleteUp first path (updateHeight m p)

/-- `avl_delete`. -/
def avlDelete (m : Memory) (root key : Nat) (cmp : CmpFun) (deleteFun : Option UpdateFunction)
    (data : Nat) : Option (Nat × Memory) :=
  let ap := m.allocationPtr
  if root = nullPtr then some (nullPtr, m)
  else do
    let (d, m) ← avlDescend cmp key avlPathSize m [] root
    match d with
    | .error => some (root, m.restoreAllocationPoint ap)
    | .leaf p path =>
      if cmp key (wordToPtr (m.words (p + 1))) ≠ .equal then
        some (root, m.restoreAllocationPoint ap)
      else
        match deleteFun with
        | some f =>
          let (data, m) := f.apply (wordToPtr (m.words (p + 2))) data m
          if m.words (p + 2) = ptrToWord data then some (root, m.restoreAllocationPoint ap)
          else
            let (newP, m) := newAvlLeaf m (m.words (p + 1)) data
            some (firstNode path newP, chainSon path newP m)
        | none =>
          match path with
          | [] => some (nullPtr, m)
          | e :: path =>
            let ix := (e.son + 1) % 2 + 2
            match path with
            | [] => some (wordToPtr (m.words (e.node + ix)), m)
            | e' :: _ =>
              avlDeleteUp (firstNode path nullPtr) path
                (m.set (e'.node + e'.son) (m.words (e.node + ix)))

end Shades
