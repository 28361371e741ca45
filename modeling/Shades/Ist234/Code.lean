import Shades.Memory

/-!
# Shades.Ist234.Code

`ist234.c`.  A node has its type, which is the number of its sons, in the
lowest 24 bits of the word `0`, and then sons, keys and data in turn:

* `1`: the first son,
* `2`, `3`, `4`: the first key, its data and the second son,
* `5`, `6`, `7`: the second key, its data and the third son,
* `8`, `9`, `10`: the third key, its data and the fourth son.

Leaves are nodes whose sons are `NULL_WORD`.

Where the words of a new node come from other nodes they are read before the
new node is allocated.  The loops of the code end with the tree; here they have
as many rounds as `path` has entries, and the result of an operation is `none`
if these do not suffice or an assertion fails.
-/

namespace Shades

/-- The number of entries of `path`. -/
def ist234PathSize : Nat := 32

/-- `IST234_MAX_ALLOCATION_IN_INSERT`. -/
def ist234MaxAllocationInInsert : Nat := 352

/-- `IST234_MAX_ALLOCATION_IN_DELETE`. -/
def ist234MaxAllocationInDelete : Nat := 3 * 352

/-- `NODE_TYPE`. -/
def nodeType (words : Nat → Nat) (p : Nat) : Nat := words p &&& 0xFFFFFF

/-- `LEAF`. -/
def isLeaf (words : Nat → Nat) (p : Nat) : Bool := words (p + 1) = nullWord

/-- A new node of the type `n` with the words from `1` on. -/
def newNode (m : Memory) (n : Nat) (fields : List Nat) : Nat × Memory :=
  let (p, m) := m.allocate (3 * n - 1) .ist234
  (p, fillCell p 1 fields (m.set p (m.words p ||| n)))

/-- `copy_node`, and the loops that copy a whole cell. -/
def copyNode (m : Memory) (p : Nat) : Nat × Memory :=
  let (newP, m') := m.allocate (3 * nodeType m.words p - 1) .ist234
  (newP, fillCell newP 0 (slice m.words p (3 * nodeType m.words p - 1)) m')

/-! ## searching -/

/-- Where the search for a key goes on: at the key with the index `i` of the
node, or in the son with the index `i`. -/
inductive IstSearch where
  | error
  | key (i : Nat)
  | son (i : Nat)
  deriving DecidableEq, Repr

/-- The comparisons of a key with the keys of the node `p`. -/
def compareKeys (words : Nat → Nat) (cmp : CmpFun) (key p : Nat) : IstSearch :=
  match cmp key (wordToPtr (words (p + 2))) with
  | .error => .error
  | .equal => .key 2
  | .less => .son 1
  | _ =>
    if nodeType words p = 2 then .son 4
    else
      match cmp key (wordToPtr (words (p + 5))) with
      | .error => .error
      | .equal => .key 5
      | .less => .son 4
      | _ =>
        if nodeType words p = 3 then .son 7
        else
          match cmp key (wordToPtr (words (p + 8))) with
          | .error => .error
          | .equal => .key 8
          | .less => .son 7
          | _ => .son 10

/-- The loop of `ist234_find`. -/
def ist234FindLoop (words : Nat → Nat) (cmp : CmpFun) (key : Nat) : Nat → Nat → Option Nat
  | n, p =>
    if p = nullPtr then some nullPtr
    else do
      assert (cellType (words p) = CellType.ist234.code)
      match compareKeys words cmp key p with
      | .error => some nullPtr
      | .key i => some (wordToPtr (words (p + (i + 1))))
      | .son i =>
        match n with
        | 0 => none
        | n + 1 => ist234FindLoop words cmp key n (wordToPtr (words (p + i)))

/-- `ist234_find`. -/
def ist234Find (words : Nat → Nat) (root key : Nat) (cmp : CmpFun) : Option Nat :=
  ist234FindLoop words cmp key ist234PathSize root

/-- The loop of `ist234_find_min`. -/
def ist234FindMinLoop (words : Nat → Nat) : Nat → Nat → Option Nat
  | n, p =>
    if words (p + 1) = nullWord then some (wordToPtr (words (p + 3)))
    else
      match n with
      | 0 => none
      | n + 1 => do
        assert (cellType (words p) = CellType.ist234.code)
        ist234FindMinLoop words n (wordToPtr (words (p + 1)))

/-- `ist234_find_min`. -/
def ist234FindMin (words : Nat → Nat) (root : Nat) : Option Nat :=
  if root = nullPtr then some nullPtr else ist234FindMinLoop words ist234PathSize root

/-! ## insertion -/

/-- An entry of `path`: a node and the index of a son. -/
structure IstPathEntry where
  node : Nat
  i : Nat

/-- Where the loop of `ist234_insert` ends. -/
inductive IstDescent where
  | error
  | key (p i : Nat) (path : List IstPathEntry)
  | absent (path : List IstPathEntry)

/-- The loop of `ist234_insert`, the last entry of the path comes first. -/
def istDescend (words : Nat → Nat) (cmp : CmpFun) (key : Nat) : Nat → List IstPathEntry → Nat →
    Option IstDescent
  | n, path, p =>
    if p = nullPtr then some (.absent path)
    else do
      assert (cellType (words p) = CellType.ist234.code)
      match compareKeys words cmp key p with
      | .error => some .error
      | .key i => some (.key p i path)
      | .son i =>
        match n with
        | 0 => none
        | n + 1 => istDescend words cmp key n (⟨p, i⟩ :: path) (wordToPtr (words (p + i)))

/-- The phase `update`: the nodes of the path are copied. -/
def istUpdate : List IstPathEntry → Nat → Memory → Nat × Memory
  | [], newP, m => (newP, m)
  | e :: path, newP, m =>
    let (p, m) := copyNode m e.node
    istUpdate path p (m.set (p + e.i) (ptrToWord newP))

/-- The words of `new_p_1` and `new_p_2`, into which the 4-node `p` is split. -/
def splitNode (p : Nat → Nat) (p1 key data p2 : Nat) : Nat → List Nat × List Nat
  | 1 => ([p1, key, data, p2, p 2, p 3, p 4], [p 7, p 8, p 9, p 10])
  | 4 => ([p 1, p 2, p 3, p1, key, data, p2], [p 7, p 8, p 9, p 10])
  | 7 => ([p 1, p 2, p 3, p 4, p 5, p 6, p1], [p2, p 8, p 9, p 10])
  | 10 => ([p 1, p 2, p 3, p 4, p 5, p 6, p 7], [p1, key, data, p2])
  | _ => ([], [])

/-- The key and the data that are passed to the parent when `p` is split. -/
def passedKey (p : Nat → Nat) (key data : Nat) : Nat → Nat × Nat
  | 7 => (key, data)
  | 10 => (wordToPtr (p 8), wordToPtr (p 9))
  | _ => (wordToPtr (p 5), wordToPtr (p 6))

/-- The words of the node that has one key more than the 2-node or 3-node
`p`. -/
def grownNode (p : Nat → Nat) (p1 key data p2 : Nat) : Nat → Nat → List Nat
  | 3, 1 => [p1, key, data, p2, p 2, p 3, p 4, p 5, p 6, p 7]
  | 3, 4 => [p 1, p 2, p 3, p1, key, data, p2, p 5, p 6, p 7]
  | 3, 7 => [p 1, p 2, p 3, p 4, p 5, p 6, p1, key, data, p2]
  | 2, 1 => [p1, key, data, p2, p 2, p 3, p 4]
  | 2, 4 => [p 1, p 2, p 3, p1, key, data, p2]
  | _, _ => []

/-- The phase `insert`: 4-nodes are split, the first other node takes the
key. -/
def istInsertUp : List IstPathEntry → Nat → Nat → Nat → Nat → Memory → Nat × Memory
  | [], p1, key, data, p2, m =>
    newNode m 2 [ptrToWord p1, ptrToWord key, ptrToWord data, ptrToWord p2]
  | e :: path, p1, key, data, p2, m =>
    let p i := m.words (e.node + i)
    let type := nodeType m.words e.node
    if type = 4 then
      let fields := splitNode p (ptrToWord p1) (ptrToWord key) (ptrToWord data) (ptrToWord p2) e.i
      let passed := passedKey p key data e.i
      let (newP1, m) := newNode m 3 fields.1
      let (newP2, m) := newNode m 2 fields.2
      istInsertUp path newP1 passed.1 passed.2 newP2 m
    else
      let (newP, m) := newNode m (type + 1)
        (grownNode p (ptrToWord p1) (ptrToWord key) (ptrToWord data) (ptrToWord p2) type e.i)
      istUpdate path newP m

/-- The index of the data that are compared with the new data of the key with
the index `i`: at the second key the data of the first key are tested. -/
def testedData : Nat → Nat
  | 2 => 3
  | 5 => 3
  | _ => 9

/-- `ist234_insert`. -/
def ist234Insert (m : Memory) (root key : Nat) (cmp : CmpFun) (updateFun : Option UpdateFunction)
    (data : Nat) : Option (Nat × Memory) := do
  match ← istDescend m.words cmp key ist234PathSize [] root with
  | .error => some (root, m)
  | .absent path => some (istInsertUp path nullPtr key data nullPtr m)
  | .key p i path =>
    let (data, m) := UpdateFunction.call updateFun (wordToPtr (m.words (p + (i + 1)))) data m
    if wordToPtr (m.words (p + testedData i)) = data then some (root, m)
    else
      let (newP, m) := copyNode m p
      some (istUpdate path newP (m.set (newP + (i + 1)) (ptrToWord data)))

/-! ## borrowing and merging -/

/-- The words of `new_node` when `new_p` takes the place of two sons of `node`;
`type` is the type of `node`. -/
def mergedNode (node : Nat → Nat) (newP : Nat) : Nat → Nat → List Nat
  | 4, 1 => [newP, node 5, node 6, node 7, node 8, node 9, node 10]
  | 4, 4 => [newP, node 5, node 6, node 7, node 8, node 9, node 10]
  | 4, 7 => [node 1, node 2, node 3, newP, node 8, node 9, node 10]
  | 4, 10 => [node 1, node 2, node 3, node 4, node 5, node 6, newP]
  | 3, 1 => [newP, node 5, node 6, node 7]
  | 3, 4 => [newP, node 5, node 6, node 7]
  | 3, 7 => [node 1, node 2, node 3, newP]
  | _, _ => []

/-- The words of `new_node` when a key is moved from one son of `node` to
another one. -/
def balancedNode (node : Nat → Nat) (left key data right type : Nat) : Nat → List Nat
  | 7 => [node 1, node 2, node 3, left, key, data, right] ++
      (if type > 3 then [node 8, node 9, node 10] else [])
  | 10 => [node 1, node 2, node 3, node 4, node 5, node 6, left, key, data, right]
  | _ => [left, key, data, right] ++ (if type > 2 then [node 5, node 6, node 7] else []) ++
      (if type > 3 then [node 8, node 9, node 10] else [])

/-- What `copy_and_transform` returns: the new node and the new values of `ix`,
`i_of_key` and `n_of_copied_levels`. -/
structure Transformed where
  node : Nat
  ix : Nat
  iOfKey : Nat
  copiedLevels : Nat

/-- The part of `copy_and_transform` for the first son. -/
def transformFirst (m : Memory) (node : Nat) : Transformed × Memory :=
  let w i := m.words (node + i)
  let p i := m.words (wordToPtr (w 1) + i)
  let brother := wordToPtr (w 4)
  let b i := m.words (brother + i)
  let type := nodeType m.words node
  let typeOfBrother := nodeType m.words brother
  if typeOfBrother = 2 then
    let (newP, m) := newNode m 4 [p 1, p 2, p 3, p 4, w 2, w 3, b 1, b 2, b 3, b 4]
    if type = 2 then (⟨newP, 1, 2, 1⟩, m)
    else
      let (newNode, m) := newNode m (type - 1) (mergedNode w (ptrToWord newP) type 1)
      (⟨newNode, 1, 2, 2⟩, m)
  else
    let (left, m) := newNode m 3 [p 1, p 2, p 3, p 4, w 2, w 3, b 1]
    let (right, m) := newNode m (typeOfBrother - 1)
      ([b 4, b 5, b 6, b 7] ++ if typeOfBrother = 4 then [b 8, b 9, b 10] else [])
    let (newNode, m) := newNode m type
      (balancedNode w (ptrToWord left) (b 2) (b 3) (ptrToWord right) type 1)
    (⟨newNode, 1, 2, 2⟩, m)

/-- The part of `copy_and_transform` for the other sons. -/
def transformOther (m : Memory) (node ix : Nat) : Transformed × Memory :=
  let w i := m.words (node + i)
  let p i := m.words (wordToPtr (w ix) + i)
  let brother := wordToPtr (w (ix - 3))
  let b i := m.words (brother + i)
  let type := nodeType m.words node
  let typeOfBrother := nodeType m.words brother
  if typeOfBrother = 2 then
    let (newP, m) := newNode m 4
      [b 1, b 2, b 3, b 4, w (ix - 2), w (ix - 1), p 1, p 2, p 3, p 4]
    if type = 2 then (⟨newP, ix, 8, 1⟩, m)
    else
      let (newNode, m) := newNode m (type - 1) (mergedNode w (ptrToWord newP) type ix)
      (⟨newNode, ix - 3, 8, 2⟩, m)
  else
    let (left, m) := newNode m (typeOfBrother - 1)
      ([b 1, b 2, b 3, b 4] ++ if typeOfBrother > 3 then [b 5, b 6, b 7] else [])
    let (right, m) := newNode m 3
      [b (3 * typeOfBrother - 2), w (ix - 2), w (ix - 1), p 1, p 2, p 3, p 4]
    let (newNode, m) := newNode m type
      (balancedNode w (ptrToWord left) (b (3 * typeOfBrother - 4)) (b (3 * typeOfBrother - 3))
        (ptrToWord right) type ix)
    (⟨newNode, ix, 5, 2⟩, m)

/-- `copy_and_transform`: the 2-node that is the son of `node` with the index
`ix` gets another key from `node` and from a brother. -/
def copyAndTransform (m : Memory) (node ix : Nat) : Option (Transformed × Memory) := do
  assert (nodeType m.words (wordToPtr (m.words (node + ix))) = 2)
  some (if ix = 1 then transformFirst m node else transformOther m node ix)

/-! ## deletion -/

/-- The variables of `ist234_delete`.  `pp` is only used when it points to a
word of a new node. -/
structure IstState where
  m : Memory
  newRoot : Nat
  pp : Nat
  p : Nat
  isNotCopiedYet : Bool

namespace IstState

/-- `if ((new_root == NULL_PTR) || (new_root == p)) new_root = new_p;
else *pp = PTR_TO_WORD(new_p);` -/
def chain (s : IstState) (newP : Nat) : IstState :=
  if s.newRoot = nullPtr ∨ s.newRoot = s.p then { s with newRoot := newP }
  else { s with m := s.m.set s.pp (ptrToWord newP) }

/-- The node `p` is copied unless that has been done already. -/
def copy (s : IstState) : IstState :=
  if s.isNotCopiedYet then
    let (newP, m) := copyNode s.m s.p
    { ({ s with m := m }).chain newP with p := newP }
  else { s with isNotCopiedYet := true }

end IstState

/-- The words of the new leaf without the key with the index `i`. -/
def smallerLeaf (p : Nat → Nat) : Nat → Nat → List Nat
  | 4, 2 => [nullWord, p 5, p 6, nullWord, p 8, p 9, nullWord]
  | 4, 5 => [nullWord, p 2, p 3, nullWord, p 8, p 9, nullWord]
  | 4, 8 => [nullWord, p 2, p 3, nullWord, p 5, p 6, nullWord]
  | 3, 2 => [nullWord, p 5, p 6, nullWord]
  | 3, 5 => [nullWord, p 2, p 3, nullWord]
  | _, _ => []

/-- `delete_leaf`. -/
def deleteLeaf (s : IstState) (iOfKey : Nat) : Option (Nat × Memory) :=
  let p i := s.m.words (s.p + i)
  let type := nodeType s.m.words s.p
  if type = 2 then do
    assert (s.newRoot = nullPtr)
    some (nullPtr, s.m)
  else do
    assert (p 1 = nullWord ∧ p 4 = nullWord ∧ (type = 4 → p 7 = nullWord))
    let (newP, m) := newNode s.m (type - 1) (smallerLeaf p type iOfKey)
    let s := ({ s with m := m }).chain newP
    some (s.newRoot, s.m)

/-- The two neighbours of a key in inner order. -/
inductive Neighbour where
  | successor
  | predecessor
  deriving DecidableEq, Repr

namespace Neighbour

/-- The index of the son on the way to the neighbour. -/
def ix (nb : Neighbour) (words : Nat → Nat) (p : Nat) : Nat :=
  match nb with
  | successor => 1
  | predecessor => 3 * nodeType words p - 2

/-- The index of the neighbour in its leaf. -/
def iOfKey (nb : Neighbour) (words : Nat → Nat) (p : Nat) : Nat :=
  match nb with
  | successor => 2
  | predecessor => 3 * nodeType words p - 2 - 2

end Neighbour

/-- The loop that goes from the subtree `p` down to the neighbour of a key,
which then replaces the key at the address `key`, and is deleted from its
leaf. -/
def replaceKey (nb : Neighbour) (newRoot key : Nat) : Nat → Memory → Nat → Nat → Bool →
    Option (Nat × Memory)
  | n, m, pp, p, isNotCopiedYet =>
    if isLeaf m.words p then do
      assert (nodeType m.words p > 2)
      let i := nb.iOfKey m.words p
      let m := m.set key (m.words (p + i))
      let m := m.set (key + 1) (m.words (p + (i + 1)))
      deleteLeaf ⟨m, newRoot, pp, p, isNotCopiedYet⟩ i
    else
      match n with
      | 0 => none
      | n + 1 =>
        let ix := nb.ix m.words p
        if nodeType m.words (wordToPtr (m.words (p + ix))) > 2 then
          let (p, m) :=
            if isNotCopiedYet then
              let (newP, m) := copyNode m p
              (newP, m.set pp (ptrToWord newP))
            else (p, m)
          replaceKey nb newRoot key n m (p + ix) (wordToPtr (m.words (p + ix))) true
        else do
          let (t, m) ← copyAndTransform m p ix
          assert (nb = .successor → t.ix = 1)
          assert (t.copiedLevels = 2)
          let m := m.set pp (ptrToWord t.node)
          replaceKey nb newRoot key n m (t.node + t.ix) (wordToPtr (m.words (t.node + t.ix))) false

/-- The words of `new_p` without the key with the index `i`: those before and
those after the joint of its two subtrees. -/
def nodeWithoutKey (p : Nat → Nat) (type : Nat) : Nat → List Nat × List Nat
  | 2 => ([], [p 5, p 6, p 7] ++ if type = 4 then [p 8, p 9, p 10] else [])
  | 5 => ([p 1, p 2, p 3], if type = 4 then [p 8, p 9, p 10] else [])
  | 8 => ([p 1, p 2, p 3, p 4, p 5, p 6], [])
  | _ => ([], [])

/-- A new node of the type `n` with the words from `1` on and those from `i` on;
the words between keep what was there. -/
def newNodeWithHole (m : Memory) (n : Nat) (before : List Nat) (i : Nat) (after : List Nat) :
    Nat × Memory :=
  let (p, m) := newNode m n before
  (p, fillCell p i after m)

/-- `if (new_root == NULL_PTR) new_root = joint; else *pp = PTR_TO_WORD(joint);` -/
def chainJoint (s : IstState) (joint : Nat) : IstState :=
  if s.newRoot = nullPtr then { s with newRoot := joint }
  else { s with m := s.m.set s.pp (ptrToWord joint) }

/-- The loop that joins `left_subtree` and `right_subtree`; `again` goes on at
`delete_internal_node`. -/
def joinSubtrees (again : IstState → Nat → Option (Nat × Memory)) : Nat → IstState → Nat → Nat →
    Option (Nat × Memory)
  | n, s, left, right =>
    let words := s.m.words
    let l i := words (left + i)
    let r i := words (right + i)
    if isLeaf words left ∨
        nodeType words (wordToPtr (l 4)) = 2 ∧ nodeType words (wordToPtr (r 1)) = 2 then
      let (joint, m) := newNodeWithHole s.m 3 [l 1, l 2, l 3] 5 [r 2, r 3, r 4]
      let s := { chainJoint { s with m := m } joint with p := joint, pp := joint + 4 }
      if isLeaf s.m.words joint then some (s.newRoot, s.m.set s.pp nullWord)
      else
        match n with
        | 0 => none
        | n + 1 => joinSubtrees again n s (wordToPtr (l 4)) (wordToPtr (r 1))
    else
      let (joint, m) := newNodeWithHole s.m 4 [l 1, l 2, l 3, l 4] 7 [r 1, r 2, r 3, r 4]
      again { chainJoint { s with m := m } joint with p := joint, isNotCopiedYet := false } 5

/-- The key with the index `i` of the node `p` is removed, and `pp` is the hole
where its two subtrees were. -/
def removeKey (s : IstState) (iOfKey : Nat) : IstState :=
  let type := nodeType s.m.words s.p
  if type > 2 then
    let fields := nodeWithoutKey (fun i => s.m.words (s.p + i)) type iOfKey
    let (newP, m) := newNodeWithHole s.m (type - 1) fields.1 iOfKey fields.2
    { ({ s with m := m }).chain newP with p := newP, pp := newP + (iOfKey - 1) }
  else s

/-- `delete_internal_node`; `n` is how often the code may come here. -/
def deleteInternalNode : Nat → IstState → Nat → Option (Nat × Memory)
  | 0, _, _ => none
  | n + 1, s, iOfKey =>
    let left := wordToPtr (s.m.words (s.p + (iOfKey - 1)))
    let right := wordToPtr (s.m.words (s.p + (iOfKey + 2)))
    if nodeType s.m.words right > 2 then
      let s := s.copy
      replaceKey .successor s.newRoot (s.p + iOfKey) ist234PathSize s.m (s.p + (iOfKey + 2))
        (wordToPtr (s.m.words (s.p + (iOfKey + 2)))) s.isNotCopiedYet
    else if nodeType s.m.words left > 2 then
      let s := s.copy
      replaceKey .predecessor s.newRoot (s.p + iOfKey) ist234PathSize s.m (s.p + (iOfKey - 1))
        (wordToPtr (s.m.words (s.p + (iOfKey - 1)))) s.isNotCopiedYet
    else joinSubtrees (deleteInternalNode n) ist234PathSize (removeKey s iOfKey) left right

/-- `delete_key`. -/
def deleteKey (root : Nat) (deleteFun : Option UpdateFunction) (data : Nat) (s : IstState)
    (iOfKey : Nat) : Option (Nat × Memory) :=
  match deleteFun with
  | some f =>
    let (data, m) := f.apply (wordToPtr (s.m.words (s.p + (iOfKey + 1)))) data s.m
    if wordToPtr (m.words (s.p + (iOfKey + 1))) = data then some (root, m)
    else
      let s := ({ s with m := m }).copy
      some (s.newRoot, s.m.set (s.p + (iOfKey + 1)) (ptrToWord data))
  | none =>
    if isLeaf s.m.words s.p then deleteLeaf s iOfKey
    else do
      assert (s.newRoot = nullPtr ∨ nodeType s.m.words s.p > 2)
      deleteInternalNode 2 s iOfKey

section delete

variable (root ap key : Nat) (cmp : CmpFun) (deleteFun : Option UpdateFunction) (data : Nat)

/-- The key is absent, or a comparison failed. -/
def giveUp (s : IstState) : Option (Nat × Memory) := some (root, s.m.restoreAllocationPoint ap)

/-- The code from `find` to `copy`. -/
def deleteFind (copy : IstState → Nat → Option (Nat × Memory)) (s : IstState) :
    Option (Nat × Memory) :=
  if s.p = nullPtr then giveUp root ap s
  else do
    assert (cellType (s.m.words s.p) = CellType.ist234.code)
    match compareKeys s.m.words cmp key s.p with
    | .error => giveUp root ap s
    | .key i => deleteKey root deleteFun data s i
    | .son ix => copy s ix

/-- The code from `copy` to `delete_key`, for the son of `p` with the index
`ix`. -/
def deleteCopy : Nat → IstState → Nat → Option (Nat × Memory)
  | 0, _, _ => none
  | n + 1, s, ix =>
    if s.m.words (s.p + ix) = nullWord then giveUp root ap s
    else if nodeType s.m.words (wordToPtr (s.m.words (s.p + ix))) > 2 then
      let s := s.copy
      deleteFind root ap key cmp deleteFun data (fun s ix => deleteCopy n s ix)
        { s with isNotCopiedYet := true, pp := s.p + ix,
                 p := wordToPtr (s.m.words (s.p + ix)) }
    else do
      let (t, m) ← copyAndTransform s.m s.p ix
      let s := ({ s with m := m }).chain t.node
      let s :=
        if t.copiedLevels = 1 then { s with p := t.node }
        else { s with p := wordToPtr (s.m.words (t.node + t.ix)), pp := t.node + t.ix }
      let s := { s with isNotCopiedYet := false }
      match cmp key (wordToPtr (s.m.words (s.p + t.iOfKey))) with
      | .equal => deleteKey root deleteFun data s t.iOfKey
      | .error => giveUp root ap s
      | .less => deleteCopy n s (t.iOfKey - 1)
      | _ => deleteCopy n s (t.iOfKey + 2)

end delete

/-- `ist234_delete`. -/
def ist234Delete (m : Memory) (root key : Nat) (cmp : CmpFun) (deleteFun : Option UpdateFunction)
    (data : Nat) : Option (Nat × Memory) :=
  deleteFind root m.allocationPtr key cmp deleteFun data
    (deleteCopy root m.allocationPtr key cmp deleteFun data ist234PathSize)
    ⟨m, nullPtr, nullPtr, root, true⟩

end Shades
