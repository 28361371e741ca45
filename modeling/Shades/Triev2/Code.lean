import Shades.Memory
import Shades.Bitops
import Shades.Triev2.Tables

/-!
# Shades.Triev2.Code

The operations of `triev2.c`: a 4-way width and path compressed trie with
keys of at most 32 bits, kept in immutable cells.

A key is held left aligned in a word, and `key_length` counts the bits that
are still to be compared.  The loops of the C code consume at least two bits
on every turn; they take a bound on the number of turns here, and the result
is `none` if that bound is too small.  `pp`, the address of the slot to be
filled next, is either the local variable `new_root` or a word of a fresh
cell.
-/

namespace Shades

/-! ## prefixes -/

/-- `NODE_PREFIX_MASK`. -/
def nodePrefixMask : Nat := 0xFFFFF

/-- `FULL_PREFIX_MASK`. -/
def fullPrefixMask : Nat := 0xFFFFFF

/-- The number of prefix bits of a node. -/
def prefixLength (p0 : Nat) : Nat := (p0 >>> 19) &&& 0x1E

/-- The prefix bits of a node. -/
def nodePrefix (p0 : Nat) : Nat := p0 &&& nodePrefixMask

/-- Compare the prefix of a node with the key and remove the compared bits;
`none` if they disagree. -/
def comparePrefix (p0 key : Nat) (keyLength : Int) : Option (Nat × Int) :=
  if prefixLength p0 ≠ 0 then
    if nodePrefix p0 ≠ key >>> (32 - prefixLength p0) then none
    else some (lshift32 key (prefixLength p0), keyLength - prefixLength p0)
  else some (key, keyLength)

/-! ## lookup -/

/-- The loop of `triev2_find`. -/
def triev2FindLoop (words : Nat → Nat) : Nat → Nat → Nat → Int → Option Nat
  | 0, _, _, _ => none
  | fuel + 1, p, key, keyLength =>
    match comparePrefix (words p) key keyLength with
    | none => some nullWord
    | some (key, keyLength) =>
      let i := offset (trieIndex (words p)) (key >>> 30)
      if i = 0 then some nullWord
      else
        let data := words (p + i)
        if keyLength - 2 ≠ 0 then
          triev2FindLoop words fuel (wordToPtr data) (lshift32 key 2) (keyLength - 2)
        else some data

/-- `triev2_find`: the data behind the key, or `NULL_WORD`. -/
def triev2Find (words : Nat → Nat) (p key keyLength : Nat) : Option Nat :=
  if p = nullPtr then some nullWord
  else triev2FindLoop words 16 p (lshift32 key (32 - keyLength)) keyLength

/-- The loop of `triev2_contains`. -/
def triev2ContainsLoop (words : Nat → Nat) : Nat → Nat → Nat → Int → Option Bool
  | 0, _, _, _ => none
  | fuel + 1, p, key, keyLength =>
    match comparePrefix (words p) key keyLength with
    | none => some false
    | some (key, keyLength) =>
      let i := offset (trieIndex (words p)) (key >>> 30)
      if i = 0 then some false
      else
        let data := words (p + i)
        if keyLength - 2 ≠ 0 then
          triev2ContainsLoop words fuel (wordToPtr data) (lshift32 key 2) (keyLength - 2)
        else some true

/-- `triev2_contains`. -/
def triev2Contains (words : Nat → Nat) (p key keyLength : Nat) : Option Bool :=
  if p = nullPtr then some false
  else triev2ContainsLoop words 16 p (lshift32 key (32 - keyLength)) keyLength

/-! ## insertion -/

/-- The variables of the loop of `triev2_insert`.  `pp` is `none` while it
points to the local variable `new_root`. -/
structure InsertState where
  memory : Memory
  key : Nat
  keyLength : Int
  p : Nat
  pp : Option Nat
  newRoot : Nat
  oldData : Nat

/-- `*pp = x`. -/
def InsertState.assign (s : InsertState) (x : Nat) : InsertState :=
  match s.pp with
  | none => { s with newRoot := x }
  | some a => { s with memory := s.memory.set a x }

/-- `new_p[1 + i] = p[j]` for each source `j` in the list, counted from `i`;
fields without a source are left alone. -/
@[simp] def copyFields (m : Memory) (newP p : Nat) : Nat → List (Option Nat) → Memory
  | _, [] => m
  | i, none :: fields => copyFields m newP p (i + 1) fields
  | i, some j :: fields =>
    copyFields (m.set (newP + 1 + i) (m.words (p + j))) newP p (i + 1) fields

/-- The branch `p == NULL_PTR`: a fresh node with one child, and as much of
the rest of the key in its prefix as fits. -/
def insertEmpty (s : InsertState) : InsertState :=
  if 2 < s.keyLength then
    let prefixLen := if s.keyLength < 22 then (s.keyLength - 2).toNat else 20
    let keyPrefix := s.key >>> (32 - prefixLen)
    let key := lshift32 s.key prefixLen
    let (newP, m) := s.memory.allocate 2 (uniCellType (key >>> 30))
    let m := m.set newP (m.words newP ||| ((prefixLen <<< 19) ||| keyPrefix))
    let s := { s with memory := m, key := key, keyLength := s.keyLength - prefixLen }
    { s.assign (ptrToWord newP) with pp := some (newP + 1) }
  else
    let (newP, m) := s.memory.allocate 2 (uniCellType (s.key >>> 30))
    let s := { s with memory := m }
    { s.assign (ptrToWord newP) with pp := some (newP + 1) }

/-- The switch: a copy of the node `p` in which the child for the next digit
is to be replaced. -/
def insertNode (s : InsertState) (fullPrefix : Nat) : InsertState :=
  let p := s.p
  let c := insertCase (trieIndex (s.memory.words p)) (s.key >>> 30)
  let oldData := (c.old.map fun i => s.memory.words (p + i)).getD nullWord
  let (newP, m) := s.memory.allocate (c.fields.length + 1) c.type
  let m := copyFields m newP p 0 c.fields
  let m := m.set newP (m.words newP ||| fullPrefix)
  let s := { s with memory := m, oldData := oldData }
  { s.assign (ptrToWord newP) with pp := some (newP + c.slot) }

/-- The label `split`: a node for the part of the prefix that agrees, with
the old node, its prefix shortened, as one child and a free slot for the
other. -/
def insertSplit (s : InsertState) (prefixLen nodePrefix keyPrefix : Nat) : InsertState :=
  let p := s.p
  let cti := trieIndex (s.memory.words p)
  let (oldP, m) := s.memory.allocate (cellSize cti) (trieCellType cti)
  let oldPrefixLen := highestBit (nodePrefix ^^^ keyPrefix) &&& 0xFFFFFFFE
  let oldPrefix := nodePrefix &&& (2 ^ oldPrefixLen - 1)
  let m := m.set oldP (m.words oldP ||| ((oldPrefixLen <<< 19) ||| oldPrefix))
  let m := copyFields m oldP p 0 ((List.range (cellSize cti - 1)).map fun i => some (i + 1))
  let prefixLen := prefixLen - (2 + oldPrefixLen)
  let oldDigit := (nodePrefix >>> oldPrefixLen) &&& 0x3
  let ct := biCellType (lshift32 s.key prefixLen >>> 30) oldDigit
  let (newP, m) := m.allocate 3 ct
  let (key, keyLength, m) :=
    if 0 < prefixLen then
      (lshift32 s.key prefixLen, s.keyLength - prefixLen,
        m.set newP (m.words newP ||| ((prefixLen <<< 19) ||| (s.key >>> (32 - prefixLen)))))
    else (s.key, s.keyLength, m)
  let m := m.set (newP + offset ct.trieIndex oldDigit) (ptrToWord oldP)
  let s := { s with memory := m, key := key, keyLength := keyLength, oldData := nullWord }
  { s.assign (ptrToWord newP) with pp := some (newP + offset ct.trieIndex (key >>> 30)) }

/-- The branch for a node with the prefix bits `fullPrefix`: compare them with
the key. -/
def insertDescend (s : InsertState) (fullPrefix : Nat) : InsertState :=
  if fullPrefix ≠ 0 then
    let prefixLen := prefixLength fullPrefix
    let keyPrefix := s.key >>> (32 - prefixLen)
    if nodePrefix fullPrefix ≠ keyPrefix then
      insertSplit s prefixLen (nodePrefix fullPrefix) keyPrefix
    else
      insertNode { s with key := lshift32 s.key prefixLen, keyLength := s.keyLength - prefixLen }
        fullPrefix
  else insertNode s fullPrefix

/-- One turn of the loop of `triev2_insert`. -/
def insertStep (s : InsertState) : InsertState :=
  let s :=
    if s.p = nullPtr then insertEmpty s
    else insertDescend s (s.memory.words s.p &&& fullPrefixMask)
  { s with key := lshift32 s.key 2, keyLength := s.keyLength - 2 }

/-- The loop of `triev2_insert`. -/
def insertLoop : Nat → InsertState → Option InsertState
  | 0, _ => none
  | fuel + 1, s =>
    let s := insertStep s
    if s.keyLength ≠ 0 then insertLoop fuel { s with p := wordToPtr s.oldData } else some s

/-- The end of `triev2_insert`: put the data in the last slot, unless that
changes nothing. -/
def insertFinish (root ap : Nat) (f : Option UpdateFunction) (data : Nat) (s : InsertState) :
    Nat × Memory :=
  if s.oldData ≠ nullWord then
    let (data, m) := UpdateFunction.call f s.oldData data s.memory
    if s.oldData = data then (root, m.restoreAllocationPoint ap)
    else
      let s := { s with memory := m }.assign data
      (wordToPtr s.newRoot, s.memory)
  else
    let s := s.assign data
    (wordToPtr s.newRoot, s.memory)

/-- The variables before the loop. -/
def insertStart (m : Memory) (root key keyLength : Nat) : InsertState where
  memory := m
  key := lshift32 key (32 - keyLength)
  keyLength := keyLength
  p := root
  pp := none
  newRoot := nullWord
  oldData := nullWord

/-- `triev2_insert`. -/
def triev2Insert (m : Memory) (root key keyLength : Nat) (f : Option UpdateFunction)
    (data : Nat) : Option (Nat × Memory) :=
  (insertLoop 16 (insertStart m root key keyLength)).map
    (insertFinish root m.allocationPtr f data)

/-! ## deletion -/

/-- An entry of the vector `path`: a node on the way to the key, the digit
taken there and the position of the child. -/
structure PathEntry where
  node : Nat
  ix : Nat
  offset : Nat

/-- What the search of `triev2_delete` ends with. -/
inductive Search where
  | absent
  | found (path : List PathEntry) (oldData : Nat)

/-- The first loop of `triev2_delete`; the path is kept with its last entry
first. -/
def deleteSearch (words : Nat → Nat) : Nat → Nat → Nat → Int → List PathEntry → Option Search
  | 0, _, _, _, _ => none
  | fuel + 1, p, key, keyLength, path =>
    match comparePrefix (words p) key keyLength with
    | none => some .absent
    | some (key, keyLength) =>
      let ix := key >>> 30
      let i := offset (trieIndex (words p)) ix
      if i = 0 then some .absent
      else
        let path := ⟨p, ix, i⟩ :: path
        let oldData := words (p + i)
        if keyLength - 2 ≠ 0 then
          deleteSearch words fuel (wordToPtr oldData) (lshift32 key 2) (keyLength - 2) path
        else some (.found path oldData)

/-- The children of a node other than the one for digit `ix`, in order. -/
def remainingChildren (words : Nat → Nat) (p cti ix : Nat) : List Nat :=
  ((List.range 4).filter fun j => offset cti j ≠ 0 ∧ j ≠ ix).map fun j => words (p + offset cti j)

/-- `new_p[1 + i] = x` for each word `x` in the list, counted from `i`. -/
def storeFields (m : Memory) (newP : Nat) : Nat → List Nat → Memory
  | _, [] => m
  | i, x :: xs => storeFields (m.set (newP + 1 + i) x) newP (i + 1) xs

/-- The case of a node with two children of which one goes: join the node
with its only descendant `q` if that is a node and the prefixes fit together,
else keep it with the one child.  The word of that child is stored as it is:
`PTR_TO_WORD` undoes `WORD_TO_PTR`. -/
def deleteMerge (m : Memory) (e : PathEntry) (isLast : Bool) : Nat × Memory :=
  let p := e.node
  let p0 := m.words p
  let cti := trieIndex p0
  let q := wordToPtr (m.words (p + (3 - e.offset)))
  let q0 := m.words q
  if ¬ isLast ∧ prefixLength p0 + prefixLength q0 ≤ 18 then
    let qti := trieIndex q0
    let (newP, m) := m.allocate (cellSize qti) (trieCellType qti)
    let nodePrefix' := lshift32 (nodePrefix p0) 2
    let nodePrefix' := nodePrefix' ||| deoffset cti (2 - e.offset)
    let nodePrefix' := lshift32 nodePrefix' (prefixLength q0)
    let nodePrefix' := nodePrefix' ||| nodePrefix q0
    let m := m.set newP
      (m.words newP ||| (((prefixLength p0 + prefixLength q0 + 2) <<< 19) ||| nodePrefix'))
    (newP, copyFields m newP q 0 ((List.range (cellSize qti - 1)).map fun i => some (i + 1)))
  else
    let i := (cellTypeWithout cti e.ix).trieIndex
    let (newP, m) := m.allocate 2 (trieCellType i)
    let m := m.set newP (m.words newP ||| (p0 &&& fullPrefixMask))
    (newP, m.set (newP + 1) (m.words (p + (3 - e.offset))))

/-- The loop that takes the key away: nodes whose only child goes disappear,
and the first other node is replaced.  The result is `none` if the tree
became empty, else the new node with the path above it. -/
def deleteShrink (m : Memory) : List PathEntry → Bool → Option (Nat × Memory × List PathEntry)
  | [], _ => none
  | e :: path, isLast =>
    let p0 := m.words e.node
    let cti := trieIndex p0
    let cs := cellSize cti
    if cs = 3 then
      let (newP, m) := deleteMerge m e isLast
      some (newP, m, path)
    else if cs = 4 ∨ cs = 5 then
      let i := (cellTypeWithout cti e.ix).trieIndex
      let (newP, m) := m.allocate (cs - 1) (trieCellType i)
      let m := m.set newP (m.words newP ||| (p0 &&& fullPrefixMask))
      some (newP, storeFields m newP 0 (remainingChildren m.words e.node cti e.ix), path)
    else deleteShrink m path false

/-- The loop after the label `out`: copy the nodes of the path with the new
word in place of the old child.  Returns the last node made, `newP` if there
is none. -/
def deleteRebuild (m : Memory) (newP data : Nat) : List PathEntry → Nat × Memory
  | [] => (newP, m)
  | e :: path =>
    let p := e.node
    let cs := cellSize (trieIndex (m.words p))
    let (newP, m) := m.allocate cs (trieCellType (trieIndex (m.words p)))
    let m := m.set newP (m.words p)
    let m := copyFields m newP p 0 ((List.range (cs - 1)).map fun i => some (i + 1))
    let m := m.set (newP + e.offset) data
    deleteRebuild m newP (ptrToWord newP) path

/-- What `triev2_delete` does once the key is found. -/
def deleteFound (m : Memory) (root : Nat) (f : Option UpdateFunction) (data : Nat)
    (path : List PathEntry) (oldData : Nat) : Nat × Memory :=
  let (data, m) := UpdateFunction.call f oldData data m
  if data = oldData then (root, m)
  else if data = nullWord then
    match deleteShrink m path true with
    | none => (nullPtr, m)
    | some (newP, m, path) => deleteRebuild m newP (ptrToWord newP) path
  else deleteRebuild m nullPtr data path

/-- `triev2_delete`. -/
def triev2Delete (m : Memory) (root key keyLength : Nat) (f : Option UpdateFunction)
    (data : Nat) : Option (Nat × Memory) :=
  if root = nullPtr then some (nullPtr, m)
  else
    (deleteSearch m.words 16 root (lshift32 key (32 - keyLength)) keyLength []).map fun
      | .absent => (root, m)
      | .found path oldData => deleteFound m root f data path oldData

end Shades
