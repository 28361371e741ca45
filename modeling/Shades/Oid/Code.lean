import Shades.Triev2.Vacant

/-!
# Shades.Oid.Code

The object identities (`oid.c`): a trie from numbers of 30 bits to words, with the root
words that help to find a number that is not in use.  An oid is such a number, shifted
left by two bits, with a tag in these bits.

`NULL_WORD` is not a value of an oid: it is what the trie has for the numbers that are
not in use.
-/

namespace Shades

/-- `TAGGED_IS_OID`. -/
def taggedIsOid (x : Nat) : Bool := x &&& 0x3 == 2

/-- What `triev2_find_nonexistent_key` returns if there is none, and `INVALID_OID`. -/
def invalidOid : Nat := 0xFFFFFFFF

/-- The memory and the root words of `oid.c`. -/
structure OidTable where
  memory : Memory
  oidMap : Nat
  oidFreelist : Nat
  oidInUse : Nat
  oidMax : Nat
  oidAllocationCursor : Nat
  oidPrevRandom : Nat

namespace OidTable

/-- The root words as `root-def.h` sets them. -/
def initial (m : Memory) : OidTable where
  memory := m
  oidMap := ptrToWord nullPtr
  oidFreelist := ptrToWord nullPtr
  oidInUse := 0
  oidMax := 0
  oidAllocationCursor := 0
  oidPrevRandom := 0

/-- `triev2_find(GET_ROOT_PTR(oid_map), oid, 30)`. -/
def find (t : OidTable) (oid : Nat) : Option Nat :=
  triev2Find t.memory.words (wordToPtr t.oidMap) oid 30

/-- `triev2_find_nonexistent_key(GET_ROOT_PTR(oid_map), tmp, 30)`. -/
def findNonexistentKey (t : OidTable) (tmp : Nat) : Option Nat :=
  triev2FindNonexistentKey t.memory.words (wordToPtr t.oidMap) tmp 30

end OidTable

/-! ## allocation -/

/-- The range after the one at `tmp`. -/
def nextRange (t : OidTable) (tmp : Nat) : Nat :=
  if t.oidMax ≤ add32 tmp 16 then 0 else add32 tmp 16

/-- The loop that tries the next two ranges: the number that it found, if any. -/
def tryRanges : Nat → OidTable → Nat → Option (Option Nat × OidTable)
  | 0, t, _ => some (none, t)
  | i + 1, t, tmp => do
    let oid ← t.findNonexistentKey tmp
    if oid = invalidOid then
      tryRanges i { t with oidAllocationCursor := nextRange t tmp } (nextRange t tmp)
    else if oid < t.oidMax then do
      assert (oid < add32 tmp 16)
      some (some oid, t)
    else tryRanges i t tmp

/-- The search around `oid_allocation_cursor`. -/
def searchCursor (t : OidTable) : Option (Option Nat × OidTable) := do
  let tmp := t.oidAllocationCursor
  assert (tmp % 16 = 0)
  let oid ← t.findNonexistentKey tmp
  if oid = invalidOid then
    tryRanges 2 { t with oidAllocationCursor := nextRange t tmp } (nextRange t tmp)
  else if oid < t.oidMax then do
    assert (oid < add32 tmp 16)
    some (some oid, t)
  else some (none, t)

/-- How often a random point is tried. -/
def randomTries (t : OidTable) : Nat :=
  if t.oidMax < add32 t.oidInUse (t.oidInUse >>> 4) then 0
  else if t.oidMax < add32 t.oidInUse (t.oidInUse >>> 3) then 1
  else if t.oidMax < add32 t.oidInUse (t.oidInUse >>> 2) then 2
  else if t.oidMax < add32 t.oidInUse (t.oidInUse >>> 1) then 5
  else 16

/-- The loop over random points; `random i` is what `random()` returns when `i` is
the number of tries that are left after this one. -/
def tryRandom (random : Nat → Nat) : Nat → OidTable → Option (Option Nat × OidTable)
  | 0, t => some (none, { t with oidPrevRandom := invalidOid })
  | i + 1, t => do
    let tmp := random i % t.oidMax &&& 0xFFFFFFF0
    let oid ← t.findNonexistentKey tmp
    if oid < t.oidMax then some (some oid, { t with oidPrevRandom := tmp })
    else tryRandom random i t

/-- The place where the random search was successful before. -/
def searchPrevRandom (t : OidTable) : Option (Option Nat) :=
  if t.oidPrevRandom ≠ invalidOid then do
    assert (t.oidPrevRandom % 16 = 0)
    let oid ← t.findNonexistentKey t.oidPrevRandom
    some (if oid < t.oidMax then some oid else none)
  else some none

/-- The search at random points. -/
def searchRandom (random : Nat → Nat) (t : OidTable) : Option (Option Nat × OidTable) :=
  if 0 < t.oidMax then do
    match ← searchPrevRandom t with
    | some oid => some (some oid, t)
    | none => tryRandom random (randomTries t) t
  else some (none, t)

/-- `oid_allocate` after the label `found`. -/
def allocateFound (t : OidTable) (oid value : Nat) : Option (Nat × OidTable) := do
  let old ← t.find oid
  assert (old = nullWord)
  let (root, m) ← triev2Insert t.memory (wordToPtr t.oidMap) oid 30 none value
  some (lshift32 oid 2 ||| 0x2,
    { t with memory := m, oidInUse := add32 t.oidInUse 1, oidMap := ptrToWord root })

/-- `oid_allocate`. -/
def oidAllocate (random : Nat → Nat) (t : OidTable) (value : Nat) : Option (Nat × OidTable) :=
  if t.oidFreelist ≠ nullWord then
    let p := wordToPtr t.oidFreelist
    allocateFound { t with oidFreelist := t.memory.words (p + 2) } (t.memory.words (p + 1)) value
  else do
    let (oid, t) ← searchCursor t
    match oid with
    | some oid => allocateFound t oid value
    | none => do
      let (oid, t) ← searchRandom random t
      match oid with
      | some oid => allocateFound t oid value
      | none => allocateFound { t with oidMax := add32 t.oidMax 1 } t.oidMax value

/-! ## disposal -/

namespace UpdateFunction

variable (f : Nat → Nat → Nat) (x y : Nat) (m : Memory)

theorem extends_ofData (_ : m.canAllocate 0) : m.Extends (f x y, m).2 := .refl m

theorem allocationPtr_ofData : m.allocationPtr ≤ (f x y, m).2.allocationPtr + 0 := Nat.le_refl _

/-- An update function that allocates nothing. -/
def ofData : UpdateFunction where
  apply x y m := (f x y, m)
  maxAllocation := 0
  extends_apply := extends_ofData f
  allocationPtr_apply := allocationPtr_ofData f

end UpdateFunction

/-- `oid_dispose_f`. -/
def oidDisposeF : UpdateFunction := .ofData fun _ _ => nullWord

/-- What `old_value` is after `triev2_delete` with `oid_dispose_f`, which is called with
the data of the number. -/
def disposedValue (t : OidTable) (oid : Nat) : Option Nat :=
  if wordToPtr t.oidMap = nullPtr then some nullWord
  else
    (deleteSearch t.memory.words 16 (wordToPtr t.oidMap) (lshift32 oid 2) 30 []).map fun
      | .absent => nullWord
      | .found _ oldData => oldData

/-- `oid_dispose`. -/
def oidDispose (t : OidTable) (oid : Nat) : Option (Nat × OidTable) := do
  assert (taggedIsOid oid)
  let oid := oid >>> 2
  assert (oid ≤ t.oidMax)
  let (freelist, m) := t.memory.allocate 3 .oidFreelist
  let m := (m.set (freelist + 1) oid).set (freelist + 2) t.oidFreelist
  let t := { t with memory := m, oidFreelist := ptrToWord freelist, oidInUse := sub32 t.oidInUse 1 }
  let oldValue ← disposedValue t oid
  let (root, m) ← triev2Delete t.memory (wordToPtr t.oidMap) oid 30 (some oidDisposeF) nullWord
  let t := { t with memory := m, oidMap := ptrToWord root }
  let left ← t.find oid
  assert (left = nullWord)
  some (oldValue, t)

/-! ## reference and update -/

/-- `oid_ref`. -/
def oidRef (t : OidTable) (oid : Nat) : Option Nat := do
  assert (taggedIsOid oid)
  let oid := oid >>> 2
  assert (oid ≤ t.oidMax)
  t.find oid

/-- `oid_update_f`. -/
def oidUpdateF : UpdateFunction := .ofData fun _ newData => newData

/-- What `old_value` is after `triev2_insert` with `oid_update_f`, which is called with
the data of the key, if there is any. -/
def updatedValue (t : OidTable) (key : Nat) : Option Nat :=
  (insertLoop 16 (insertStart t.memory (wordToPtr t.oidMap) key 30)).map InsertState.oldData

/-- `oid_update`: the oid is the key of the trie, with its tag. -/
def oidUpdate (t : OidTable) (oid newValue : Nat) : Option (Nat × OidTable) := do
  assert (taggedIsOid oid)
  assert (oid ≤ t.oidMax)
  let oldValue ← updatedValue t oid
  let (root, m) ← triev2Insert t.memory (wordToPtr t.oidMap) oid 30 (some oidUpdateF) newValue
  some (oldValue, { t with memory := m, oidMap := ptrToWord root })

end Shades
