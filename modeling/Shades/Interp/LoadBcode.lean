import Shades.CellDecls
import Shades.Queue.Code
import Shades.Shtring.Create
import Shades.Shtring.Intern
import Shades.TwoWayCache

/-!
# Shades.Interp.LoadBcode

`load_bcode` of `interp.c`, which makes byte code known under its name, and the
caches of the tables that it changes.

A root of the database leads to three tables: the byte codes and the global
values, tries with the numbers of interned names as keys, and the intern table
itself.  The interpreter keeps the answers of the first two in two-way caches,
which are flushed whenever something else than `global_set` changes a table.
-/

namespace Shades

/-! ## the caches -/

/-- `~0UL` in a word: no entry of a cache. -/
def invalidId : Nat := 0xFFFFFFFF

/-- `ID_TO_GLOBAL_CACHE_LINE`, with 128 lines. -/
def globalCacheLine (id : Nat) : Nat := id &&& 127

/-- `BCODE_ID_TO_CACHE_LINE`, with 16 lines. -/
def bcodeCacheLine (id : Nat) : Nat := id &&& 15

/-- The variables of the interpreter for the tables: three pointers of the root
block and the caches. -/
structure Tables where
  memory : Memory
  globals : Nat
  bcodes : Nat
  internedShtrings : Nat
  globalCache : TwoWayCache Nat Nat Nat
  bcodeCache : TwoWayCache Nat Nat Nat

namespace Tables

/-- `flush_global_cache`. -/
def flushGlobalCache (s : Tables) : Tables :=
  { s with globalCache := s.globalCache.flush invalidId }

/-- `flush_bcode_cache`. -/
def flushBcodeCache (s : Tables) : Tables :=
  { s with bcodeCache := s.bcodeCache.flush invalidId }

/-- `global_get`. -/
def globalGet (s : Tables) (id : Nat) : Option (Nat × Tables) :=
  (s.globalCache.get globalCacheLine id (triev2Find s.memory.words s.globals id 32)).map
    fun (value, cache) => (value, { s with globalCache := cache })

/-- `global_set`. -/
def globalSet (s : Tables) (value id : Nat) : Option Tables :=
  let s := { s with globalCache := s.globalCache.set globalCacheLine id value }
  (triev2Insert s.memory s.globals id 32 none value).map fun (globals, m) =>
    { s with memory := m, globals := globals }

/-- `bcode_get`. -/
def bcodeGet (s : Tables) (id : Nat) : Option (Nat × Tables) :=
  (s.bcodeCache.get bcodeCacheLine id
    ((triev2Find s.memory.words s.bcodes id 32).map wordToPtr)).map
      fun (bcode, cache) => (bcode, { s with bcodeCache := cache })

end Tables

/-! ## what byte code allocates -/

/-- `MAX_NUMBER_OF_WORDS_IN_CONT`. -/
def maxNumberOfWordsInCont : Nat := 254

/-- `CONTEXT_MAX_ALLOCATION`. -/
def contextMaxAllocation : Nat := 5

/-- `CSW_MAX_ALLOCATION`. -/
def cswMaxAllocation : Nat := 2 * queueMaxAllocation + contextMaxAllocation

/-- The `insn_max_alloc` of an instruction with the first immediate `imm`. -/
def Insn.maxAllocation (insn : Insn) (imm : Nat) : Nat :=
  match insn with
  | .rebindObjField | .insertObjField => triev2MaxAllocation + 2
  | .declareObjIsa => 2 * triev2MaxAllocation + 2
  | .insertObjMethod => 3 * triev2MaxAllocation
  | .makeNewProto => 2
  | .inheritNewProto => 2 * triev2MaxAllocation + 2
  | .multipleInherit => 6 * triev2MaxAllocation + 2 * 2
  | .bind | .call | .tailCall | .callGlobal | .callGlobal01 | .callGlobal2 | .callGlobal3
    | .callGlobal4 | .callGlobalWithToAsContPtr | .callGlobalWithToAsContPtr01
    | .callGlobalWithToAsContPtr2 | .callGlobalWithToAsContPtr3 | .callGlobalWithToAsContPtr4
    | .callGlobalWithNextBcodeAsPtr | .callGlobalWithNextBcodeAsPtr01
    | .callGlobalWithNextBcodeAsPtr2 | .callGlobalWithNextBcodeAsPtr3
    | .callGlobalWithNextBcodeAsPtr4 | .callGlobalWithToAsContPtrAndNextBcodeAsPtr
    | .callGlobalWithToAsContPtrAndNextBcodeAsPtr01
    | .callGlobalWithToAsContPtrAndNextBcodeAsPtr2
    | .callGlobalWithToAsContPtrAndNextBcodeAsPtr3
    | .callGlobalWithToAsContPtrAndNextBcodeAsPtr4 | .tailCallGlobal | .tailCallGlobal01
    | .tailCallGlobal2 | .tailCallGlobal3 | .tailCallGlobal4 | .tailCallGlobalWithToAsContPtr
    | .tailCallGlobalWithToAsContPtr01 | .tailCallGlobalWithToAsContPtr2
    | .tailCallGlobalWithToAsContPtr3 | .tailCallGlobalWithToAsContPtr4 => maxNumberOfWordsInCont
  | .intToString => 300
  | .setGlobal => triev2MaxAllocation
  | .rCons | .cons => 3
  | .tupleMake | .makeWordVector => 1 + imm
  | .listAppend => 20 * 3
  | .trieInsert => (16 + 1) * 5
  | .spawn => maxNumberOfWordsInCont + contextMaxAllocation + queueMaxAllocation
  | .netAccept | .netReadChar | .netWriteChar | .netReadShtring | .netWriteShtring | .netClose =>
    contextMaxAllocation + (16 + 1) * 5
  | _ => 0

/-- The loop that sums up the `insn_max_alloc` of the instructions.  An unknown
instruction fails an assertion. -/
def maxAllocationCtr : Nat → List Nat → Option Nat
  | _, [] => some 0
  | 0, _ :: _ => none
  | fuel + 1, x :: xs => do
    let insn ← insnOfCode x
    let rest ← maxAllocationCtr fuel (xs.drop (insn.size - 1))
    some (insn.maxAllocation (xs.headD 0) + rest)

/-- The loop that puts the interned strings in the place of their numbers. -/
def resolveStrings (words : Nat → Nat) (internRoot : Nat) : Nat → List Nat → Option (List Nat)
  | _, [] => some []
  | 0, _ :: _ => none
  | fuel + 1, x :: xs => do
    let insn ← insnOfCode x
    if insn = .loadImmString then
      let id ← xs.head?
      let shtring ← shtringLookupByInternId words internRoot id
      assert (ptrToWord shtring ≠ nullWord)
      let rest ← resolveStrings words internRoot fuel xs.tail
      some (x :: ptrToWord shtring :: rest)
    else
      let rest ← resolveStrings words internRoot fuel (xs.drop (insn.size - 1))
      some (x :: xs.take (insn.size - 1) ++ rest)

/-! ## `load_bcode` -/

/-- The arguments of `load_bcode`.  A C string is an array that may be aligned. -/
structure RawBcode where
  name : List Nat
  aligned : Bool
  accuType : WordType
  contIsReusable : Nat
  bcodeIsEntry : Bool
  stackTypes : List WordType
  maxStackDepth : Nat
  code : List Nat

/-- What `load_bcode` returns: `1` if the first generation is exhausted, `2` if
the frame is too large, `0` with the number of the byte code. -/
inductive LoadResult where
  | exhausted
  | frameTooLarge
  | loaded (bcodeId : Nat)
  deriving DecidableEq

/-- The words that have to be free. -/
def RawBcode.numberOfWords (raw : RawBcode) : Nat :=
  7 + raw.stackTypes.length + raw.code.length + triev2MaxAllocation +
    shtringCreateMaxAllocation raw.name.length + shtringInternMaxAllocation +
    if raw.bcodeIsEntry then 3 + raw.maxStackDepth + triev2MaxAllocation else 0

/-- The slots of the byte code that are filled once its frame is known not to be
too large. -/
def RawBcode.fill (raw : RawBcode) (internRoot bcode : Nat) (m : Memory) : Option Memory := do
  let m := m.set (bcode + 6) (3 + raw.maxStackDepth)
  let maxAllocation ← maxAllocationCtr raw.code.length raw.code
  let m := m.set (bcode + 5) (maxAllocation + cswMaxAllocation)
  let code ← resolveStrings m.words internRoot raw.code.length raw.code
  let m := fillCell bcode 7 code m
  some (fillCell bcode (7 + raw.code.length) (raw.stackTypes.map WordType.code) m)

/-- The number of the name, with the intern root.  `load_bcode` exits if
`shtring_create` fails. -/
def RawBcode.internName (raw : RawBcode) (firstGenerationSize internRoot : Nat) (m : Memory) :
    Option (ShtringInternResult × Memory) := do
  let (shtring, m) ← shtringCreate firstGenerationSize raw.aligned m raw.name
  shtringIntern m internRoot (← shtring)

/-- The continuation prototype of an entry point: a frame without arguments. -/
def contPrototype (m : Memory) (bcode size : Nat) : Nat × Memory :=
  let (cont, m) := m.allocate size .cont
  (cont, ((m.set cont (m.words cont ||| size <<< 12)).set (cont + 1) (ptrToWord bcode)).set
    (cont + 2) nullWord)

/-- The end of `load_bcode`, for an entry point. -/
def Tables.loadEntry (s : Tables) (raw : RawBcode) (bcode bcodeId : Nat) : Option Tables := do
  assert (s.memory.canAllocate (3 + raw.maxStackDepth))
  let (cont, m) := contPrototype s.memory bcode (3 + raw.maxStackDepth)
  let s := s.flushGlobalCache
  let (globals, m) ← triev2Insert m s.globals bcodeId 32 none (ptrToWord cont)
  some { s with memory := m, globals := globals }

/-- `load_bcode`. -/
def Tables.loadBcode (firstGenerationSize : Nat) (s : Tables) (raw : RawBcode) :
    Option (LoadResult × Tables) :=
  if ¬ s.memory.canAllocate raw.numberOfWords then some (.exhausted, s)
  else do
    let (bcode, m) := s.memory.allocate (7 + raw.stackTypes.length + raw.code.length) .bcode
    assert (raw.stackTypes.length ≤ raw.maxStackDepth)
    let m := fillCell bcode 1
      [raw.accuType.code, raw.stackTypes.length, raw.code.length, raw.contIsReusable] m
    if maxNumberOfWordsInCont < 3 + raw.maxStackDepth then
      some (.frameTooLarge, { s with memory := m })
    else
      let m ← raw.fill s.internedShtrings bcode m
      let (r, m) ← raw.internName firstGenerationSize s.internedShtrings m
      let bcodeId := r.internedShtringId
      let s := s.flushBcodeCache
      let (bcodes, m) ← triev2Insert m s.bcodes bcodeId 32 none (ptrToWord bcode)
      let m := m.set bcode (m.words bcode ||| bcodeId)
      let s := { s with memory := m, bcodes := bcodes, internedShtrings := r.newInternRoot }
      let s ← if raw.bcodeIsEntry then s.loadEntry raw bcode bcodeId else some s
      some (.loaded bcodeId, s)

end Shades
