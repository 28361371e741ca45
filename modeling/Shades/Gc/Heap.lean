import Shades.CellDecls
import Shades.Root
import Shades.Gc.Generations

/-!
# Shades.Gc.Heap

The copying collector of `shades.c`, and commits as a whole.

The memory is an array of words: the pages of the database, above them the first
generation, and elsewhere the root block and the smart pointers.  `copy_cell` copies
the cell that a slot refers to, leaves a forward pointer in its place and pushes the
slots of the copy; `drain_copy_stack` goes on until no slot is left.  What a slot in a
copy refers to is copied if it is being collected, and the slot is remembered if it is
to be collected later.  The sizes and the slots of cells are those of `cells-def.h`.

The table of generations is `Generations`, and the remembered sets are the lists of
what was put in them, the newest first.  Freed memory is not overwritten with cookies
here, and what is written to disk is not kept.
-/

namespace Shades

/-! ## cells -/

/-- `cell_get_number_of_words`: the second argument of `CELL`. -/
def cellGetNumberOfWords (words : Nat → Nat) (p : Nat) : Nat :=
  let p0 := words p
  match cellTypeOf p0 with
  | none => 0
  | some .bonk | some .object | some .lqItem00 | some .forwardPointer | some .trie1 | some .trie2
    | some .trie3 | some .trie4 => 2
  | some .list | some .oidFreelist | some .lqEntryPoint | some .lqItem01 | some .lqItem10
    | some .avlLeaf | some .history | some .trie12 | some .trie13 | some .trie14 | some .trie23
    | some .trie24 | some .trie34 => 3
  | some .oidObject | some .lqItem11 | some .priqItem | some .avlInternal
    | some .shtringInternRoot | some .shtringInternNode | some .trie123 | some .trie124
    | some .trie134 | some .trie234 => 4
  | some .queue | some .quadTrie | some .shtring | some .shtringCursor | some .context
    | some .trie1234 => 5
  | some .queueRev => 11
  | some .wordVector => (p0 &&& 0xFFFFFF) + 1
  | some .internal => internalNodeSize + 1
  | some .leaf => 2 * (p0 &&& 0xFFFFFF) + 1
  | some .ist234 => 3 * (p0 &&& 0xFFFFFF) - 1
  | some .tuple => (p0 &&& 0xFFF) + ((p0 >>> 12) &&& 0xFFF) + 1
  | some .shtringChunk => ((p0 &&& 0xFFFFFF) + 3) / 4 + 1
  | some .shtringNode => (p0 &&& 0xFF) + 3
  | some .bcode => words (p + 2) + words (p + 3) + 7
  | some .cont => (p0 >>> 12) &&& 0xFFF
  | some .generationPinfo => 4 + 2 * (p0 &&& 0xFFF)

/-! ## the state -/

/-- Why a function of the collector does not return. -/
inductive HeapFailure where
  /-- A function of the table of generations does not. -/
  | generations (failure : GcFailure)
  /-- An `assert` on pointers, or the one in `PAGE_SET_NUMBER_OF_WORDS_IN_USE`. -/
  | assertion
  /-- The `assert` on `copy_stack_ptr`. -/
  | copyStack
  /-- The declaration block of a cell, or the `switch` over the cell types. -/
  | abort
  /-- The `assert`s that a generation has no more pages than the root block has room for,
  and that its description can be allocated. -/
  | noRoom
  /-- A loop that goes on forever. -/
  | endless
  deriving DecidableEq

/-- Pointers are indices of words, and so are the bounds of the first generation and the
address of the root block, which is outside of the memory that is allocated. -/
structure HeapParams extends GenerationParams where
  wordsPerPage : Nat
  firstGenerationEnd : Nat
  numberOfWordsInFirstGeneration : Nat
  root : Nat
  pageSize_eq : pageSize = 4 * wordsPerPage
  /-- `PAGE_SIZE > ROOT_BLOCK_SIZE`. -/
  wordsPerPage_gt : numberOfRootBlockItems < wordsPerPage
  pages_le : numberOfPages * wordsPerPage ≤ firstGenerationEnd
  root_ge : firstGenerationEnd + numberOfWordsInFirstGeneration ≤ root
  /-- `relative_mature_generation_size <= 1.0`. -/
  fits_le : ∀ npages, fitsMatureGeneration npages = true →
    npages * wordsPerPage ≤ numberOfWordsInFirstGeneration

namespace HeapParams

def firstGenerationStart (params : HeapParams) : Nat :=
  params.firstGenerationEnd + params.numberOfWordsInFirstGeneration

/-- `PAGE_NUMBER_TO_PAGE_PTR`. -/
def pageNumberToPagePtr (params : HeapParams) (pn : Nat) : Nat := pn * params.wordsPerPage

/-- `PTR_TO_PAGE_NUMBER`. -/
def ptrToPageNumber (params : HeapParams) (p : Nat) : Nat := p / params.wordsPerPage

/-- `&root[ROOT_IX_...]`. -/
def rootSlot (params : HeapParams) (r : RootIx) : Nat := params.root + r.ix

/-- The addresses of the pointers in the root block. -/
def rootPtrSlots (params : HeapParams) : List Nat :=
  ((List.range numberOfRootIxs).filter fun i => rootIxIsPtr i).map (params.root + ·)

end HeapParams

/-- The addresses in `smartPtrs` are those of the `ptr`s in the ring of smart pointers. -/
structure Heap where
  gens : Generations
  words : Nat → Nat
  allocationPtr : Nat
  toPtr : Nat
  toEnd : Nat
  /-- The top comes first. -/
  copyStack : List Nat
  remSets : Nat → List Nat
  smartPtrs : List Nat

namespace Heap

/-- `*p = x`. -/
def set (s : Heap) (p x : Nat) : Heap := { s with words := Function.update s.words p x }

/-- `PUSH_TO_COPY_STACK`. -/
def push (s : Heap) (pp : Nat) : Heap := { s with copyStack := pp :: s.copyStack }

/-- The generations after a function on them. -/
def withGens (s : Heap) (gens : Except GcFailure Generations) : Except HeapFailure Heap :=
  match gens with
  | .ok gens => .ok { s with gens := gens }
  | .error failure => .error (.generations failure)

section collector

variable (params : HeapParams)

/-! ## pages to copy to -/

def startGc (s : Heap) : Heap := { s with gens := s.gens.startGc, toPtr := nullPtr, toEnd := nullPtr }

/-- `PAGE_SET_NUMBER_OF_WORDS_IN_USE` for the page that was copied to, if there is one. -/
def setNumberOfWordsInUse (s : Heap) : Except HeapFailure Heap :=
  match s.gens.toPn with
  | none => .ok s
  | some pn =>
    let page := params.pageNumberToPagePtr pn
    if page ≤ s.toPtr ∧ s.toPtr ≤ page + params.wordsPerPage then
      .ok (s.set (page + 1) (s.toPtr - page))
    else .error .assertion

def newToPage (s : Heap) : Except HeapFailure Heap := do
  let s ← s.setNumberOfWordsInUse params
  let s ← s.withGens s.gens.newToPage
  match s.gens.toPn with
  | none => .error .assertion
  | some pn =>
    let page := params.pageNumberToPagePtr pn
    .ok { s with toPtr := page + 2, toEnd := page + params.wordsPerPage }

/-- The place for a copy of so many words. -/
def reserve (numberOfWords : Nat) (s : Heap) : Except HeapFailure (Nat × Heap) := do
  let s ← (if s.toEnd < s.toPtr + numberOfWords then s.newToPage params else .ok s)
  .ok (s.toPtr, { s with toPtr := s.toPtr + numberOfWords })

/-- The pages of the generation are written to the disk pages `diskPages`. -/
def finishGc (diskPages : Nat → Nat) (s : Heap) : Except HeapFailure Heap := do
  let s ← s.setNumberOfWordsInUse params
  .ok { s with gens := Generations.finishGc diskPages s.gens }

/-! ## copying -/

/-- `DECLARE_WORD`, `DECLARE_PTR`, `DECLARE_NONNULL_PTR` and `DECLARE_TAGGED` of
`copy_cell`, where the cell at `p` is copied to `newP`. -/
def copyField (p newP : Nat) (s : Heap) : Decl → Except HeapFailure Heap
  | .abort => .error .abort
  | .field type i =>
    let newX := s.words (p + i)
    let newPx := newP + i
    let s := s.set newPx newX
    match type with
    | .word | .void => .ok s
    | .ptr => .ok (if newX ≠ nullWord then s.push newPx else s)
    | .nonnullPtr => if newX ≠ nullWord then .ok (s.push newPx) else .error .assertion
    | .tagged => .ok (if taggedIsPtr newX ∧ newX ≠ nullWord then s.push newPx else s)

/-- The cell at `p` is copied to the generation that is copied to. -/
def copyFields (p : Nat) (s : Heap) : Except HeapFailure (Nat × Heap) := do
  let decls := cellDecls s.words p
  let (newP, s) ← s.reserve params (cellGetNumberOfWords s.words p)
  let s ← decls.foldlM (copyField p newP) (s.set newP (s.words p))
  .ok (newP, s)

/-- `copy_cell`.  The text of it stands in `drain_copy_stack` again, where `to_ptr` and
`to_end` are kept in registers. -/
def copyCell (pp : Nat) (s : Heap) : Except HeapFailure Heap :=
  if s.words pp = nullWord then .error .assertion
  else
    let p := wordToPtr (s.words pp)
    if cellType (s.words p) = CellType.forwardPointer.code then .ok (s.set pp (s.words (p + 1)))
    else do
      let (newP, s) ← s.copyFields params p
      -- set up a forward pointer
      let s := s.set p CellType.forwardPointer.header
      let s := (s.set (p + 1) (ptrToWord newP)).set pp (ptrToWord newP)
      if s.copyStack.length < params.numberOfWordsInFirstGeneration then .ok s
      else .error .copyStack

def isInFirstGeneration (s : Heap) (p : Nat) : Except HeapFailure Bool :=
  if params.firstGenerationEnd ≤ p ∧ p < s.allocationPtr then .error .assertion
  else .ok (decide (s.allocationPtr ≤ p))

/-- `PTR_TO_GENERATION_INFO`, as a number instead of an address. -/
def generationOf (s : Heap) (p : Nat) : Nat :=
  (s.gens.pageGeneration (params.ptrToPageNumber p) - s.gens.generationInfo) / sizeofGenerationInfo

/-- The status of the generation that the cell is in. -/
def statusOf (s : Heap) (p : Nat) : GenerationStatus := s.gens.status (s.generationOf params p)

/-- `PREPEND_TO_REM_SET`. -/
def prependToRemSet (s : Heap) (gn ref : Nat) : Heap :=
  { s with remSets := Function.update s.remSets gn (ref :: s.remSets gn) }

/-- What `drain_copy_stack` does with a slot. -/
def drainSlot (pp : Nat) (s : Heap) : Except HeapFailure Heap :=
  if s.words pp = nullWord then .error .assertion
  else do
    let p := wordToPtr (s.words pp)
    let isFirst ← s.isInFirstGeneration params p
    if isFirst then s.copyCell params pp
    else
      match s.statusOf params p with
      | .normal => .ok s
      | .toBeCollected => .ok (s.prependToRemSet (s.generationOf params p) pp)
      | .beingCollected => s.copyCell params pp
      | _ => .error .assertion

def drainCopyStack : Nat → Heap → Except HeapFailure Heap
  | 0, _ => .error .endless
  | turns + 1, s =>
    match s.copyStack with
    | [] => .ok s
    | pp :: rest => do
      let s ← { s with copyStack := rest }.drainSlot params pp
      drainCopyStack turns s

/-! ## the root set -/

/-- `suspended_accu` is a pointer. -/
def accuIsPtr (s : Heap) : Bool :=
  match wordTypeOf (s.words (params.rootSlot .suspendedAccuType)) with
  | some .ptr | some .nonnullPtr => true
  | some .tagged => taggedIsPtr (s.words (params.rootSlot .suspendedAccu))
  | _ => false

/-- The slots that the collector starts from, in its order. -/
def rootSlots (s : Heap) : List Nat :=
  (if s.accuIsPtr params then [params.rootSlot .suspendedAccu] else []) ++ params.rootPtrSlots ++
    s.smartPtrs

/-- A slot of the root set is scanned.  `isFrom` tells what is collected. -/
def scanRoot (isFrom : Heap → Nat → Except HeapFailure Bool) (s : Heap) (pp : Nat) :
    Except HeapFailure Heap :=
  if s.words pp = nullWord then .ok s
  else do
    let from? ← isFrom s (wordToPtr (s.words pp))
    if from? then s.copyCell params pp else .ok s

/-- What a mature collection collects. -/
def isBeingCollected (s : Heap) (p : Nat) : Except HeapFailure Bool := do
  let isFirst ← s.isInFirstGeneration params p
  .ok (!isFirst && decide (s.statusOf params p = .beingCollected))

/-- Every slot that is drained was pushed by a copy and every cell is copied once, so there
are fewer turns than words. -/
def drain (s : Heap) : Except HeapFailure Heap :=
  s.drainCopyStack params (params.firstGenerationStart + 1)

/-! ## collecting the first generation -/

/-- `allocate_generation`: the remembered set of the generation is empty. -/
def allocateGeneration (s : Heap) : Except HeapFailure Heap := do
  let s ← s.withGens (Generations.allocateGeneration params.toGenerationParams s.gens)
  .ok { s with remSets := Function.update s.remSets s.gens.toGn [] }

/-- `collect_first_generation`.  The result has the number of referring pointers. -/
def collectFirstGeneration (diskPages : Nat → Nat) (s : Heap) :
    Except HeapFailure (Nat × Heap) := do
  let s ← s.startGc.allocateGeneration params
  let s := { s with
    gens := s.gens.insertGenerationAfter invalidGenerationNumber
    copyStack := [] }
  let s ← (s.rootSlots params).foldlM (scanRoot params (isInFirstGeneration params)) s
  let numberOfReferringPtrs := s.copyStack.length
  let s ← s.drain params
  let s ← s.finishGc params diskPages
  .ok (numberOfReferringPtrs, s)

/-! ## the descriptions of generations -/

/-- The page numbers and disk page numbers of a generation, in turn. -/
def pageWords (s : Heap) (gn : Nat) : List Nat :=
  (List.range (s.gens.npages gn)).flatMap fun i =>
    [(s.gens.page gn).getD i 0, (s.gens.diskPage gn).getD i 0]

/-- Words one after the other. -/
def setWords (p : Nat) : List Nat → Heap → Heap
  | [], s => s
  | x :: xs, s => setWords (p + 1) xs (s.set p x)

/-- `log_to_generation_pinfo_list`. -/
def logToGenerationPinfoList (numberOfFromGenerations numberOfReferringPtrs : Nat) (s : Heap) :
    Except HeapFailure Heap :=
  let gn := s.gens.toGn
  let npages := s.gens.npages gn
  let size := 4 + 2 * npages
  if npages ≤ maxGenerationSize ∧ params.firstGenerationEnd + size ≤ s.allocationPtr ∧
      size ≤ params.wordsPerPage - 2 then
    let p := s.allocationPtr - size
    let p0 := CellType.generationPinfo.header ||| (npages ||| numberOfFromGenerations <<< 12)
    let prev := s.words (params.rootSlot .generationPinfoList)
    let s := setWords p ([p0, prev, gn, numberOfReferringPtrs] ++ s.pageWords gn)
      { s with allocationPtr := p }
    .ok (s.set (params.rootSlot .generationPinfoList) (ptrToWord p))
  else .error .noRoom

/-- `cache_generation_pinfo_to_root`. -/
def cacheGenerationPinfoToRoot (numberOfReferringPtrs : Nat) (s : Heap) :
    Except HeapFailure Heap :=
  let gn := s.gens.youngestGn
  if s.gens.npages gn ≤ maxGenerationSize then
    .ok (setWords (params.rootSlot .youngestGenerationNumberOfPages)
      ([s.gens.npages gn, gn, numberOfReferringPtrs] ++ s.pageWords gn) s)
  else .error .noRoom

/-! ## a step of the mature collection -/

/-- The remembered sets of so many generations, from `gn` to older ones, are scanned. -/
def scanRemSets : Nat → Nat → Heap → Except HeapFailure Heap
  | 0, _, s => .ok s
  | n + 1, gn, s => do
    let s ← (s.remSets gn).foldlM (fun s pp =>
      if s.gens.pageGeneration (params.ptrToPageNumber (wordToPtr (s.words pp))) =
          s.gens.address gn then
        s.copyCell params pp
      else .error .assertion) s
    let s := { s with remSets := Function.update s.remSets gn [] }
    scanRemSets n (s.gens.older gn) s

/-- `major_gc_step`. -/
def majorGcStep (diskPages : Nat → Nat) (s : Heap) : Except HeapFailure (Nat × Heap) := do
  match s.gens.firstFromGn with
  | .error failure => .error (.generations failure)
  | .ok firstFromGn =>
    let s ← s.allocateGeneration params
    let s := { s with gens := s.gens.insertGenerationAfter (s.gens.younger firstFromGn) }.startGc
    match Generations.chooseGenerations params.toGenerationParams (0xFFF - 1) firstFromGn 0 0
        s.gens with
    | .error failure => .error (.generations failure)
    | .ok (numberOfFromGns, gens) =>
      let s := { s with gens := gens, copyStack := [] }
      let s ← s.scanRemSets params numberOfFromGns firstFromGn
      let s ← (s.rootSlots params).foldlM (scanRoot params (isBeingCollected params)) s
      let numberOfReferringPtrs := s.copyStack.length
      let s ← s.drain params
      let s ← s.finishGc params diskPages
      let s ← s.logToGenerationPinfoList params numberOfFromGns numberOfReferringPtrs
      let s ← s.withGens (Generations.markCollectedOnce numberOfFromGns firstFromGn s.gens)
      let (effort, gens) := s.gens.peekAhead (s.gens.npages s.gens.toGn + 1)
      .ok (effort, { s with gens := gens })

/-- The loop of `major_gc`.  A step is told the disk pages, and the steps that the heuristic
wants after this one are told as well. -/
def majorGcLoop (shrinks : Nat → Bool) : (Nat → Nat) → List (Nat → Nat) → Heap →
    Except HeapFailure Heap
  | diskPages, more, s => do
    if !s.gens.isCollecting then
      let s ← s.withGens (Generations.markMajorGcGenerations params.toGenerationParams shrinks s.gens)
      .ok { s with gens := { s.gens with isCollecting := true } }
    else
      let (effortStep, s) ← s.majorGcStep params diskPages
      let s := { s with gens := Generations.stopIfFinished effortStep s.gens }
      match more with
      | [] => .ok s
      | diskPages :: more =>
        if s.gens.numberOfFreePages * params.pageSize < params.startGcLimit then
          majorGcLoop shrinks diskPages more s
        else .ok s

end collector

end Heap

/-- What decides about a commit: the results of `io_write_page` when the first generation is
collected, and what decides about the mature collection. -/
structure HeapGroup where
  diskPages : Nat → Nat
  shrinks : Nat → Bool
  stepDiskPages : Nat → Nat
  more : List (Nat → Nat)

namespace Heap

section commits

variable (params : HeapParams)

/-- `major_gc(0)`. -/
def majorGc (group : HeapGroup) (s : Heap) : Except HeapFailure Heap :=
  if !s.gens.isCollecting &&
      decide (params.startGcLimit < s.gens.numberOfFreePages * params.pageSize) then .ok s
  else s.majorGcLoop params group.shrinks group.stepDiskPages group.more

/-- The commit group that finalized the previous mature collection is on disk: the disk pages
are given back, and there is a new list of descriptions. -/
def finishMajorGcRound (s : Heap) : Except HeapFailure Heap :=
  if s.gens.majorGcWasStarted then do
    let s ← s.withGens s.gens.finishMajorGcRound
    let s := s.set (params.rootSlot .prevPrevGenerationPinfoList)
      (s.words (params.rootSlot .prevGenerationPinfoList))
    let s := s.set (params.rootSlot .prevGenerationPinfoList)
      (s.words (params.rootSlot .generationPinfoList))
    .ok (s.set (params.rootSlot .generationPinfoList) nullWord)
  else .ok s

/-- `flush_batch`. -/
def flushBatch (group : HeapGroup) (s : Heap) : Except HeapFailure Heap :=
  if s.allocationPtr = params.firstGenerationStart then .ok s
  else do
    let s := s.set (params.rootSlot .oidFreelist) nullWord
    let (numberOfReferringPtrs, s) ← s.collectFirstGeneration params group.diskPages
    let s ← s.cacheGenerationPinfoToRoot params numberOfReferringPtrs
    -- `clear_first_generation`
    let s := { s with allocationPtr := params.firstGenerationStart }
    let s ← s.finishMajorGcRound params
    let s ← s.logToGenerationPinfoList params 0 numberOfReferringPtrs
    s.majorGc params group

/-! ## a new database -/

/-- The state after `init_shades`, with whatever is in the memory and in `page_info`. -/
def initShades (pageIsAllocated : Nat → Bool) (pageGeneration words : Nat → Nat) :
    Except HeapFailure Heap :=
  match Generations.initShades params.toGenerationParams pageIsAllocated pageGeneration with
  | .error failure => .error (.generations failure)
  | .ok gens => .ok {
      gens := gens
      words := fun p =>
        if params.root ≤ p ∧ p < params.root + numberOfRootIxs then initRoot (p - params.root)
        else words p
      allocationPtr := params.firstGenerationStart
      toPtr := nullPtr
      toEnd := nullPtr
      copyStack := []
      remSets := fun _ => []
      smartPtrs := [] }

/-- `create_db`. -/
def createDb (group : HeapGroup) (s : Heap) : Except HeapFailure Heap := do
  let s ← s.withGens (Generations.freeAllPages params.toGenerationParams s.gens)
  s.flushBatch params group

end commits

end Heap

end Shades
