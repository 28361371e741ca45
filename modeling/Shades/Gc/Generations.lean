import Mathlib.Logic.Function.Basic

/-!
# Shades.Gc.Generations

The table of generations of `shades.c`, and how commits and mature collections
change it.

An entry of `generation_info` is free or describes a generation.  Its status is
changed by four functions at different points of a commit, and two kinds of lists
go through the entries besides the list of generations by age: the generations
that were collected into a generation, and those that were collected twice.  The
table grows by `realloc`, and the pages, which refer to entries by address, are
then made to refer to the new table.

What the copying of cells does to a generation is to give it pages, so it is
known here by the number of times that it calls `new_to_page`.  The policy that
chooses how much to collect is a parameter wherever it reads floating point
numbers or clocks.  A record of the assignments to `status`, of the disk pages
that generations get and of those they give back is kept beside the state.
-/

namespace Shades

/-! ## the state -/

inductive GenerationStatus where
  | nonexistent
  | normal
  | toBeCollected
  | beingCollected
  | collectedOnce
  | collectedTwice
  deriving DecidableEq

/-- The generation belongs in the list by age. -/
def GenerationStatus.IsLive (status : GenerationStatus) : Prop :=
  status = .normal ∨ status = .toBeCollected ∨ status = .beingCollected

instance (status : GenerationStatus) : Decidable status.IsLive :=
  inferInstanceAs (Decidable (_ ∨ _ ∨ _))

/-- `INVALID_GENERATION_NUMBER`. -/
def invalidGenerationNumber : Nat := 0xFFFFFFFF

/-- `INVALID_DISK_PAGE_NUMBER`. -/
def invalidDiskPageNumber : Nat := 0xFFFFFFFF

/-- `sizeof(generation_info_t)`: eleven words and a double. -/
def sizeofGenerationInfo : Nat := 52

/-- Why a function does not return. -/
inductive GcFailure where
  /-- `exit(1)` after a message that there is no memory. -/
  | outOfMemory
  /-- An `assert` on the generations. -/
  | assertion
  /-- The `assert` on `is_allocated` in `free_page` or in `allocate_page`. -/
  | pageAssertion
  /-- An array is read outside its bounds. -/
  | outside
  /-- A loop that goes on forever. -/
  | endless
  deriving DecidableEq

/-- What is recorded. -/
inductive GenerationEvent where
  /-- `generation_info[gn].status = status`, during recovery or not. -/
  | status (gn : Nat) (status : GenerationStatus) (isRecovering : Bool)
  /-- An element of `disk_page` is set. -/
  | diskPage (gn dpn : Nat)
  /-- `io_free_disk_page` for an element of `disk_page`. -/
  | freeDiskPage (gn dpn : Nat)
  deriving DecidableEq

structure GenerationParams where
  numberOfPages : Nat
  /-- Where the table is after `realloc` with a size, if there is room for it. -/
  realloc : Nat → Option Nat
  realloc_lt : ∀ {size base : Nat}, realloc size = some base → size < 0x100000000
  pageSize : Nat
  startGcLimit : Nat
  allowAdditionalGenerationality : Bool
  numberOfPagesToMark : Nat
  /-- So many pages are less than `relative_mature_generation_size` allows. -/
  fitsMatureGeneration : Nat → Bool

/-- The table has an array for each field of `generation_info_t`.  Of `disk_page`
only the elements that have been set count. -/
structure Generations where
  status : Nat → GenerationStatus
  npages : Nat → Nat
  page : Nat → List Nat
  diskPage : Nat → List Nat
  younger : Nat → Nat
  older : Nat → Nat
  fromGn : Nat → Nat
  nextFrom : Nat → Nat
  nextCollectedTwice : Nat → Nat
  /-- The address of the table. -/
  generationInfo : Nat
  numberOfGenerations : Nat
  numberOfNonexistentGenerations : Nat
  youngestGn : Nat
  toGn : Nat
  generationsCollectedTwice : Nat
  /-- The static variable `gn` of `allocate_generation`. -/
  allocateGn : Nat
  toPn : Option Nat
  pageIsAllocated : Nat → Bool
  /-- `page_info[pn].generation`, an address. -/
  pageGeneration : Nat → Nat
  listOfFreePages : List Nat
  numberOfFreePages : Nat
  isRecovering : Bool
  majorGcWasStarted : Bool
  prevToGn : Nat
  isCollecting : Bool
  rvyDiskPage : Nat → Nat
  history : List GenerationEvent

/-- The first elements of an array. -/
def elements (xs : List Nat) (n : Nat) : Except GcFailure (List Nat) :=
  if n ≤ xs.length then .ok (xs.take n) else .error .outside

/-- `if (gn != INVALID_GENERATION_NUMBER) generation_info[gn].field = value;` -/
def setIfValid (field : Nat → Nat) (gn value : Nat) : Nat → Nat :=
  if gn ≠ invalidGenerationNumber then Function.update field gn value else field

namespace Generations

/-- `generation_info[gn].status` of an entry that may be outside the table. -/
def statusOf (s : Generations) (gn : Nat) : Except GcFailure GenerationStatus :=
  if gn < s.numberOfGenerations then .ok (s.status gn) else .error .outside

/-- `generation_info[gn].status = status`. -/
def setStatus (s : Generations) (gn : Nat) (status : GenerationStatus) : Generations :=
  { s with
    status := Function.update s.status gn status
    history := .status gn status s.isRecovering :: s.history }

/-- `&generation_info[gn]`. -/
def address (s : Generations) (gn : Nat) : Nat := s.generationInfo + gn * sizeofGenerationInfo

/-! ## pages -/

def freePage (s : Generations) (pn : Nat) : Except GcFailure Generations :=
  if s.pageIsAllocated pn then
    .ok { s with
      pageIsAllocated := Function.update s.pageIsAllocated pn false
      pageGeneration := Function.update s.pageGeneration pn 0
      listOfFreePages := if s.isRecovering then s.listOfFreePages else pn :: s.listOfFreePages
      numberOfFreePages := s.numberOfFreePages + 1 }
  else .error .pageAssertion

def allocatePage (s : Generations) : Except GcFailure (Nat × Generations) :=
  match s.listOfFreePages with
  | [] => .error .outOfMemory
  | pn :: rest =>
    if s.pageIsAllocated pn then .error .pageAssertion
    else if s.isRecovering then .error .assertion
    else .ok (pn, { s with
      listOfFreePages := rest
      pageIsAllocated := Function.update s.pageIsAllocated pn true
      numberOfFreePages := s.numberOfFreePages - 1 })

def rvyAllocatePage (s : Generations) (pn : Nat) : Generations :=
  { s with
    numberOfFreePages :=
      if s.pageIsAllocated pn then s.numberOfFreePages else s.numberOfFreePages - 1
    pageIsAllocated := Function.update s.pageIsAllocated pn true }

/-- One turn of the loop of `construct_page_freelist`. -/
def constructPageFreelistAt (s : Generations) (pn : Nat) : Generations :=
  if s.pageIsAllocated pn then s
  else { s with
    pageGeneration := Function.update s.pageGeneration pn 0
    listOfFreePages := pn :: s.listOfFreePages }

def constructPageFreelist (params : GenerationParams) (s : Generations) : Generations :=
  (List.range params.numberOfPages).foldl constructPageFreelistAt s

/-! ## numbers and lists of generations -/

def generationInfoGrow (params : GenerationParams) (newNumberOfGenerations : Nat)
    (s : Generations) : Except GcFailure Generations :=
  if newNumberOfGenerations ≤ s.numberOfGenerations then .ok s
  else
    match params.realloc (newNumberOfGenerations * sizeofGenerationInfo) with
    | none => .error .outOfMemory
    | some generationInfo =>
      .ok { s with
        generationInfo := generationInfo
        -- all new generations are marked, and counted
        status := fun gn =>
          if s.numberOfGenerations ≤ gn ∧ gn < newNumberOfGenerations then .nonexistent
          else s.status gn
        numberOfNonexistentGenerations := s.numberOfNonexistentGenerations +
          (newNumberOfGenerations - s.numberOfGenerations)
        numberOfGenerations := newNumberOfGenerations
        -- the `generation`-pointers refer to the new table
        pageGeneration := fun pn =>
          if pn < params.numberOfPages ∧ s.pageIsAllocated pn then
            generationInfo +
              (s.pageGeneration pn - s.generationInfo) / sizeofGenerationInfo * sizeofGenerationInfo
          else s.pageGeneration pn }

def insertGenerationAfter (s : Generations) (youngerGn : Nat) : Generations :=
  let s := { s with younger := Function.update s.younger s.toGn youngerGn }
  if youngerGn = invalidGenerationNumber then
    { s with
      older := Function.update s.older s.toGn s.youngestGn
      younger := setIfValid s.younger s.youngestGn s.toGn
      youngestGn := s.toGn }
  else
    let olderGn := s.older youngerGn
    { s with
      older := Function.update (Function.update s.older s.toGn olderGn) youngerGn s.toGn
      younger := setIfValid s.younger olderGn s.toGn }

/-- The fields of a generation that is taken to use, and `to_gn`. -/
def takeGeneration (s : Generations) (gn npages : Nat) : Generations :=
  { s.setStatus gn .normal with
    toGn := gn
    numberOfNonexistentGenerations := s.numberOfNonexistentGenerations - 1
    npages := Function.update s.npages gn npages
    page := Function.update s.page gn []
    diskPage := Function.update s.diskPage gn []
    fromGn := Function.update s.fromGn gn invalidGenerationNumber
    nextFrom := Function.update s.nextFrom gn invalidGenerationNumber
    nextCollectedTwice := Function.update s.nextCollectedTwice gn invalidGenerationNumber
    younger := Function.update s.younger gn invalidGenerationNumber
    older := Function.update s.older gn invalidGenerationNumber }

/-- The loop of `allocate_generation`, for so many turns. -/
def searchNonexistent (s : Generations) : Nat → Nat → Option Nat
  | 0, _ => none
  | turns + 1, gn =>
    if s.status gn = .nonexistent then some gn
    else searchNonexistent s turns ((gn + 1) % s.numberOfGenerations)

/-- If there are too few free slots left, double the size of the table. -/
def growIfFew (params : GenerationParams) (s : Generations) : Except GcFailure Generations :=
  if s.numberOfNonexistentGenerations * 8 < s.numberOfGenerations then
    generationInfoGrow params (2 * s.numberOfGenerations) s
  else .ok s

/-- The loop comes to every entry in as many turns as there are entries, so it never
ends if it has not ended then. -/
def allocateGeneration (params : GenerationParams) (s : Generations) :
    Except GcFailure Generations := do
  let s ← growIfFew params s
  match s.searchNonexistent s.numberOfGenerations s.allocateGn with
  | none => .error .endless
  | some gn => .ok ({ s with allocateGn := gn }.takeGeneration gn 0)

def rvyAllocateGeneration (params : GenerationParams) (npages : Nat) (s : Generations) :
    Except GcFailure Generations := do
  let s ← generationInfoGrow params ((s.toGn + 1) % 0x100000000) s
  let status ← s.statusOf s.toGn
  if status.IsLive then .error .assertion
  else .ok (s.takeGeneration s.toGn npages)

/-! ## the end of a generation -/

def freeDiskPages (s : Generations) (gn : Nat) (dpns : List Nat) : Generations :=
  { s with history := (dpns.map (.freeDiskPage gn)).reverse ++ s.history }

/-- The loop of `mark_twice_collected_generations_nonexistent`. -/
def markNonexistentFrom : Nat → Nat → Generations → Except GcFailure Generations
  | 0, _, _ => .error .endless
  | turns + 1, gn, s =>
    if gn = invalidGenerationNumber then .ok s
    else do
      let dpns ← elements (s.diskPage gn) (s.npages gn)
      let s := { s.setStatus gn .nonexistent with
        numberOfNonexistentGenerations := s.numberOfNonexistentGenerations + 1 }
      markNonexistentFrom turns (s.nextCollectedTwice gn) (s.freeDiskPages gn dpns)

def markTwiceCollectedGenerationsNonexistent (s : Generations) : Except GcFailure Generations := do
  let s ← markNonexistentFrom (s.numberOfGenerations + 1) s.generationsCollectedTwice s
  .ok { s with generationsCollectedTwice := invalidGenerationNumber }

def markGenerationCollectedTwice (s : Generations) (gn : Nat) : Generations :=
  { s.setStatus gn .collectedTwice with
    nextCollectedTwice := Function.update s.nextCollectedTwice gn s.generationsCollectedTwice
    generationsCollectedTwice := gn }

/-- The last loop of `mark_generation_collected_once`. -/
def markFromGenerations : Nat → Nat → Generations → Except GcFailure Generations
  | 0, _, _ => .error .endless
  | turns + 1, gn, s =>
    if gn = invalidGenerationNumber then .ok s
    else markFromGenerations turns (s.nextFrom gn) (s.markGenerationCollectedTwice gn)

/-- Unlink `gn` from the doubly linked list of generations. -/
def unlinkGeneration (s : Generations) (gn : Nat) : Except GcFailure Generations :=
  let s := { s with younger := setIfValid s.younger (s.older gn) (s.younger gn) }
  if s.younger gn ≠ invalidGenerationNumber then
    .ok { s with older := Function.update s.older (s.younger gn) (s.older gn) }
  else if gn = s.youngestGn then .ok { s with youngestGn := s.older gn }
  else .error .assertion

def markGenerationCollectedOnce (s : Generations) (gn : Nat) : Except GcFailure Generations := do
  let s := s.setStatus gn .collectedOnce
  let pns ← elements (s.page gn) (s.npages gn)
  let s ← pns.foldlM freePage s
  let s ← { s with page := Function.update s.page gn [] }.unlinkGeneration gn
  markFromGenerations (s.numberOfGenerations + 1) (s.fromGn gn) s

/-! ## the pages of the generation that is copied to -/

def startGc (s : Generations) : Generations := { s with toPn := none }

def newToPage (s : Generations) : Except GcFailure Generations := do
  let (pn, s) ← s.allocatePage
  .ok { s with
    toPn := some pn
    npages := Function.update s.npages s.toGn (s.npages s.toGn + 1)
    page := Function.update s.page s.toGn (s.page s.toGn ++ [pn])
    pageGeneration := Function.update s.pageGeneration pn (s.address s.toGn) }

/-- The copying of cells, which takes so many new pages. -/
def newToPages : Nat → Generations → Except GcFailure Generations
  | 0, s => .ok s
  | n + 1, s => do
    let s ← s.newToPage
    newToPages n s

/-- The elements of `disk_page` are set. -/
def setDiskPages (s : Generations) (gn : Nat) (dpns : List Nat) : Generations :=
  { s with
    diskPage := Function.update s.diskPage gn dpns
    history := (dpns.map (.diskPage gn)).reverse ++ s.history }

/-- `diskPages` are the results of `io_write_page`. -/
def finishGc (diskPages : Nat → Nat) (s : Generations) : Generations :=
  if s.toPn = none then s
  else s.setDiskPages s.toGn ((List.range (s.npages s.toGn)).map diskPages)

/-! ## mature collections -/

/-- The loop of `mark_major_gc_generations` and of `rvy_mark_major_gc_generations`, which
the first one leaves early when `stops` says so. -/
def markGenerations (stops : Nat → Nat → Bool) :
    Nat → Nat → Nat → Generations → Except GcFailure Generations
  | 0, _, _, _ => .error .endless
  | turns + 1, gn, numberOfMarkedPages, s =>
    if gn = invalidGenerationNumber then .ok s
    else if stops numberOfMarkedPages gn then .ok s
    else if s.status gn ≠ .normal then .error .assertion
    else markGenerations stops turns (s.older gn) (numberOfMarkedPages + s.npages gn)
      (s.setStatus gn .toBeCollected)

/-- `shrinks` is the comparison of a generation's shrinkage with the average. -/
def markMajorGcGenerations (params : GenerationParams) (shrinks : Nat → Bool) (s : Generations) :
    Except GcFailure Generations := do
  let stops := fun numberOfMarkedPages gn => params.allowAdditionalGenerationality &&
    decide (params.numberOfPagesToMark < numberOfMarkedPages) && shrinks gn
  let s ← markGenerations stops (s.numberOfGenerations + 1) s.youngestGn 0 s
  .ok { s with majorGcWasStarted := true }

def rvyMarkMajorGcGenerations (startGn : Nat) (s : Generations) : Except GcFailure Generations :=
  markGenerations (fun _ _ => false) (s.numberOfGenerations + 1) startGn 0 s

/-- The loop that skips the generations which are not to be collected. -/
def skipToBeCollected : Nat → Nat → Generations → Except GcFailure Nat
  | 0, _, _ => .error .endless
  | turns + 1, gn, s => do
    let status ← s.statusOf gn
    if status = .toBeCollected then .ok gn
    else skipToBeCollected turns (s.older gn) s

/-- The first generation to collect. -/
def firstFromGn (s : Generations) : Except GcFailure Nat :=
  if s.prevToGn = invalidGenerationNumber then
    skipToBeCollected (s.numberOfGenerations + 1) s.youngestGn s
  else .ok (s.older s.prevToGn)

/-- A generation is collected from now on, and it is on the from-list of `to_gn`. -/
def beginCollecting (s : Generations) (gn : Nat) : Except GcFailure Generations := do
  let status ← s.statusOf gn
  if status ≠ .toBeCollected then .error .assertion
  else .ok { s.setStatus gn .beingCollected with
    nextFrom := Function.update s.nextFrom gn (s.fromGn s.toGn)
    fromGn := Function.update s.fromGn s.toGn gn }

/-- The loop of `major_gc_step` that chooses the generations.  After this one it may
choose `more` others.  The result has the number of generations. -/
def chooseGenerations (params : GenerationParams) :
    Nat → Nat → Nat → Nat → Generations → Except GcFailure (Nat × Generations)
  | more, gn, numberOfFromPages, numberOfFromGns, s => do
    let s ← s.beginCollecting gn
    let numberOfFromPages := numberOfFromPages + s.npages gn
    let numberOfFromGns := numberOfFromGns + 1
    let gn := s.older gn
    match more with
    | 0 => .ok (numberOfFromGns, s)
    | more + 1 =>
      if gn ≠ invalidGenerationNumber ∧ s.status gn = .toBeCollected ∧
          params.fitsMatureGeneration (s.npages gn + numberOfFromPages) then
        chooseGenerations params more gn numberOfFromPages numberOfFromGns s
      else .ok (numberOfFromGns, s)

/-- `for (i = 0, gn = first_from_gn; i < n; i++, gn = tmp_gn)`. -/
def markCollectedOnce : Nat → Nat → Generations → Except GcFailure Generations
  | 0, _, s => .ok s
  | n + 1, gn, s => do
    let tmpGn := s.older gn
    let s ← s.markGenerationCollectedOnce gn
    markCollectedOnce n tmpGn s

/-- Look ahead whether the major collection is finished.  The result is 0 then, and else
what the caller says. -/
def peekAhead (s : Generations) (effort : Nat) : Nat × Generations :=
  let gn := s.older s.toGn
  if gn = invalidGenerationNumber ∨ s.status gn ≠ .toBeCollected then
    (0, { s with prevToGn := invalidGenerationNumber })
  else (effort, { s with prevToGn := s.toGn })

end Generations

/-- What the copying of cells to a new generation comes to. -/
structure CopiedPages where
  /-- The calls of `new_to_page`. -/
  pages : Nat
  /-- The results of `io_write_page`. -/
  diskPages : Nat → Nat

namespace Generations

def majorGcStep (params : GenerationParams) (copied : CopiedPages) (s : Generations) :
    Except GcFailure (Nat × Generations) := do
  let firstFromGn ← s.firstFromGn
  let s ← allocateGeneration params s
  let s := (s.insertGenerationAfter (s.younger firstFromGn)).startGc
  let (numberOfFromGns, s) ← chooseGenerations params (0xFFF - 1) firstFromGn 0 0 s
  let s ← newToPages copied.pages s
  let s := finishGc copied.diskPages s
  let s ← markCollectedOnce numberOfFromGns firstFromGn s
  .ok (s.peekAhead (s.npages s.toGn + 1))

/-- `is_collecting = 0` when the step has finished the major collection. -/
def stopIfFinished (effortStep : Nat) (s : Generations) : Generations :=
  if effortStep = 0 then { s with isCollecting := false } else s

/-- The loop of `major_gc`.  It goes on as long as memory is short and the heuristic
wants more: that is told, with an element for each turn after the first. -/
def majorGcLoop (params : GenerationParams) (shrinks : Nat → Bool) :
    CopiedPages → List CopiedPages → Generations → Except GcFailure Generations
  | copied, more, s => do
    if !s.isCollecting then
      let s ← markMajorGcGenerations params shrinks s
      .ok { s with isCollecting := true }
    else
      let (effortStep, s) ← majorGcStep params copied s
      let s := stopIfFinished effortStep s
      match more with
      | [] => .ok s
      | copied :: more =>
        if s.numberOfFreePages * params.pageSize < params.startGcLimit then
          majorGcLoop params shrinks copied more s
        else .ok s

end Generations

/-- What decides about the mature collection in a commit. -/
structure MajorGc where
  shrinks : Nat → Bool
  copied : CopiedPages
  more : List CopiedPages

/-- What decides about a commit. -/
structure CommitGroup where
  /-- Something has been allocated in the first generation. -/
  isAllocated : Bool
  copied : CopiedPages
  majorGc : MajorGc

namespace Generations

def majorGc (params : GenerationParams) (isIdle : Bool) (gc : MajorGc) (s : Generations) :
    Except GcFailure Generations :=
  if !isIdle && !s.isCollecting &&
      decide (params.startGcLimit < s.numberOfFreePages * params.pageSize) then .ok s
  else majorGcLoop params gc.shrinks gc.copied gc.more s

def collectFirstGeneration (params : GenerationParams) (copied : CopiedPages) (s : Generations) :
    Except GcFailure Generations := do
  let s ← allocateGeneration params s.startGc
  let s ← newToPages copied.pages (s.insertGenerationAfter invalidGenerationNumber)
  .ok (finishGc copied.diskPages s)

/-- The commit group that finalized the previous mature collection is on disk. -/
def finishMajorGcRound (s : Generations) : Except GcFailure Generations :=
  if s.majorGcWasStarted then
    markTwiceCollectedGenerationsNonexistent { s with majorGcWasStarted := false }
  else .ok s

def flushBatch (params : GenerationParams) (group : CommitGroup) (s : Generations) :
    Except GcFailure Generations :=
  if !group.isAllocated then .ok s
  else do
    let s ← collectFirstGeneration params group.copied s
    let s ← s.finishMajorGcRound
    majorGc params false group.majorGc s

/-! ## a new database -/

/-- The state before `init_shades` calls `generation_info_grow`, with whatever is in
`page_info`, which has an element for each page. -/
def initial (numberOfPages : Nat) (pageIsAllocated : Nat → Bool) (pageGeneration : Nat → Nat) :
    Generations where
  status := fun _ => .nonexistent
  npages := fun _ => 0
  page := fun _ => []
  diskPage := fun _ => []
  younger := fun _ => 0
  older := fun _ => 0
  fromGn := fun _ => 0
  nextFrom := fun _ => 0
  nextCollectedTwice := fun _ => 0
  generationInfo := 0
  numberOfGenerations := 0
  numberOfNonexistentGenerations := 0
  youngestGn := invalidGenerationNumber
  toGn := invalidGenerationNumber
  generationsCollectedTwice := invalidGenerationNumber
  allocateGn := 0
  toPn := none
  pageIsAllocated := fun pn => decide (pn < numberOfPages) && pageIsAllocated pn
  pageGeneration := pageGeneration
  listOfFreePages := []
  numberOfFreePages := 0
  isRecovering := false
  majorGcWasStarted := false
  prevToGn := invalidGenerationNumber
  isCollecting := false
  rvyDiskPage := fun _ => 0
  history := []

/-- The generations after `init_shades`. -/
def initShades (params : GenerationParams) (pageIsAllocated : Nat → Bool)
    (pageGeneration : Nat → Nat) : Except GcFailure Generations :=
  generationInfoGrow params (32 + params.numberOfPages / 4)
    (initial params.numberOfPages pageIsAllocated pageGeneration)

/-- `page_info[pn].is_allocated = 1; free_page(pn);` for every page. -/
def freeAllPages (params : GenerationParams) (s : Generations) : Except GcFailure Generations :=
  (List.range params.numberOfPages).foldlM
    (fun s pn => freePage { s with pageIsAllocated := Function.update s.pageIsAllocated pn true } pn)
    s

def createDb (params : GenerationParams) (group : CommitGroup) (s : Generations) :
    Except GcFailure Generations := do
  let s ← freeAllPages params s
  flushBatch params group s

end Generations

end Shades
