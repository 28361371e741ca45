import Shades.Gc.Commits

/-!
# Shades.Gc.Recovery

How the table of generations is built again from a database on disk.

The youngest generation is known from the root block, and it tells of older ones
in lists of `generation_pinfo` cells, a list for each round of mature collections.
`rvy_batch` goes back along the lists as far as it has to, and then repeats what
was done to the generations since.

Nothing is assumed about the database, and one that no run has written can make
recovery fail in many ways.  The loops that go through the cells of a page are not
here: the image has how many pages the copying comes to.
-/

namespace Shades

/-- A `generation_pinfo` cell, or what the root block has on the youngest generation. -/
structure GenerationPinfo where
  gn : Nat
  /-- The elements of `page` and of `disk_page`. -/
  pages : List (Nat × Nat)
  numberOfFromGenerations : Nat
  /-- The calls of `rvy_next_to_page` when the copying of cells to the generation is
  repeated. -/
  toPages : Nat

structure RecoveryImage where
  youngest : GenerationPinfo
  generationPinfoList : List GenerationPinfo
  prevGenerationPinfoList : List GenerationPinfo
  prevPrevGenerationPinfoList : List GenerationPinfo

namespace Generations

/-! ## the pages of a generation -/

def rvySetPages (s : Generations) (gn : Nat) (pages : List (Nat × Nat)) : Generations :=
  { s with page := Function.update s.page gn (pages.map Prod.fst) }.setDiskPages gn
    (pages.map Prod.snd)

/-- One turn of the loop of `rvy_read_generation`. -/
def rvyReadPage (params : GenerationParams) (gn : Nat) (s : Generations) (page : Nat × Nat) :
    Except GcFailure Generations :=
  let (pn, dpn) := page
  if pn < params.numberOfPages then
    if s.rvyDiskPage pn ≠ dpn then
      let s := s.rvyAllocatePage pn
      .ok { s with
        pageGeneration := Function.update s.pageGeneration pn (s.address gn)
        rvyDiskPage := Function.update s.rvyDiskPage pn dpn }
    else .ok s
  else .error .outside

def rvyReadGeneration (params : GenerationParams) (gn : Nat) (s : Generations) :
    Except GcFailure Generations := do
  let pns ← elements (s.page gn) (s.npages gn)
  let dpns ← elements (s.diskPage gn) (s.npages gn)
  (pns.zip dpns).foldlM (rvyReadPage params gn) s

/-! ## the cells are already there -/

def rvyStartGc (s : Generations) : Generations := { s with toPn := none }

/-- The calls of `rvy_next_to_page`. -/
def rvyNextToPages : Nat → Generations → Except GcFailure Generations
  | 0, s => .ok s
  | rvyToPnIndex + 1, s =>
    match (s.page s.toGn)[rvyToPnIndex]? with
    | none => .error .outside
    | some pn => .ok { s with toPn := some pn }

def rvyFinishGc (toPages : Nat) (s : Generations) : Except GcFailure Generations :=
  if s.toPn ≠ none ∧ toPages ≠ s.npages s.toGn then .error .assertion else .ok s

/-- Both of the functions below do this: `to_gn` behaves also as if it were being
collected. -/
def rvyCopyCells (toPages : Nat) (s : Generations) : Except GcFailure Generations := do
  let s ← rvyNextToPages toPages (s.setStatus s.toGn .beingCollected)
  let s ← rvyFinishGc toPages s
  .ok (s.setStatus s.toGn .normal)

def rvyNewGeneration (toPages : Nat) (s : Generations) : Except GcFailure Generations :=
  rvyCopyCells toPages s.rvyStartGc

/-- The loop of `rvy_major_gc_step` that marks the from-generations to be collected. -/
def rvyBeginCollecting : Nat → Nat → Generations → Except GcFailure Generations
  | 0, _, s => .ok s
  | n + 1, gn, s => do
    let s ← s.beginCollecting gn
    rvyBeginCollecting n (s.older gn) s

def rvyMajorGcStep (numberOfFromGenerations toPages : Nat) (s : Generations) :
    Except GcFailure (Nat × Generations) := do
  let firstFromGn ← s.firstFromGn
  let s := s.rvyStartGc.insertGenerationAfter (s.younger firstFromGn)
  let s ← rvyBeginCollecting numberOfFromGenerations firstFromGn s
  let s ← rvyCopyCells toPages s
  let s ← markCollectedOnce numberOfFromGenerations firstFromGn s
  .ok (s.peekAhead 1)

/-! ## the lists of generations -/

/-- `younger_gn` and `oldest_gn` are the first arguments. -/
def rvyBaseMajorGcRound (params : GenerationParams) :
    Nat → Nat → List GenerationPinfo → Generations → Except GcFailure Generations
  | _, _, [], s => .ok s
  | youngerGn, oldestGn, p :: next, s => do
    let s ← rvyAllocateGeneration params p.pages.length { s with toGn := p.gn }
    let (youngerGn, oldestGn, s) ←
      if p.numberOfFromGenerations = 0 then
        .ok (p.gn, oldestGn, s.insertGenerationAfter youngerGn)
      else if oldestGn = invalidGenerationNumber then
        if youngerGn = invalidGenerationNumber then .error .assertion
        else .ok (youngerGn, p.gn, s.insertGenerationAfter youngerGn)
      else .ok (youngerGn, oldestGn, s.insertGenerationAfter youngerGn)
    let s ← rvyReadGeneration params p.gn (s.rvySetPages p.gn p.pages)
    rvyBaseMajorGcRound params youngerGn oldestGn next s

def rvyBatch (params : GenerationParams) (youngerGn : Nat)
    (list prevList prevPrevList : List GenerationPinfo) (s : Generations) :
    Except GcFailure Generations :=
  if prevList = [] then
    if prevPrevList ≠ [] then .error .assertion
    else rvyBaseMajorGcRound params youngerGn invalidGenerationNumber list s
  else
    match list with
    | [] => .error .assertion
    | p :: next => do
      let s ← rvyAllocateGeneration params p.pages.length { s with toGn := p.gn }
      if p.numberOfFromGenerations = 0 then
        let s := (s.insertGenerationAfter youngerGn).rvySetPages p.gn p.pages
        let s ← rvyReadGeneration params p.gn s
        let s ←
          if next = [] then do
            let s ← rvyBatch params p.gn prevList prevPrevList [] s
            let s ← rvyMarkMajorGcGenerations (s.older p.gn) { s with toGn := p.gn }
            markTwiceCollectedGenerationsNonexistent { s with isCollecting := true }
          else do
            let s ← rvyBatch params p.gn next prevList prevPrevList s
            .ok { s with toGn := p.gn }
        let s ← rvyReadGeneration params p.gn { s with youngestGn := p.gn }
        if s.isCollecting then rvyNewGeneration p.toPages s else .ok s
      else if next = [] then .error .assertion
      else
        let s ← rvyBatch params youngerGn next prevList prevPrevList (s.rvySetPages p.gn p.pages)
        let s ← rvyReadGeneration params p.gn { s with toGn := p.gn }
        let (step, s) ← rvyMajorGcStep p.numberOfFromGenerations p.toPages s
        .ok (stopIfFinished step s)
termination_by list.length + prevList.length + prevPrevList.length
decreasing_by all_goals simp_all; try omega

def recoverDb (params : GenerationParams) (image : RecoveryImage) (gc : MajorGc)
    (s : Generations) : Except GcFailure Generations := do
  let p := image.youngest
  let s ← freeAllPages params
    { s with isRecovering := true, rvyDiskPage := fun _ => invalidDiskPageNumber }
  let s ← rvyAllocateGeneration params p.pages.length
    { s with youngestGn := invalidGenerationNumber, toGn := p.gn }
  let s := s.insertGenerationAfter invalidGenerationNumber
  if s.youngestGn ≠ p.gn then .error .assertion
  else do
    let s ← rvyReadGeneration params p.gn (s.rvySetPages p.gn p.pages)
    let s ← rvyBatch params s.youngestGn image.generationPinfoList image.prevGenerationPinfoList
      image.prevPrevGenerationPinfoList s
    let s ← rvyReadGeneration params p.gn { s with toGn := p.gn, youngestGn := p.gn }
    let s ← (if s.isCollecting then rvyNewGeneration p.toPages s else .ok s)
    let s := constructPageFreelist params s
    majorGc params false gc { s with isRecovering := false }

end Generations

end Shades
