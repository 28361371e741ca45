import Shades.Bits

/-!
# Shades.Io.Code

`io.c`: the disk pages of the database files, their allocation status, and the
place of the root block.  The build option `OPTIMIZED_ROOT_LOCATION` is the
argument `optimized`: with it the root is written to a disk page like any other
page, and a binary search on each file finds the newest root.

A file is the list of its pages.  Each page has its status in memory and, on
disk, a first block, of which the magic cookie and the time stamp of a root are
read here.  A process that exits or fails an assertion is an error.
-/

namespace Shades

/-! ## words -/

/-- The number of values of an `unsigned long`. -/
def ulongSize : Nat := 2 ^ 32

/-- `++` on an `unsigned long`. -/
def ulongSucc (x : Nat) : Nat := if x = ulongSize - 1 then 0 else x + 1

/-- `--` on an `unsigned long`. -/
def ulongPred (x : Nat) : Nat := if x = 0 then ulongSize - 1 else x - 1

/-- The 64-bit time stamp of a root block. -/
structure TimeStamp where
  hi : Nat
  lo : Nat
deriving DecidableEq, Repr

/-- `increment_root_time_stamp`. -/
def incrementRootTimeStamp (ts : TimeStamp) : TimeStamp :=
  if ts.lo = 0xFFFFFFFF then ⟨(ts.hi + 1) % 2 ^ 32, 0⟩ else ⟨ts.hi, ts.lo + 1⟩

/-- `time_stamp_is_newer_than`. -/
def timeStampIsNewerThan (a b : TimeStamp) : Bool :=
  if a.hi > b.hi then true else if a.hi < b.hi then false else decide (a.lo > b.lo)

/-! ## disk page numbers -/

def pageIndexBits : Nat := 27

/-- `MAKE_DISK_PAGE_NUMBER`, a word. -/
def makeDiskPageNumber (fileNumber pageNumber : Nat) : Nat :=
  ((fileNumber <<< pageIndexBits) ||| pageNumber) % 2 ^ 32

/-- `GET_PAGE_NUMBER`. -/
def getPageNumber (x : Nat) : Nat := x % 2 ^ pageIndexBits

/-- `GET_FILE_NUMBER`. -/
def getFileNumber (x : Nat) : Nat := x >>> pageIndexBits

/-! ## files -/

/-- `disk_page_status_t`. -/
inductive DiskPageStatus
  | allocated
  | root
  | free
  | unknown
deriving DecidableEq, Repr

/-- What the first block of a disk page holds: the cookie of an unused page, of
a data page, or of a root with its time stamp, or anything else. -/
inductive DiskBlock
  | unused
  | page
  | root (ts : TimeStamp)
  | other
deriving DecidableEq, Repr

/-- A disk page: `status[i]` and the block on disk. -/
structure DiskPage where
  status : DiskPageStatus
  block : DiskBlock
deriving DecidableEq, Repr

/-- `file_t`. -/
structure DiskFile where
  page : List DiskPage
  numberOfFreePages : Nat
  cursor : Nat
deriving DecidableEq, Repr

/-- `number_of_pages`. -/
def DiskFile.numberOfPages (f : DiskFile) : Nat := f.page.length

/-- `status[i] = status`. -/
def DiskFile.setStatus (f : DiskFile) (i : Nat) (status : DiskPageStatus) : DiskFile :=
  { f with page := f.page.modify i fun p => { p with status } }

/-- The block is written to the disk page `i`. -/
def DiskFile.write (f : DiskFile) (i : Nat) (block : DiskBlock) : DiskFile :=
  { f with page := f.page.modify i fun p => { p with block } }

/-- The cursor moves on. -/
def DiskFile.moveOn (f : DiskFile) : DiskFile :=
  { f with cursor := (f.cursor + 1) % f.numberOfPages }

/-- The IO system.  `prevRoot` is `prev_root_file` and `prev_root_page`, if they
are not `-1`.  The time stamp is the one of the root block in memory.  Without
`OPTIMIZED_ROOT_LOCATION` the root is in the block `fixedRoot` behind the pages
of the first file. -/
structure Io where
  file : List DiskFile
  fileCursor : Nat
  numberOfFreeDiskPages : Nat
  prevRoot : Option (Nat × Nat)
  timeStamp : TimeStamp
  fixedRoot : DiskBlock
deriving DecidableEq, Repr

/-- The ways to end the process. -/
inductive IoFailure
  | diskFull
  | assertion
  | read
deriving DecidableEq, Repr

/-- `number_of_files`. -/
def Io.numberOfFiles (io : Io) : Nat := io.file.length

def Io.modifyFile (io : Io) (j : Nat) (g : DiskFile → DiskFile) : Io :=
  { io with file := io.file.modify j g }

/-- `file[j].status[i]`, if there is such a page. -/
def Io.status? (io : Io) (j i : Nat) : Option DiskPageStatus :=
  (io.file[j]?.bind (·.page[i]?)).map DiskPage.status

/-- `file_cursor` moves on. -/
def Io.nextFile (io : Io) : Io :=
  { io with fileCursor := (io.fileCursor + 1) % io.numberOfFiles }

/-- A page becomes free: `status[i] = FREE` and both counters. -/
def Io.freePage (io : Io) (j i : Nat) : Io :=
  { io.modifyFile j fun f =>
      { f.setStatus i .free with numberOfFreePages := ulongSucc f.numberOfFreePages } with
    numberOfFreeDiskPages := ulongSucc io.numberOfFreeDiskPages }

/-! ## creating and opening files -/

/-- `io_create_file`. -/
def ioCreateFile (optimized : Bool) (io : Io) : Io where
  file := io.file.map fun f =>
    { page := f.page.map fun p =>
        { status := .free, block := if optimized then .unused else p.block }
      numberOfFreePages := f.numberOfPages
      cursor := 0 }
  fileCursor := 0
  numberOfFreeDiskPages := io.file.foldl (fun n f => (n + f.numberOfPages) % ulongSize)
    io.numberOfFreeDiskPages
  prevRoot := none
  timeStamp := io.timeStamp
  fixedRoot := io.fixedRoot

/-- `io_open_file`. -/
def ioOpenFile (io : Io) : Io where
  file := io.file.map fun f =>
    { page := f.page.map fun p => { p with status := .unknown }
      numberOfFreePages := 0
      cursor := 0 }
  fileCursor := 0
  numberOfFreeDiskPages := io.numberOfFreeDiskPages
  prevRoot := none
  timeStamp := io.timeStamp
  fixedRoot := io.fixedRoot

/-! ## the round robin -/

/-- The loop over `pages_left`: the cursor moves to a free page, if there is
one. -/
def seekFreePage : Nat → DiskFile → Bool × DiskFile
  | 0, f => (false, f)
  | pagesLeft + 1, f =>
    if (f.page[f.cursor]?).map DiskPage.status = some .free then (true, f)
    else seekFreePage pagesLeft f.moveOn

/-- The loop over `files_left`: `file_cursor` and the cursor of that file move
to a free page.  Only files with `usable f` are searched. -/
def findDiskPage (usable : DiskFile → Bool) : Nat → Io → Option Io
  | 0, _ => none
  | filesLeft + 1, io =>
    match io.file[io.fileCursor]? with
    | none => none
    | some f =>
      if usable f then
        let (found, f') := seekFreePage f.numberOfPages f
        let io := io.modifyFile io.fileCursor fun _ => f'
        if found then some io else findDiskPage usable filesLeft io.nextFile
      else findDiskPage usable filesLeft io.nextFile

/-- The page at the cursors. -/
def Io.current (io : Io) : Nat × Nat :=
  (io.fileCursor, (io.file[io.fileCursor]?.map DiskFile.cursor).getD 0)

/-- The page at the cursors gets the status and the counters go down; the block
is written. -/
def Io.takePage (io : Io) (status : DiskPageStatus) (block : DiskBlock) : Io :=
  { io.modifyFile io.fileCursor fun f =>
      { (f.setStatus f.cursor status).write f.cursor block with
        numberOfFreePages := ulongPred f.numberOfFreePages } with
    numberOfFreeDiskPages := ulongPred io.numberOfFreeDiskPages }

/-- Both cursors move on. -/
def Io.moveOn (io : Io) : Io :=
  (io.modifyFile io.fileCursor DiskFile.moveOn).nextFile

/-- `io_write_page` of a page with the right magic cookie, synchronous: the disk
page number and the new state. -/
def ioWritePage (io : Io) : Except IoFailure (Nat × Io) :=
  if io.numberOfFreeDiskPages = 0 then .error .diskFull
  else
    match findDiskPage (fun f => decide (f.numberOfFreePages > 1)) io.numberOfFiles io with
    | none => .error .assertion
    | some io =>
      .ok (makeDiskPageNumber io.current.1 io.current.2, (io.takePage .allocated .page).moveOn)

/-- The root that was written before is free. -/
def Io.freePrevRoot (io : Io) : Except IoFailure Io :=
  match io.prevRoot with
  | none => .ok io
  | some (j, i) =>
    if io.status? j i = some .root then .ok (io.freePage j i) else .error .assertion

/-- `io_write_root`. -/
def ioWriteRoot (optimized : Bool) (io : Io) : Except IoFailure Io :=
  if optimized then
    if io.numberOfFreeDiskPages = 0 then .error .diskFull
    else
      match findDiskPage (fun _ => true) io.numberOfFiles io with
      | none => .error .assertion
      | some io => do
        let io' ← (io.takePage .root (.root io.timeStamp)).freePrevRoot
        return { io'.moveOn with
          prevRoot := some io.current
          timeStamp := incrementRootTimeStamp io.timeStamp }
  else
    .ok { io with
      fixedRoot := .root io.timeStamp
      timeStamp := incrementRootTimeStamp io.timeStamp }

/-! ## the search for the newest root -/

inductive Direction
  | leftward
  | rightward
deriving DecidableEq, Repr

def Direction.other : Direction → Direction
  | .leftward => .rightward
  | .rightward => .leftward

/-- The variables of the search in one file.  `direction` is the one to search
next. -/
structure RootSearch where
  leftPage : Nat
  leftTs : TimeStamp
  rightPage : Nat
  rightTs : TimeStamp
  rightPageIsValidRoot : Bool
  direction : Direction
deriving DecidableEq, Repr

/-- The label `search_leftmost_root`; `none` if there is no root in this file.
The first argument bounds the number of pages that are read. -/
def searchLeftmostRoot (page : List DiskPage) :
    Nat → Nat → Except IoFailure (Option (Nat × TimeStamp))
  | 0, _ => .ok none
  | fuel + 1, leftPage =>
    match page[leftPage]? with
    | none => .error .read
    | some ⟨_, .root ts⟩ => .ok (some (leftPage, ts))
    | some ⟨_, .unused⟩ => .ok none
    | some _ =>
      if leftPage + 1 = page.length then .ok none
      else searchLeftmostRoot page fuel (leftPage + 1)

/-- What happens at the page `mid_page`. -/
inductive MidPage
  /-- `goto found_newest_root_in_this_file` -/
  | found
  /-- `goto mid_page_changed` -/
  | scan (direction : Direction) (midPage : Nat)
  /-- `goto left_or_right_page_changed` -/
  | changed (s : RootSearch)

/-- The label `mid_page_changed`. -/
def readMidPage (page : List DiskPage) (s : RootSearch) (firstMidPage : Nat)
    (direction : Direction) (midPage : Nat) : Except IoFailure MidPage :=
  if midPage = s.leftPage then .ok .found
  else
    match page[midPage]? with
    | none => .error .read
    | some ⟨_, .page⟩ =>
      match direction with
      | .rightward =>
        if midPage + 1 = s.rightPage then
          if s.direction ≠ direction then .ok .found
          else if firstMidPage - 1 = s.leftPage then .ok .found
          else .ok (.scan .leftward (firstMidPage - 1))
        else .ok (.scan .rightward (midPage + 1))
      | .leftward =>
        if midPage - 1 = s.leftPage then
          if s.direction ≠ direction then .ok .found
          else if firstMidPage + 1 = s.rightPage then .ok .found
          else .ok (.scan .rightward (firstMidPage + 1))
        else .ok (.scan .leftward (midPage - 1))
    | some ⟨_, .root ts⟩ =>
      if timeStampIsNewerThan ts s.leftTs then
        .ok (.changed { s with leftPage := midPage, leftTs := ts, direction := direction.other })
      else
        .ok (.changed { s with
          rightPage := midPage, rightTs := ts, rightPageIsValidRoot := true
          direction := direction.other })
    | some ⟨_, .unused⟩ =>
      .ok (.changed { s with rightPage := midPage, rightPageIsValidRoot := false, direction })
    | some ⟨_, .other⟩ => .ok (.scan direction midPage)

/-- The scan for a root near the page `firstMidPage`: `none` if the newest root
is found, otherwise a smaller range.  A scan without end runs out of fuel. -/
def scanForRoot (page : List DiskPage) (s : RootSearch) (firstMidPage : Nat) :
    Nat → Direction → Nat → Except IoFailure (Option RootSearch)
  | 0, _, _ => .error .read
  | fuel + 1, direction, midPage => do
    match ← readMidPage page s firstMidPage direction midPage with
    | .found => return none
    | .scan direction midPage => scanForRoot page s firstMidPage fuel direction midPage
    | .changed s' => return some s'

/-- The label `left_or_right_page_changed`. -/
def searchRange (page : List DiskPage) : Nat → RootSearch → Except IoFailure RootSearch
  | 0, _ => .error .read
  | fuel + 1, s =>
    if s.leftPage = s.rightPage then .ok s
    else do
      let midPage := (s.rightPage + s.leftPage) / 2
      match ← scanForRoot page s midPage (2 * page.length + 1) s.direction midPage with
      | none => return s
      | some s' => searchRange page fuel s'

/-- The newest root in a file. -/
def searchFile (page : List DiskPage) : Except IoFailure (Option (Nat × TimeStamp)) := do
  match ← searchLeftmostRoot page (page.length + 1) 0 with
  | none => return none
  | some (leftPage, leftTs) =>
    let s ← searchRange page (page.length + 1)
      ⟨leftPage, leftTs, page.length, ⟨0, 0⟩, false, .rightward⟩
    if s.rightPageIsValidRoot && timeStampIsNewerThan s.rightTs s.leftTs then
      return some (s.rightPage, s.rightTs)
    else return some (s.leftPage, s.leftTs)

/-- The loop over the files: the cursors are set to the newest root of each
file, and the newest root of all is kept with its time stamp. -/
def searchFiles (i : Nat) (newest : Option (Nat × Nat)) (rootTs : TimeStamp) :
    List DiskFile → Except IoFailure (List DiskFile × Option (Nat × Nat))
  | [] => .ok ([], newest)
  | f :: fs => do
    match ← searchFile f.page with
    | none =>
      let (fs', root) ← searchFiles (i + 1) newest rootTs fs
      return (f :: fs', root)
    | some (page, ts) =>
      let (fs', root) ←
        if timeStampIsNewerThan ts rootTs then searchFiles (i + 1) (some (i, page)) ts fs
        else searchFiles (i + 1) newest rootTs fs
      return ({ f with cursor := page } :: fs', root)

/-- `io_read_root`. -/
def ioReadRoot (optimized : Bool) (io : Io) : Except IoFailure Io :=
  if optimized then do
    let (file, newest) ← searchFiles 0 none ⟨0, 0⟩ io.file
    match newest with
    | none => .error .read
    | some (rootFile, rootPage) =>
      match (file[rootFile]?.bind (·.page[rootPage]?)).map DiskPage.block with
      | some (.root ts) =>
        return { io with
          file := file.modify rootFile fun f =>
            { f.setStatus rootPage .root with numberOfFreePages := ulongPred f.numberOfFreePages }
          prevRoot := some (rootFile, rootPage)
          timeStamp := incrementRootTimeStamp ts }
      | _ => .error .read
  else
    match io.fixedRoot with
    | .root ts => .ok { io with timeStamp := incrementRootTimeStamp ts }
    | _ => .error .read

/-! ## the status of the other pages -/

/-- `io_declare_disk_page_allocated`. -/
def ioDeclareDiskPageAllocated (io : Io) (diskPageNumber : Nat) : Except IoFailure Io :=
  let fileNumber := getFileNumber diskPageNumber
  let pageNumber := getPageNumber diskPageNumber
  if io.status? fileNumber pageNumber = some .free then .error .assertion
  else .ok (io.modifyFile fileNumber (·.setStatus pageNumber .allocated))

/-- `io_free_disk_page`. -/
def ioFreeDiskPage (io : Io) (diskPageNumber : Nat) : Io :=
  let fileNumber := getFileNumber diskPageNumber
  let pageNumber := getPageNumber diskPageNumber
  if io.status? fileNumber pageNumber ≠ some .free then io.freePage fileNumber pageNumber else io

/-- `io_declare_unallocated_pages_free` in one file. -/
def freeUnknownPages : Nat → Io → Nat → Nat → Io
  | 0, io, _, _ => io
  | pagesLeft + 1, io, j, i =>
    freeUnknownPages pagesLeft
      (if io.status? j i = some .unknown then io.freePage j i else io) j (i + 1)

/-- `io_declare_unallocated_pages_free`. -/
def ioDeclareUnallocatedPagesFree (io : Io) : Io :=
  (List.range io.numberOfFiles).foldl
    (fun io' j => freeUnknownPages ((io.file[j]?.map DiskFile.numberOfPages).getD 0) io' j 0) io

end Shades
