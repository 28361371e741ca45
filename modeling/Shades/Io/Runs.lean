import Shades.Bits
import Shades.Io.Counters
import Shades.Io.Search

/-!
# Shades.Io.Runs

The runs of the IO system: files are created, or opened and the root is read;
after that pages are declared allocated or free, and pages and roots are
written, in any order.

A run that has read the root with `OPTIMIZED_ROOT_LOCATION` has a wrong counter
of free pages; in all other runs the counters are right.  `io_write_page` asks
for a file with two free pages, but only one free page in all files makes it go
on to look for one.
-/

namespace Shades

/-! ## runs -/

/-- Where a run is: the files are open, but the root was not read yet; or all
operations can be called, and the root was read from the file `recovered` by a
binary search. -/
inductive IoPhase
  | opened
  | ready (recovered : Option Nat)
deriving DecidableEq, Repr

/-- The file of the root that was read by a binary search. -/
def IoPhase.recovered : IoPhase → Option Nat
  | .opened => none
  | .ready recovered => recovered

/-- There is a page with this number. -/
def Io.HasPage (io : Io) (diskPageNumber : Nat) : Prop :=
  io.status? (getFileNumber diskPageNumber) (getPageNumber diskPageNumber) ≠ none

instance (io : Io) (n : Nat) : Decidable (io.HasPage n) := inferInstanceAs (Decidable (_ ≠ none))

/-- A call of an operation that returns. -/
inductive IoStep (optimized : Bool) : IoPhase → Io → IoPhase → Io → Prop
  | readRoot {io io' : Io} (hrun : ioReadRoot optimized io = .ok io') :
      IoStep optimized .opened io
        (.ready (if optimized then io'.prevRoot.map Prod.fst else none)) io'
  | declareAllocated {recovered : Option Nat} {io io' : Io} {n : Nat} (hpage : io.HasPage n)
      (hrun : ioDeclareDiskPageAllocated io n = .ok io') :
      IoStep optimized (.ready recovered) io (.ready recovered) io'
  | freeDiskPage {recovered : Option Nat} {io : Io} {n : Nat} (hpage : io.HasPage n) :
      IoStep optimized (.ready recovered) io (.ready recovered) (ioFreeDiskPage io n)
  | declareFree {recovered : Option Nat} {io : Io} :
      IoStep optimized (.ready recovered) io (.ready recovered) (ioDeclareUnallocatedPagesFree io)
  | writePage {recovered : Option Nat} {io io' : Io} {n : Nat}
      (hrun : ioWritePage io = .ok (n, io')) :
      IoStep optimized (.ready recovered) io (.ready recovered) io'
  | writeRoot {recovered : Option Nat} {io io' : Io} (hrun : ioWriteRoot optimized io = .ok io') :
      IoStep optimized (.ready recovered) io (.ready recovered) io'

/-- The runs that create or open files.  The status of the pages takes memory,
so there are less pages than words. -/
inductive IoRun (optimized : Bool) : IoPhase → Io → Prop
  | create {io : Io} (hstart : io.numberOfFreeDiskPages = 0)
      (hfits : io.numberOfPages < ulongSize) :
      IoRun optimized (.ready none) (ioCreateFile optimized io)
  | openFile {io : Io} (hstart : io.numberOfFreeDiskPages = 0)
      (hfits : io.numberOfPages < ulongSize) : IoRun optimized .opened (ioOpenFile io)
  | step {phase phase' : IoPhase} {io io' : Io} (hrun : IoRun optimized phase io)
      (hstep : IoStep optimized phase io phase' io') : IoRun optimized phase' io'

/-! ## creating and opening files -/

variable {optimized : Bool} {phase phase' : IoPhase} {io io' : Io} {f : DiskFile} {i j : Nat}

theorem foldl_numberOfPages (fs : List DiskFile) (a : Nat) :
    fs.foldl (fun n f => (n + f.numberOfPages) % ulongSize) (a % ulongSize) =
      (a + (fs.map DiskFile.numberOfPages).sum) % ulongSize := by
  induction fs generalizing a with
  | nil => rfl
  | cons f fs ih =>
    rw [List.foldl_cons, Nat.mod_add_mod, ih, List.map_cons, List.sum_cons, Nat.add_assoc]

/-- All pages of a file have the status. -/
theorem countP_status (status : DiskPageStatus) (g : DiskPage → DiskBlock) (page : List DiskPage) :
    (page.map fun p => (⟨status, g p⟩ : DiskPage)).countP (fun p => p.status = .free) =
      if status = .free then page.length else 0 := by
  induction page with
  | nil => simp
  | cons p page ih =>
    rw [List.map_cons, List.countP_cons, ih]
    split <;> simp_all

theorem ioCreateFile_sound (hstart : io.numberOfFreeDiskPages = 0)
    (hfits : io.numberOfPages < ulongSize) : (ioCreateFile optimized io).Sound none := by
  have hfree : ∀ f : DiskFile, (f.page.map fun p =>
      (⟨.free, if optimized then .unused else p.block⟩ : DiskPage)).countP
        (fun p => p.status = .free) = f.numberOfPages := fun f =>
    (countP_status .free _ f.page).trans (if_pos rfl)
  refine ⟨⟨fun j f' hf' => ?_, ?_, ?_, fun j hj => by cases hj⟩, ⟨fun f' hf' => ?_, ?_⟩⟩
  · unfold ioCreateFile at hf'
    rw [List.getElem?_map] at hf'
    obtain ⟨f, hf, rfl⟩ := Option.map_eq_some_iff.mp hf'
    have hle := Io.numberOfPages_le hf
    show f.numberOfPages = (List.countP _ _ + 0) % ulongSize
    rw [hfree, Nat.add_zero, Nat.mod_eq_of_lt (by omega)]
  · have htotal := foldl_numberOfPages io.file 0
    rw [Nat.zero_mod, Nat.zero_add] at htotal
    unfold ioCreateFile Io.freePages DiskFile.freePages
    rw [hstart, htotal, List.map_map]
    simp only [Function.comp_def, hfree]
  · unfold Io.numberOfPages DiskFile.numberOfPages at hfits ⊢
    simpa [ioCreateFile, Function.comp_def] using hfits
  · obtain ⟨f, hf, rfl⟩ := List.mem_map.mp hf'
    exact (Nat.eq_zero_or_pos _).symm
  · exact (Nat.eq_zero_or_pos _).symm

theorem ioOpenFile_sound (hstart : io.numberOfFreeDiskPages = 0)
    (hfits : io.numberOfPages < ulongSize) : (ioOpenFile io).Sound none := by
  have hfree : ∀ f : DiskFile, (f.page.map fun p => (⟨.unknown, p.block⟩ : DiskPage)).countP
      (fun p => p.status = .free) = 0 := fun f =>
    (countP_status .unknown _ f.page).trans (if_neg (by decide))
  refine ⟨⟨fun j f' hf' => ?_, ?_, ?_, fun j hj => by cases hj⟩, ⟨fun f' hf' => ?_, ?_⟩⟩
  · unfold ioOpenFile at hf'
    rw [List.getElem?_map] at hf'
    obtain ⟨f, hf, rfl⟩ := Option.map_eq_some_iff.mp hf'
    show 0 = (List.countP _ _ + 0) % ulongSize
    rw [hfree]
    rfl
  · unfold ioOpenFile Io.freePages DiskFile.freePages
    rw [hstart, List.map_map]
    simp only [Function.comp_def, hfree]
    simp
  · unfold Io.numberOfPages DiskFile.numberOfPages at hfits ⊢
    simpa [ioOpenFile, Function.comp_def] using hfits
  · obtain ⟨f, hf, rfl⟩ := List.mem_map.mp hf'
    exact (Nat.eq_zero_or_pos _).symm
  · exact (Nat.eq_zero_or_pos _).symm

/-- All pages have an unknown status. -/
def Io.Unknown (io : Io) : Prop := ∀ f ∈ io.file, ∀ page ∈ f.page, page.status = .unknown

theorem ioOpenFile_unknown : (ioOpenFile io).Unknown := by
  intro f' hf' page hpage
  obtain ⟨f, -, rfl⟩ := List.mem_map.mp hf'
  obtain ⟨page, -, rfl⟩ := List.mem_map.mp hpage
  rfl

/-! ## reading the root -/

/-- Only the cursors differ. -/
def SameFiles : List DiskFile → List DiskFile → Prop :=
  List.Forall₂ fun f f' => ∃ i, f' = f.atCursor i ∧ (f.CursorOk → f'.CursorOk)

theorem searchFiles_none {fs : List DiskFile} (newest : Option (Nat × Nat)) (ts : TimeStamp)
    (hfile : searchFile f.page = .ok none) :
    searchFiles i newest ts (f :: fs) =
      (searchFiles (i + 1) newest ts fs).map fun r => (f :: r.1, r.2) := by
  rw [searchFiles, hfile]
  cases hgo : searchFiles (i + 1) newest ts fs <;>
    simp [bind, Except.bind, pure, Except.pure, Except.map]

theorem searchFiles_some {fs : List DiskFile} (newest : Option (Nat × Nat)) (ts : TimeStamp)
    {rootTs : TimeStamp} (hfile : searchFile f.page = .ok (some (j, rootTs))) :
    searchFiles i newest ts (f :: fs) =
      (if timeStampIsNewerThan rootTs ts then searchFiles (i + 1) (some (i, j)) rootTs fs
        else searchFiles (i + 1) newest ts fs).map fun r => (f.atCursor j :: r.1, r.2) := by
  rw [searchFiles, hfile]
  simp only [bind, Except.bind, pure, Except.pure, Except.map]
  split <;> rfl

theorem map_eq_ok {ε α β : Type} {x : Except ε α} {g : α → β} {b : β} (h : x.map g = .ok b) :
    ∃ a, x = .ok a ∧ g a = b := by
  cases x with
  | error e => cases h
  | ok a => exact ⟨a, rfl, Except.ok.inj h⟩

/-- The loop over the files only sets the cursors. -/
theorem searchFiles_same {fs fs' : List DiskFile} {newest root : Option (Nat × Nat)}
    {ts : TimeStamp} (h : searchFiles i newest ts fs = .ok (fs', root)) : SameFiles fs fs' := by
  induction fs generalizing i newest ts fs' root with
  | nil =>
    obtain ⟨rfl, -⟩ := Prod.mk.inj (Except.ok.inj h)
    exact .nil
  | cons f fs ih =>
    cases hfile : searchFile f.page with
    | error e =>
      rw [searchFiles, hfile] at h
      cases h
    | ok r =>
      cases r with
      | none =>
        rw [searchFiles_none newest ts hfile] at h
        obtain ⟨r, hgo, hr⟩ := map_eq_ok h
        obtain ⟨rfl, -⟩ := Prod.mk.inj hr
        exact .cons ⟨f.cursor, rfl, id⟩ (ih hgo)
      | some p =>
        rw [searchFiles_some newest ts hfile] at h
        obtain ⟨r, hgo, hr⟩ := map_eq_ok h
        obtain ⟨rfl, -⟩ := Prod.mk.inj hr
        refine .cons ⟨p.1, rfl, fun _ => .inl (searchFile_root hfile).lt⟩ ?_
        split at hgo
        · exact ih hgo
        · exact ih hgo

theorem SameFiles.map_eq {fs fs' : List DiskFile} (h : SameFiles fs fs') {c : DiskFile → Nat}
    (hc : ∀ f i, c (f.atCursor i) = c f) : fs'.map c = fs.map c := by
  induction h with
  | nil => rfl
  | cons hf _ ih =>
    obtain ⟨i, rfl, -⟩ := hf
    rw [List.map_cons, List.map_cons, ih, hc]

theorem SameFiles.get {fs fs' : List DiskFile} (h : SameFiles fs fs') {f' : DiskFile}
    (hf' : fs'[j]? = some f') :
    ∃ f i, fs[j]? = some f ∧ f' = f.atCursor i ∧ (f.CursorOk → f'.CursorOk) := by
  induction h generalizing j with
  | nil => cases hf'
  | @cons f g fs fs' hf _ ih =>
    cases j with
    | zero =>
      obtain ⟨i, hg, hcursor⟩ := hf
      obtain rfl : g = f' := by simpa using hf'
      exact ⟨f, i, rfl, hg, hcursor⟩
    | succ j => exact ih (by simpa using hf')

/-- The files with other cursors. -/
theorem Io.Sound.sameFiles {recovered : Option Nat} (h : io.Sound recovered)
    {fs : List DiskFile} (hsame : SameFiles io.file fs) :
    ({ io with file := fs } : Io).Sound recovered := by
  have hlen := hsame.length_eq
  refine ⟨⟨fun j f' hf' => ?_, ?_, ?_, fun j hj => ?_⟩, ⟨fun f' hf' => ?_, ?_⟩⟩
  · obtain ⟨f, i, hf, rfl, -⟩ := hsame.get hf'
    exact h.counts.file j f hf
  · show io.numberOfFreeDiskPages = (fs.map DiskFile.freePages).sum % ulongSize
    rw [hsame.map_eq fun _ _ => rfl]
    exact h.counts.total
  · show (fs.map DiskFile.numberOfPages).sum < ulongSize
    rw [hsame.map_eq fun _ _ => rfl]
    exact h.counts.fits
  · obtain ⟨f, hf⟩ := h.counts.recovered_file j hj
    have hlt := (List.getElem?_eq_some_iff.mp hf).1
    exact ⟨fs[j], List.getElem?_eq_getElem (hlen ▸ hlt)⟩
  · obtain ⟨j, hj⟩ := List.mem_iff_getElem?.mp hf'
    obtain ⟨f, i, hf, rfl, hcursor⟩ := hsame.get hj
    exact hcursor (h.cursors.file f (List.mem_of_getElem? hf))
  · show io.fileCursor < fs.length ∨ fs.length = 0
    rw [← hlen]
    exact h.cursors.fileCursor

/-- What `io_read_root` does with the binary search. -/
theorem ioReadRoot_ok (hrun : ioReadRoot true io = .ok io') :
    ∃ fs j i ts f, searchFiles 0 none ⟨0, 0⟩ io.file = .ok (fs, some (j, i)) ∧
      fs[j]? = some f ∧ RootOn f.page i ts ∧
      io' = { io with
        file := fs.modify j fun f =>
          { f.setStatus i .root with numberOfFreePages := ulongPred f.numberOfFreePages }
        prevRoot := some (j, i)
        timeStamp := incrementRootTimeStamp ts } := by
  unfold ioReadRoot at hrun
  rw [if_pos rfl] at hrun
  cases hsearch : searchFiles 0 none ⟨0, 0⟩ io.file with
  | error e => simp [hsearch, bind, Except.bind] at hrun
  | ok r =>
    obtain ⟨fs, newest⟩ := r
    simp only [hsearch, bind, Except.bind, pure, Except.pure] at hrun
    cases newest with
    | none => cases hrun
    | some p =>
      obtain ⟨j, i⟩ := p
      dsimp only at hrun
      split at hrun
      · next ts hblock =>
        cases hf : fs[j]? with
        | none => simp [hf] at hblock
        | some f =>
          refine ⟨fs, j, i, ts, f, rfl, hf, ?_, (Except.ok.inj hrun).symm⟩
          simpa [hf, RootOn, blockAt] using hblock
      · cases hrun

/-- `io_read_root` counts a page that was not counted before. -/
theorem Io.Counts.uncounted (h : io.Counts none) (hf : io.file[j]? = some f) {page : DiskPage}
    (hpage : f.page[i]? = some page) (hnot : page.status ≠ .free) :
    Io.Counts (some j) { io with
      file := io.file.modify j fun f =>
        { f.setStatus i .root with numberOfFreePages := ulongPred f.numberOfFreePages } } := by
  have hcount := DiskFile.freePages_setStatus hpage .root
  simp only [hnot, if_false, Nat.add_zero, reduceCtorEq] at hcount
  have hfree : ∀ n, ({ f.setStatus i .root with numberOfFreePages := n } : DiskFile).freePages =
      f.freePages := fun _ => hcount
  have hsum := sum_map_modify DiskFile.freePages hf fun f =>
    { f.setStatus i .root with numberOfFreePages := ulongPred f.numberOfFreePages }
  have hpages := sum_map_modify DiskFile.numberOfPages hf fun f =>
    { f.setStatus i .root with numberOfFreePages := ulongPred f.numberOfFreePages }
  have hsame : ∀ n, ({ f.setStatus i .root with numberOfFreePages := n } : DiskFile).numberOfPages =
      f.numberOfPages := fun _ => f.numberOfPages_setStatus i .root
  rw [hfree] at hsum
  rw [hsame] at hpages
  refine ⟨fun k f' hf' => ?_, ?_, ?_, fun k hk => ?_⟩
  · dsimp only at hf'
    rw [List.getElem?_modify] at hf'
    obtain ⟨f₀, hf₀, rfl⟩ := Option.map_eq_some_iff.mp hf'
    have hold := h.file k f₀ hf₀
    by_cases hjk : j = k
    · subst hjk
      obtain rfl : f = f₀ := Option.some.inj (hf.symm.trans hf₀)
      rw [if_pos rfl, hfree, lack, if_pos rfl, ← ulongPred_mod, hold]
      rfl
    · rw [if_neg hjk, lack, if_neg (by simpa using hjk)]
      exact hold
  · show io.numberOfFreeDiskPages = List.sum _ % ulongSize
    rw [h.total, Nat.add_right_cancel hsum]
    rfl
  · show List.sum _ < ulongSize
    rw [Nat.add_right_cancel hpages]
    exact h.fits
  · obtain rfl := Option.some.inj hk
    dsimp only
    rw [List.getElem?_modify, hf]
    exact ⟨_, rfl⟩

theorem Io.Sound.readRoot (h : io.Sound none) (hunknown : io.Unknown)
    (hrun : ioReadRoot optimized io = .ok io') :
    io'.Sound (if optimized then io'.prevRoot.map Prod.fst else none) := by
  cases optimized with
  | false =>
    unfold ioReadRoot at hrun
    simp only [Bool.false_eq_true, if_false] at hrun ⊢
    split at hrun
    · obtain rfl := Except.ok.inj hrun
      exact ⟨⟨h.counts.file, h.counts.total, h.counts.fits, h.counts.recovered_file⟩,
        ⟨h.cursors.file, h.cursors.fileCursor⟩⟩
    · cases hrun
  | true =>
    obtain ⟨fs, j, i, ts, f, hsearch, hf, hroot, rfl⟩ := ioReadRoot_ok hrun
    have hsame := searchFiles_same hsearch
    have hsound := h.sameFiles hsame
    obtain ⟨page, hpage, -⟩ := Option.map_eq_some_iff.mp hroot
    obtain ⟨f₀, c, hf₀, rfl, -⟩ := hsame.get hf
    have hstatus : page.status = .unknown :=
      hunknown f₀ (List.mem_of_getElem? hf₀) page (List.mem_of_getElem? hpage)
    have hcounts := hsound.counts.uncounted hf hpage (by rw [hstatus]; decide)
    have hcursors := hsound.cursors.modifyFile (j := j) (g := fun f =>
      { f.setStatus i .root with numberOfFreePages := ulongPred f.numberOfFreePages })
      fun _ hcursor => hcursor.setStatus i .root
    exact ⟨⟨hcounts.file, hcounts.total, hcounts.fits, hcounts.recovered_file⟩,
      ⟨hcursors.file, hcursors.fileCursor⟩⟩

/-! ## all runs -/

/-- The invariant of a run. -/
structure IoPhase.Sound (phase : IoPhase) (io : Io) : Prop where
  sound : io.Sound phase.recovered
  unknown : phase = .opened → io.Unknown

theorem IoPhase.Sound.step (h : phase.Sound io) (hstep : IoStep optimized phase io phase' io') :
    phase'.Sound io' := by
  cases hstep with
  | readRoot hrun => exact ⟨h.sound.readRoot (h.unknown rfl) hrun, fun hphase => by cases hphase⟩
  | declareAllocated hpage hrun =>
    exact ⟨h.sound.declareDiskPageAllocated hpage hrun, fun hphase => by cases hphase⟩
  | freeDiskPage hpage => exact ⟨h.sound.freeDiskPage hpage, fun hphase => by cases hphase⟩
  | declareFree => exact ⟨h.sound.declareUnallocatedPagesFree, fun hphase => by cases hphase⟩
  | writePage hrun => exact ⟨h.sound.writePage hrun, fun hphase => by cases hphase⟩
  | writeRoot hrun => exact ⟨h.sound.writeRoot hrun, fun hphase => by cases hphase⟩

theorem IoRun.sound (hrun : IoRun optimized phase io) : phase.Sound io := by
  induction hrun with
  | create hstart hfits => exact ⟨ioCreateFile_sound hstart hfits, fun hphase => by cases hphase⟩
  | openFile hstart hfits => exact ⟨ioOpenFile_sound hstart hfits, fun _ => ioOpenFile_unknown⟩
  | step _ hstep ih => exact ih.step hstep

/-! ## the counters of free pages -/

/-- Each counter is the number of pages with status `FREE`. -/
def Io.CountersRight (io : Io) : Prop :=
  (∀ f ∈ io.file, f.numberOfFreePages = f.freePages) ∧ io.numberOfFreeDiskPages = io.freePages

/-- No counter wraps below zero: when a page is taken, its file and all files
together have free pages by their counters. -/
def Io.DecrementsPositive (io : Io) : Prop :=
  ∀ usable io₁, findDiskPage usable io.numberOfFiles io = some io₁ →
    (∀ f, io₁.file[io₁.fileCursor]? = some f → 0 < f.numberOfFreePages) ∧
    0 < io₁.numberOfFreeDiskPages

variable {recovered : Option Nat}

theorem Io.Counts.file_eq (h : io.Counts recovered) (hf : io.file[j]? = some f)
    (hnot : recovered ≠ some j) : f.numberOfFreePages = f.freePages := by
  have hle := f.freePages_le
  have hpages := Io.numberOfPages_le hf
  have hfits := h.fits
  rw [h.file j f hf, lack, if_neg hnot, Nat.add_zero, Nat.mod_eq_of_lt (by omega)]

theorem Io.Counts.total_eq (h : io.Counts recovered) :
    io.numberOfFreeDiskPages = io.freePages := by
  have hle := io.freePages_le
  have hfits := h.fits
  rw [h.total, Nat.mod_eq_of_lt (by omega)]

/-- The counter of the file that the root was read from is one too low. -/
theorem Io.Counts.file_lacks (h : io.Counts (some j)) (hf : io.file[j]? = some f) :
    f.numberOfFreePages = if f.freePages = 0 then ulongSize - 1 else f.freePages - 1 := by
  have hle := f.freePages_le
  have hpages := Io.numberOfPages_le hf
  have hfits := h.fits
  rw [h.file j f hf, lack, if_pos rfl]
  unfold ulongSize at hfits ⊢
  split <;> omega

/-- A file with a free page counts one. -/
theorem DiskFile.Free.freePages_pos (h : f.Free i) : 0 < f.freePages := by
  obtain ⟨page, hpage, hstatus⟩ := Option.map_eq_some_iff.mp h
  exact List.countP_pos_iff.mpr ⟨page, List.mem_of_getElem? hpage, decide_eq_true hstatus⟩

theorem DiskFile.exists_free (h : 0 < f.freePages) : ∃ i, f.Free i := by
  obtain ⟨page, hpage, hstatus⟩ := List.countP_pos_iff.mp h
  obtain ⟨i, hi⟩ := List.mem_iff_getElem?.mp hpage
  exact ⟨i, by simpa [DiskFile.Free, hi] using hstatus⟩

theorem Io.Sound.decrementsPositive (h : io.Sound none) : io.DecrementsPositive := by
  intro usable io₁ hfind
  rcases findDiskPage_round usable h.cursors with ⟨j, f, i, hf, -, hfirst, hrun⟩ |
    ⟨hrun, -⟩
  · rw [hrun] at hfind
    obtain rfl := Option.some.inj hfind
    obtain ⟨-, -, -, hfree, -⟩ := hfirst
    obtain ⟨hat, hfile⟩ := h.atPage hf hfree
    have hpos := hfree.freePages_pos
    have hle := Io.freePages_le_of_file hfile
    have hcount : (f.atCursor i).freePages = f.freePages := rfl
    refine ⟨fun f' hf' => ?_, by rw [hat.counts.total_eq]; omega⟩
    obtain rfl := Option.some.inj (hfile.symm.trans hf')
    rw [hat.counts.file_eq hfile (by simp)]
    omega
  · cases hrun.symm.trans hfind

/-- In every run the counters are right, and no decrement wraps, as long as no
root was read by a binary search; afterwards they are wrong. -/
theorem io_counters (hrun : IoRun optimized phase io) :
    (io.CountersRight ↔ phase.recovered = none) ∧
      (phase.recovered = none → io.DecrementsPositive) := by
  obtain ⟨hsound, -⟩ := hrun.sound
  refine ⟨⟨fun hright => ?_, fun hnone => ⟨fun f hf => ?_, hsound.counts.total_eq⟩⟩,
    fun hnone => ?_⟩
  · cases hrec : phase.recovered with
    | none => rfl
    | some j =>
      rw [hrec] at hsound
      obtain ⟨f, hf⟩ := hsound.counts.recovered_file j rfl
      have hlacks := hsound.counts.file_lacks hf
      have heq := hright.1 f (List.mem_of_getElem? hf)
      have hle := f.freePages_le
      have hpages := Io.numberOfPages_le hf
      have hfits := hsound.counts.fits
      unfold ulongSize at hlacks hfits
      split at hlacks <;> omega
  · obtain ⟨j, hj⟩ := List.mem_iff_getElem?.mp hf
    exact hsound.counts.file_eq hj (by rw [hnone]; simp)
  · rw [hnone] at hsound
    exact hsound.decrementsPositive

/-- Blank files with some pages each. -/
def blankFiles (files pages : Nat) : Io where
  file := List.replicate files ⟨List.replicate pages ⟨.unknown, .other⟩, pages, 0⟩
  fileCursor := 0
  numberOfFreeDiskPages := 0
  prevRoot := none
  timeStamp := ⟨0, 1⟩
  fixedRoot := .other

/-- Calls in a row. -/
inductive IoCall where
  | writePage
  | writeRoot
  | freeDiskPage (n : Nat)

/-- What they do, unless one of them fails or frees a page that does not exist. -/
def ioCalls (optimized : Bool) : List IoCall → Io → Option Io
  | [], io => some io
  | .writePage :: calls, io =>
    match ioWritePage io with
    | .ok (_, io) => ioCalls optimized calls io
    | .error _ => none
  | .writeRoot :: calls, io =>
    match ioWriteRoot optimized io with
    | .ok io => ioCalls optimized calls io
    | .error _ => none
  | .freeDiskPage n :: calls, io =>
    if io.HasPage n then ioCalls optimized calls (ioFreeDiskPage io n) else none

theorem IoRun.calls {recovered : Option Nat} {calls : List IoCall}
    (hrun : IoRun optimized (.ready recovered) io) (h : ioCalls optimized calls io = some io') :
    IoRun optimized (.ready recovered) io' := by
  induction calls generalizing io with
  | nil =>
    obtain rfl := Option.some.inj h
    exact hrun
  | cons call calls ih =>
    cases call with
    | writePage =>
      simp only [ioCalls] at h
      split at h
      · exact ih (hrun.step (.writePage ‹_›)) h
      · cases h
    | writeRoot =>
      simp only [ioCalls] at h
      split at h
      · exact ih (hrun.step (.writeRoot ‹_›)) h
      · cases h
    | freeDiskPage n =>
      simp only [ioCalls] at h
      split_ifs at h with hpage
      exact ih (hrun.step (.freeDiskPage hpage)) h

/-- Pages and a root are written to two new files, and one of the pages is freed. -/
theorem io_counters_mix : ∃ io, IoRun true (.ready none) io ∧
    (io.file.map fun f => (f.numberOfFreePages, f.freePages)) = [(3, 3), (2, 2)] ∧
    io.CountersRight ∧ io.DecrementsPositive := by
  have hlook : (ioCalls true
      [.writePage, .writePage, .writeRoot, .freeDiskPage 0, .writePage]
        (ioCreateFile true (blankFiles 2 4))).map
          (fun io => io.file.map fun f => (f.numberOfFreePages, f.freePages)) =
      some [(3, 3), (2, 2)] := by
    decide +kernel
  obtain ⟨io, hcalls, hcounts⟩ := Option.map_eq_some_iff.mp hlook
  have hcreate : IoRun true (.ready none) (ioCreateFile true (blankFiles 2 4)) :=
    .create rfl (by decide)
  have hrun := hcreate.calls hcalls
  obtain ⟨hright, hpositive⟩ := io_counters hrun
  exact ⟨io, hrun, hcounts, hright.mpr rfl, hpositive rfl⟩

/-- A file with a root. -/
def oneRoot : Io := { blankFiles 1 3 with
  file := [⟨[⟨.unknown, .root ⟨0, 1⟩⟩, ⟨.unknown, .unused⟩, ⟨.unknown, .unused⟩], 3, 0⟩] }

/-- The root is read: the counter of the file wraps, and after the unallocated
pages were freed it is one too low. -/
theorem ioReadRoot_wraps : ∃ io, IoRun true (.ready (some 0)) io ∧
    (io.file.map fun f => (f.numberOfFreePages, f.freePages)) = [(4294967295, 0)] ∧
    IoRun true (.ready (some 0)) (ioDeclareUnallocatedPagesFree io) ∧
    ((ioDeclareUnallocatedPagesFree io).file.map fun f => (f.numberOfFreePages, f.freePages)) =
      [(1, 2)] := by
  have hopen : IoRun true .opened (ioOpenFile oneRoot) := .openFile rfl (by decide)
  obtain ⟨io, hread⟩ : ∃ io, ioReadRoot true (ioOpenFile oneRoot) = .ok io := ⟨_, rfl⟩
  have hphase := hopen.step (.readRoot hread)
  obtain rfl := Except.ok.inj hread
  exact ⟨_, hphase, by decide, hphase.step .declareFree, by decide⟩

/-! ## the page that is written -/

/-- `io_write_page` takes its disk-full exit, or it assigns a disk page that was
free: the number is that of the page (if it has the bits for it), the page is
allocated, and no other page changes its status. -/
def Io.WritesFreePage (io : Io) : Prop :=
  ioWritePage io = .error .diskFull ∨
  ∃ io' j i, ioWritePage io = .ok (makeDiskPageNumber j i, io') ∧
    (j < 2 ^ 5 → i < 2 ^ 27 → getFileNumber (makeDiskPageNumber j i) = j ∧
      getPageNumber (makeDiskPageNumber j i) = i) ∧
    io.status? j i = some .free ∧ io'.status? j i = some .allocated ∧
    ∀ j' i', (j', i') ≠ (j, i) → io'.status? j' i' = io.status? j' i'

theorem makeDiskPageNumber_fields (hj : j < 2 ^ 5) (hi : i < 2 ^ 27) :
    getFileNumber (makeDiskPageNumber j i) = j ∧ getPageNumber (makeDiskPageNumber j i) = i := by
  unfold makeDiskPageNumber getFileNumber getPageNumber pageIndexBits
  rw [or_of_lt _ _ _ hi, Nat.mod_eq_of_lt (by omega), Nat.shiftRight_eq_div_pow]
  omega

/-- Only the page at the cursors changes its status. -/
theorem status?_takePage (hf : io.file[j]? = some f) (hi : i < f.numberOfPages)
    (status : DiskPageStatus) (block : DiskBlock) :
    (((io.atPage j i).takePage status block).moveOn).status? j i = some status ∧
      ∀ j' i', (j', i') ≠ (j, i) →
        (((io.atPage j i).takePage status block).moveOn).status? j' i' = io.status? j' i' := by
  have hpage : f.page[i]? = some f.page[i] := List.getElem?_eq_getElem hi
  simp only [Io.status?, Io.moveOn, Io.nextFile, Io.takePage, Io.atPage, Io.modifyFile,
    List.getElem?_modify]
  refine ⟨?_, fun j' i' hne => ?_⟩
  · simp [hf, DiskFile.moveOn, DiskFile.write, DiskFile.setStatus, DiskFile.atCursor, hpage]
  · by_cases hjj : j = j'
    · subst hjj
      have hii : i ≠ i' := fun heq => hne (by rw [heq])
      simp [hf, DiskFile.moveOn, DiskFile.write, DiskFile.setStatus, DiskFile.atCursor, hii]
    · simp [hjj]

/-- In every run `io_write_page` only hands out pages that are free.  It takes
the disk-full exit or hands out a page unless it fails the assertion, which
happens if there are free pages, but no file has two of them; the file that the
root was read from by a binary search needs three. -/
theorem io_writePage (hrun : IoRun optimized phase io) :
    (∀ n io', ioWritePage io = .ok (n, io') → io.WritesFreePage) ∧
    (io.WritesFreePage ↔ (∀ f ∈ io.file, f.freePages = 0) ∨
      ∃ j f, io.file[j]? = some f ∧
        (if phase.recovered = some j then 2 else 1) < f.freePages) := by
  obtain ⟨⟨hcounts, hcursors⟩, -⟩ := hrun.sound
  have htotal := hcounts.total_eq
  -- a file is used exactly if it has enough free pages
  have husable : ∀ j f i, io.file[j]? = some f → f.Free i → (1 < f.numberOfFreePages ↔
      (if phase.recovered = some j then 2 else 1) < f.freePages) := by
    intro j f i hf hfree
    have hpos := hfree.freePages_pos
    by_cases hrec : phase.recovered = some j
    · rw [hrec] at hcounts
      rw [if_pos hrec, hcounts.file_lacks hf, if_neg (by omega)]
      omega
    · rw [if_neg hrec, hcounts.file_eq hf hrec]
  rcases ioWritePage_cases hcursors with ⟨hzero, hwrite⟩ |
    ⟨hsome, j, f, i, hf, hcounter, hfirst, hwrite⟩ | ⟨hsome, hwrite, hnone⟩
  · -- the disk is full
    refine ⟨fun _ _ _ => .inl hwrite, fun _ => .inl fun f hf => ?_, fun _ => .inl hwrite⟩
    obtain ⟨j, hj⟩ := List.mem_iff_getElem?.mp hf
    have hle := Io.freePages_le_of_file hj
    omega
  · -- a free page is taken
    obtain ⟨-, -, -, hfree, -⟩ := hfirst
    obtain ⟨hnew, hother⟩ := status?_takePage hf hfree.lt .allocated .page
    have hgood : io.WritesFreePage := .inr ⟨_, j, i, hwrite, makeDiskPageNumber_fields,
      (Io.status?_free hf).mpr hfree, hnew, hother⟩
    exact ⟨fun _ _ _ => hgood, fun _ => .inr ⟨j, f, hf, (husable j f i hf hfree).mp hcounter⟩,
      fun _ => hgood⟩
  · -- the assertion fails
    refine ⟨fun _ _ hrun => (by cases hwrite.symm.trans hrun), fun hgood => ?_, fun hcond => ?_⟩
    · rcases hgood with hfull | ⟨io', j, i, hok, -⟩
      · cases hwrite.symm.trans hfull
      · cases hwrite.symm.trans hok
    · rcases hcond with hzero | ⟨j, f, hf, henough⟩
      · have hsum : io.freePages = 0 := by
          refine List.sum_eq_zero fun c hc => ?_
          obtain ⟨f, hf, rfl⟩ := List.mem_map.mp hc
          exact hzero f hf
        omega
      · obtain ⟨i, hfree⟩ := DiskFile.exists_free (f := f) (by omega)
        exact absurd hfree (hnone f (List.mem_of_getElem? hf)
          ((husable j f i hf hfree).mpr henough) i)

/-- Both files have free pages enough. -/
theorem io_writePage_two : (ioCreateFile false (blankFiles 2 3)).WritesFreePage :=
  have hcreate : IoRun false (.ready none) (ioCreateFile false (blankFiles 2 3)) :=
    .create rfl (by decide)
  (io_writePage hcreate).2.mpr (.inr ⟨0, _, rfl, by decide⟩)

/-- Two files with one free page each: the assertion fails. -/
theorem ioWritePage_fails : ∃ io, IoRun false (.ready none) io ∧ io.freePages = 2 ∧
    ioWritePage io = .error .assertion ∧ ¬ io.WritesFreePage := by
  have hwrite : ioWritePage (ioCreateFile false (blankFiles 2 1)) = .error .assertion := rfl
  refine ⟨_, .create rfl (by decide), by decide, hwrite, ?_⟩
  rintro (hfull | ⟨io', j, i, hok, -⟩)
  · cases hwrite.symm.trans hfull
  · cases hwrite.symm.trans hok

end Shades
