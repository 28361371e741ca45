import Mathlib.Algebra.Order.BigOperators.Group.List
import Mathlib.Algebra.Order.Group.Nat
import Shades.Io.RoundRobin

/-!
# Shades.Io.Counters

The counters of free pages.  Every operation changes the status of pages one at
a time, and counts the pages that become free or cease to be free, with one
exception: `io_read_root` counts the page of the root as one that ceases to be
free though its status was unknown.  The counter of that file is one too low
from then on, and it wraps around below zero at once.
-/

namespace Shades

/-! ## words -/

theorem ulongSucc_mod (x : Nat) : ulongSucc (x % ulongSize) = (x + 1) % ulongSize := by
  unfold ulongSucc ulongSize
  split <;> omega

theorem ulongPred_mod_succ (x : Nat) : ulongPred ((x + 1) % ulongSize) = x % ulongSize := by
  unfold ulongPred ulongSize
  split <;> omega

theorem ulongPred_mod (x : Nat) :
    ulongPred (x % ulongSize) = (x + (ulongSize - 1)) % ulongSize := by
  unfold ulongPred ulongSize
  split <;> omega

/-! ## counting in lists -/

section lists

variable {α : Type} {l : List α} {i : Nat} {a : α}

/-- One element is changed. -/
theorem countP_modify (p : α → Bool) (h : l[i]? = some a) (g : α → α) :
    (l.modify i g).countP p + (if p a then 1 else 0) =
      l.countP p + (if p (g a) then 1 else 0) := by
  induction l generalizing i with
  | nil => cases h
  | cons b l ih =>
    cases i with
    | zero =>
      obtain rfl : b = a := by simpa using h
      rw [List.modify_zero_cons, List.countP_cons, List.countP_cons]
      omega
    | succ i =>
      rw [List.modify_succ_cons, List.countP_cons, List.countP_cons]
      have hrest := ih (by simpa using h)
      omega

theorem sum_map_modify (c : α → Nat) (h : l[i]? = some a) (g : α → α) :
    ((l.modify i g).map c).sum + c a = (l.map c).sum + c (g a) := by
  induction l generalizing i with
  | nil => cases h
  | cons b l ih =>
    cases i with
    | zero =>
      obtain rfl : b = a := by simpa using h
      simp only [List.modify_zero_cons, List.map_cons, List.sum_cons]
      omega
    | succ i =>
      simp only [List.modify_succ_cons, List.map_cons, List.sum_cons]
      have hrest := ih (by simpa using h)
      omega

end lists

/-! ## counting pages -/

/-- The number of pages with status `FREE`. -/
def DiskFile.freePages (f : DiskFile) : Nat := f.page.countP fun p => p.status = .free

/-- The number of free pages of all files. -/
def Io.freePages (io : Io) : Nat := (io.file.map DiskFile.freePages).sum

/-- The number of pages of all files. -/
def Io.numberOfPages (io : Io) : Nat := (io.file.map DiskFile.numberOfPages).sum

/-- What the counter of the file `j` lacks, modulo the size of a word. -/
def lack (recovered : Option Nat) (j : Nat) : Nat :=
  if recovered = some j then ulongSize - 1 else 0

/-- The counters, if the root was read from the file `recovered`. -/
structure Io.Counts (recovered : Option Nat) (io : Io) : Prop where
  file : ∀ j f, io.file[j]? = some f →
    f.numberOfFreePages = (f.freePages + lack recovered j) % ulongSize
  total : io.numberOfFreeDiskPages = io.freePages % ulongSize
  fits : io.numberOfPages < ulongSize
  recovered_file : ∀ j, recovered = some j → ∃ f, io.file[j]? = some f

variable {recovered : Option Nat} {io io' : Io} {i j : Nat} {f f' : DiskFile}

theorem DiskFile.freePages_le (f : DiskFile) : f.freePages ≤ f.numberOfPages :=
  List.countP_le_length

/-- A file is not larger than all files together. -/
theorem Io.numberOfPages_le (hf : io.file[j]? = some f) : f.numberOfPages ≤ io.numberOfPages :=
  List.single_le_sum (by simp) _ (List.mem_map_of_mem (List.mem_of_getElem? hf))

theorem Io.freePages_le_of_file (hf : io.file[j]? = some f) : f.freePages ≤ io.freePages :=
  List.single_le_sum (by simp) _ (List.mem_map_of_mem (List.mem_of_getElem? hf))

theorem Io.freePages_le (io : Io) : io.freePages ≤ io.numberOfPages :=
  List.sum_le_sum fun f _ => f.freePages_le

/-- The file `j` is changed, and the counter of all files. -/
theorem Io.Counts.modify (h : io.Counts recovered) (hf : io.file[j]? = some f)
    (g : DiskFile → DiskFile) {n : Nat} (hpages : (g f).numberOfPages = f.numberOfPages)
    (hfile : (g f).numberOfFreePages = ((g f).freePages + lack recovered j) % ulongSize)
    (htotal : ∀ rest, io.freePages = rest + f.freePages →
      n = (rest + (g f).freePages) % ulongSize) :
    Io.Counts recovered { io.modifyFile j g with numberOfFreeDiskPages := n } where
  file k f' hf' := by
    have hf' : (io.file.modify j g)[k]? = some f' := hf'
    rw [List.getElem?_modify] at hf'
    by_cases hjk : j = k
    · subst hjk
      obtain rfl : g f = f' := by simpa [hf] using hf'
      exact hfile
    · exact h.file k f' (by simpa [hjk] using hf')
  total := by
    have hsum := sum_map_modify DiskFile.freePages hf g
    have hle := Io.freePages_le_of_file hf
    show n = ((io.file.modify j g).map DiskFile.freePages).sum % ulongSize
    rw [htotal (io.freePages - f.freePages) (by omega)]
    unfold Io.freePages at hle ⊢
    congr 1
    omega
  fits := by
    have hsum := sum_map_modify DiskFile.numberOfPages hf g
    have hfits := h.fits
    show ((io.file.modify j g).map DiskFile.numberOfPages).sum < _
    unfold Io.numberOfPages at hfits
    omega
  recovered_file k hk := by
    obtain ⟨f', hf'⟩ := h.recovered_file k hk
    show ∃ f, (io.file.modify j g)[k]? = some f
    rw [List.getElem?_modify, hf']
    exact ⟨_, rfl⟩

/-! ## one page -/

variable {page : DiskPage} {status : DiskPageStatus}

theorem Io.exists_page (h : io.status? j i = some status) :
    ∃ f page, io.file[j]? = some f ∧ f.page[i]? = some page ∧ page.status = status := by
  unfold Io.status? at h
  cases hf : io.file[j]? with
  | none => simp [hf] at h
  | some f =>
    cases hpage : f.page[i]? with
    | none => simp [hf, hpage] at h
    | some page => exact ⟨f, page, rfl, hpage, by simpa [hf, hpage] using h⟩

theorem Io.status?_eq (hf : io.file[j]? = some f) (hpage : f.page[i]? = some page) :
    io.status? j i = some page.status := by
  simp [Io.status?, hf, hpage]

theorem Io.status?_free (hf : io.file[j]? = some f) : io.status? j i = some .free ↔ f.Free i := by
  simp [Io.status?, hf, DiskFile.Free]

theorem DiskFile.freePages_setStatus (hpage : f.page[i]? = some page) (status : DiskPageStatus) :
    (f.setStatus i status).freePages + (if page.status = .free then 1 else 0) =
      f.freePages + (if status = .free then 1 else 0) := by
  have hcount := countP_modify (fun p => decide (p.status = .free)) hpage
    fun p : DiskPage => { p with status }
  simpa [DiskFile.freePages, DiskFile.setStatus] using hcount

theorem DiskFile.freePages_write (f : DiskFile) (i : Nat) (block : DiskBlock) :
    (f.write i block).freePages = f.freePages := by
  cases hpage : f.page[i]? with
  | none =>
    have hle : f.page.length ≤ i := List.getElem?_eq_none_iff.mp hpage
    simp [DiskFile.freePages, DiskFile.write, List.modify_eq_self hle]
  | some page =>
    have hcount := countP_modify (fun p => decide (p.status = .free)) hpage
      fun p : DiskPage => { p with block }
    simpa [DiskFile.freePages, DiskFile.write] using hcount

@[simp] theorem DiskFile.numberOfPages_setStatus (f : DiskFile) (i : Nat)
    (status : DiskPageStatus) : (f.setStatus i status).numberOfPages = f.numberOfPages :=
  List.length_modify _ _ _

@[simp] theorem DiskFile.numberOfPages_write (f : DiskFile) (i : Nat) (block : DiskBlock) :
    (f.write i block).numberOfPages = f.numberOfPages :=
  List.length_modify _ _ _

/-- A page that was not free becomes free. -/
theorem Io.Counts.freePage (h : io.Counts recovered) (hstatus : io.status? j i = some status)
    (hnot : status ≠ .free) : (io.freePage j i).Counts recovered := by
  obtain ⟨f, page, hf, hpage, rfl⟩ := Io.exists_page hstatus
  have hcount := DiskFile.freePages_setStatus hpage .free
  simp only [hnot, if_false, if_true, Nat.add_zero] at hcount
  refine h.modify hf _ (f.numberOfPages_setStatus i .free) ?_ fun rest hrest => ?_
  · show ulongSucc f.numberOfFreePages = ((f.setStatus i .free).freePages + _) % _
    rw [h.file j f hf, ulongSucc_mod, hcount]
    congr 1
    omega
  · show _ = (rest + (f.setStatus i .free).freePages) % _
    rw [h.total, ulongSucc_mod, hcount, hrest]
    congr 1

/-- A page that is not free gets another status than `FREE`. -/
theorem Io.Counts.setStatus (h : io.Counts recovered) (hstatus : io.status? j i = some status)
    (hold : status ≠ .free) {status' : DiskPageStatus} (hnew : status' ≠ .free) :
    (io.modifyFile j (·.setStatus i status')).Counts recovered := by
  obtain ⟨f, page, hf, hpage, rfl⟩ := Io.exists_page hstatus
  have hcount := DiskFile.freePages_setStatus hpage status'
  simp only [hold, hnew, if_false, Nat.add_zero] at hcount
  refine h.modify hf _ (f.numberOfPages_setStatus i status') ?_ fun rest hrest => ?_
  · rw [hcount]
    exact h.file j f hf
  · rw [hcount, ← hrest]
    exact h.total

/-- A free page is taken. -/
theorem Io.Counts.takePage (h : io.Counts recovered) (hf : io.file[io.fileCursor]? = some f)
    (hfree : f.Free f.cursor) (hnot : status ≠ .free) (block : DiskBlock) :
    (io.takePage status block).Counts recovered := by
  obtain ⟨page, hpage, hstatus⟩ := Option.map_eq_some_iff.mp hfree
  have hcount := DiskFile.freePages_setStatus hpage status
  simp only [hstatus, hnot, if_false, if_true, Nat.add_zero] at hcount
  have hwrite := DiskFile.freePages_write (f.setStatus f.cursor status) f.cursor block
  rw [← hwrite] at hcount
  have hpages := (DiskFile.numberOfPages_write (f.setStatus f.cursor status) f.cursor block).trans
    (f.numberOfPages_setStatus f.cursor status)
  unfold DiskFile.freePages at hcount
  unfold DiskFile.numberOfPages at hpages
  refine h.modify hf _ hpages ?_ fun rest hrest => ?_
  · unfold DiskFile.freePages
    rw [h.file _ f hf, DiskFile.freePages, ← hcount, Nat.add_right_comm, ulongPred_mod_succ]
  · rw [h.total, hrest, DiskFile.freePages, ← hcount, ← Nat.add_assoc, ulongPred_mod_succ]
    unfold DiskFile.freePages
    rfl

/-! ## the cursors -/

/-- The cursor of a file does not count. -/
theorem Io.Counts.modifyCursor (h : io.Counts recovered) {g : DiskFile → DiskFile}
    (hpage : ∀ f, (g f).page = f.page)
    (hcounter : ∀ f, (g f).numberOfFreePages = f.numberOfFreePages) :
    (io.modifyFile j g).Counts recovered := by
  cases hf : io.file[j]? with
  | none =>
    have hle : io.file.length ≤ j := List.getElem?_eq_none_iff.mp hf
    have hself : io.modifyFile j g = io := by
      unfold Io.modifyFile
      rw [List.modify_eq_self hle]
    rwa [hself]
  | some f =>
    have hpages : (g f).numberOfPages = f.numberOfPages := by
      simp [DiskFile.numberOfPages, hpage]
    have hfree : (g f).freePages = f.freePages := by simp [DiskFile.freePages, hpage]
    refine h.modify hf g hpages ?_ fun rest hrest => ?_
    · rw [hcounter, hfree]
      exact h.file j f hf
    · rw [hfree, ← hrest]
      exact h.total

theorem Io.CursorsOk.modifyFile (h : io.CursorsOk) {g : DiskFile → DiskFile}
    (hg : ∀ f, f.CursorOk → (g f).CursorOk) : (io.modifyFile j g).CursorsOk where
  file f hf := by
    obtain ⟨k, hk⟩ := List.mem_iff_getElem?.mp hf
    have hk : (io.file.modify j g)[k]? = some f := hk
    rw [List.getElem?_modify] at hk
    obtain ⟨f', hf', rfl⟩ := Option.map_eq_some_iff.mp hk
    have hold := h.file f' (List.mem_of_getElem? hf')
    by_cases hjk : j = k
    · simpa [hjk] using hg f' hold
    · simpa [hjk] using hold
  fileCursor := by
    have hlen : (io.modifyFile j g).numberOfFiles = io.numberOfFiles := List.length_modify _ _ _
    rw [hlen]
    exact h.fileCursor

theorem DiskFile.CursorOk.moveOn (f : DiskFile) : f.moveOn.CursorOk := by
  rcases Nat.eq_zero_or_pos f.numberOfPages with hzero | hpos
  · exact .inr hzero
  · exact .inl (Nat.mod_lt _ hpos)

theorem DiskFile.CursorOk.setStatus (h : f.CursorOk) (i : Nat) (status : DiskPageStatus) :
    (f.setStatus i status).CursorOk := by
  unfold DiskFile.CursorOk
  rw [f.numberOfPages_setStatus]
  exact h

theorem DiskFile.CursorOk.write (h : f.CursorOk) (i : Nat) (block : DiskBlock) :
    (f.write i block).CursorOk := by
  unfold DiskFile.CursorOk
  rw [f.numberOfPages_write]
  exact h

theorem Io.CursorsOk.nextFile (h : io.CursorsOk) : io.nextFile.CursorsOk where
  file := h.file
  fileCursor := by
    rcases Nat.eq_zero_or_pos io.numberOfFiles with hzero | hpos
    · exact .inr hzero
    · exact .inl (Nat.mod_lt _ hpos)

/-! ## the operations -/

/-- The counters and the cursors. -/
structure Io.Sound (recovered : Option Nat) (io : Io) : Prop where
  counts : io.Counts recovered
  cursors : io.CursorsOk

/-- The cursors are set to a page. -/
theorem Io.Sound.atPage (h : io.Sound recovered) (hf : io.file[j]? = some f) (hfree : f.Free i) :
    (io.atPage j i).Sound recovered ∧
      (io.atPage j i).file[(io.atPage j i).fileCursor]? = some (f.atCursor i) := by
  have hcounts : (io.modifyFile j (·.atCursor i)).Counts recovered :=
    h.counts.modifyCursor (fun _ => rfl) fun _ => rfl
  have hfile : (io.file.modify j (·.atCursor i))[j]? = some (f.atCursor i) := by
    simp [hf]
  refine ⟨⟨⟨hcounts.file, hcounts.total, hcounts.fits, hcounts.recovered_file⟩, ?_, .inl ?_⟩, hfile⟩
  · intro f' hf'
    obtain ⟨k, hk⟩ := List.mem_iff_getElem?.mp hf'
    by_cases hjk : j = k
    · subst hjk
      obtain rfl : f.atCursor i = f' := Option.some.inj (hfile.symm.trans hk)
      exact .inl hfree.lt
    · have hk : (io.file.modify j (·.atCursor i))[k]? = some f' := hk
      rw [List.getElem?_modify] at hk
      exact h.cursors.file f' (List.mem_of_getElem? (by simpa [hjk] using hk))
  · have hlt : j < io.file.length := (List.getElem?_eq_some_iff.mp hf).1
    show j < (io.file.modify j _).length
    rwa [List.length_modify]

theorem Io.Sound.freePage (h : io.Sound recovered) (hstatus : io.status? j i = some status)
    (hnot : status ≠ .free) : (io.freePage j i).Sound recovered where
  counts := h.counts.freePage hstatus hnot
  cursors :=
    have hcursors := h.cursors.modifyFile (j := j) (g := fun f =>
      { f.setStatus i .free with numberOfFreePages := ulongSucc f.numberOfFreePages })
      fun _ hf => hf.setStatus i .free
    ⟨hcursors.file, hcursors.fileCursor⟩

theorem Io.Sound.setStatus (h : io.Sound recovered) (hstatus : io.status? j i = some status)
    (hold : status ≠ .free) {status' : DiskPageStatus} (hnew : status' ≠ .free) :
    (io.modifyFile j (·.setStatus i status')).Sound recovered where
  counts := h.counts.setStatus hstatus hold hnew
  cursors := h.cursors.modifyFile fun _ hf => hf.setStatus i status'

theorem Io.Sound.takePage (h : io.Sound recovered) (hf : io.file[io.fileCursor]? = some f)
    (hfree : f.Free f.cursor) (hnot : status ≠ .free) (block : DiskBlock) :
    (io.takePage status block).Sound recovered where
  counts := h.counts.takePage hf hfree hnot block
  cursors :=
    have hcursors := h.cursors.modifyFile (j := io.fileCursor) (g := fun f =>
      { (f.setStatus f.cursor status).write f.cursor block with
        numberOfFreePages := ulongPred f.numberOfFreePages })
      fun f hf => (hf.setStatus f.cursor status).write f.cursor block
    ⟨hcursors.file, hcursors.fileCursor⟩

theorem Io.Sound.moveOn (h : io.Sound recovered) : io.moveOn.Sound recovered where
  counts :=
    have hcounts : (io.modifyFile io.fileCursor DiskFile.moveOn).Counts recovered :=
      h.counts.modifyCursor (fun _ => rfl) fun _ => rfl
    ⟨hcounts.file, hcounts.total, hcounts.fits, hcounts.recovered_file⟩
  cursors := (h.cursors.modifyFile fun f _ => DiskFile.CursorOk.moveOn f).nextFile

/-- The three outcomes of `io_write_page`. -/
theorem ioWritePage_cases (h : io.CursorsOk) :
    (io.numberOfFreeDiskPages = 0 ∧ ioWritePage io = .error .diskFull) ∨
    (io.numberOfFreeDiskPages ≠ 0 ∧ ∃ j f i, io.file[j]? = some f ∧ 1 < f.numberOfFreePages ∧
      f.FirstFree i ∧ ioWritePage io =
        .ok (makeDiskPageNumber j i, ((io.atPage j i).takePage .allocated .page).moveOn)) ∨
    (io.numberOfFreeDiskPages ≠ 0 ∧ ioWritePage io = .error .assertion ∧
      ∀ f ∈ io.file, 1 < f.numberOfFreePages → ∀ i, ¬ f.Free i) := by
  unfold ioWritePage
  by_cases hfull : io.numberOfFreeDiskPages = 0
  · exact .inl ⟨hfull, if_pos hfull⟩
  · rw [if_neg hfull]
    rcases findDiskPage_round (fun f => decide (f.numberOfFreePages > 1)) h with
      ⟨j, f, i, hf, husable, hfirst, hfind⟩ | ⟨hfind, hnone⟩
    · refine .inr (.inl ⟨hfull, j, f, i, hf, of_decide_eq_true husable, hfirst, ?_⟩)
      have hcurrent : (io.atPage j i).current = (j, i) := by
        simp [Io.current, Io.atPage, Io.modifyFile, hf, DiskFile.atCursor]
      rw [hfind]
      simp only [hcurrent]
    · refine .inr (.inr ⟨hfull, by rw [hfind], fun f hf hcounter => hnone f hf ?_⟩)
      exact decide_eq_true hcounter

/-- The outcomes of `io_write_root` that are no failures. -/
theorem ioWriteRoot_ok (h : io.CursorsOk) (hrun : ioWriteRoot true io = .ok io') :
    ∃ j f i io₁, io.file[j]? = some f ∧ f.FirstFree i ∧
      ((io.atPage j i).takePage .root (.root io.timeStamp)).freePrevRoot = .ok io₁ ∧
      io' = { io₁.moveOn with
        prevRoot := some (j, i)
        timeStamp := incrementRootTimeStamp io.timeStamp } := by
  unfold ioWriteRoot at hrun
  rw [if_pos rfl] at hrun
  by_cases hfull : io.numberOfFreeDiskPages = 0
  · rw [if_pos hfull] at hrun
    cases hrun
  · rw [if_neg hfull] at hrun
    rcases findDiskPage_round (fun _ => true) h with ⟨j, f, i, hf, -, hfirst, hfind⟩ |
      ⟨hfind, -⟩
    · have hcurrent : (io.atPage j i).current = (j, i) := by
        simp [Io.current, Io.atPage, Io.modifyFile, hf, DiskFile.atCursor]
      have htime : (io.atPage j i).timeStamp = io.timeStamp := rfl
      rw [hfind] at hrun
      simp only [hcurrent, htime] at hrun
      cases hprev : ((io.atPage j i).takePage .root (.root io.timeStamp)).freePrevRoot with
      | error e => simp [hprev, bind, Except.bind] at hrun
      | ok io₁ =>
        simp only [hprev, bind, Except.bind, pure, Except.pure, Except.ok.injEq] at hrun
        exact ⟨j, f, i, io₁, hf, hfirst, hprev, hrun.symm⟩
    · rw [hfind] at hrun
      cases hrun

theorem Io.Sound.freePrevRoot (h : io.Sound recovered) (hrun : io.freePrevRoot = .ok io') :
    io'.Sound recovered := by
  unfold Io.freePrevRoot at hrun
  split at hrun
  · exact Except.ok.inj hrun ▸ h
  · split at hrun
    · next hstatus => exact Except.ok.inj hrun ▸ h.freePage hstatus (by decide)
    · cases hrun

theorem Io.Sound.writePage (h : io.Sound recovered) {n : Nat}
    (hrun : ioWritePage io = .ok (n, io')) : io'.Sound recovered := by
  rcases ioWritePage_cases h.cursors with ⟨-, hwrite⟩ | ⟨-, j, f, i, hf, -, hfirst, hwrite⟩ |
    ⟨-, hwrite, -⟩
  · cases hwrite.symm.trans hrun
  · obtain ⟨-, -, -, hfree, -⟩ := hfirst
    obtain ⟨hat, hfile⟩ := h.atPage hf hfree
    obtain ⟨-, rfl⟩ := Prod.mk.inj (Except.ok.inj (hwrite.symm.trans hrun))
    exact (hat.takePage hfile hfree (by decide) .page).moveOn
  · cases hwrite.symm.trans hrun

theorem Io.Sound.writeRoot (h : io.Sound recovered) {optimized : Bool}
    (hrun : ioWriteRoot optimized io = .ok io') : io'.Sound recovered := by
  cases optimized with
  | false =>
    obtain rfl := Except.ok.inj hrun
    exact ⟨⟨h.counts.file, h.counts.total, h.counts.fits, h.counts.recovered_file⟩,
      ⟨h.cursors.file, h.cursors.fileCursor⟩⟩
  | true =>
    obtain ⟨j, f, i, io₁, hf, ⟨-, -, -, hfree, -⟩, hprev, rfl⟩ := ioWriteRoot_ok h.cursors hrun
    obtain ⟨hat, hfile⟩ := h.atPage hf hfree
    have hsound := ((hat.takePage hfile hfree (by decide) _).freePrevRoot hprev).moveOn
    exact ⟨⟨hsound.counts.file, hsound.counts.total, hsound.counts.fits,
      hsound.counts.recovered_file⟩, ⟨hsound.cursors.file, hsound.cursors.fileCursor⟩⟩

theorem Io.Sound.declareDiskPageAllocated (h : io.Sound recovered) {n : Nat}
    (hpage : io.status? (getFileNumber n) (getPageNumber n) ≠ none)
    (hrun : ioDeclareDiskPageAllocated io n = .ok io') : io'.Sound recovered := by
  obtain ⟨status, hstatus⟩ := Option.ne_none_iff_exists'.mp hpage
  unfold ioDeclareDiskPageAllocated at hrun
  simp only [hstatus, Option.some.injEq] at hrun
  split at hrun
  · cases hrun
  · next hnot => exact Except.ok.inj hrun ▸ h.setStatus hstatus hnot (by decide)

theorem Io.Sound.freeDiskPage (h : io.Sound recovered) {n : Nat}
    (hpage : io.status? (getFileNumber n) (getPageNumber n) ≠ none) :
    (ioFreeDiskPage io n).Sound recovered := by
  obtain ⟨status, hstatus⟩ := Option.ne_none_iff_exists'.mp hpage
  unfold ioFreeDiskPage
  simp only [hstatus, ne_eq, Option.some.injEq]
  split
  · next hnot => exact h.freePage hstatus hnot
  · exact h

theorem Io.Sound.freeUnknownPages {k : Nat} (h : io.Sound recovered) (j i : Nat) :
    (freeUnknownPages k io j i).Sound recovered := by
  induction k generalizing io i with
  | zero => exact h
  | succ k ih =>
    unfold Shades.freeUnknownPages
    split
    · next hstatus => exact ih (h.freePage hstatus (by decide)) (i + 1)
    · exact ih h (i + 1)

theorem Io.Sound.declareUnallocatedPagesFree (h : io.Sound recovered) :
    (ioDeclareUnallocatedPagesFree io).Sound recovered := by
  unfold ioDeclareUnallocatedPagesFree
  have hfold : ∀ (js : List Nat) (io₁ : Io), io₁.Sound recovered →
      (js.foldl (fun io' j =>
        Shades.freeUnknownPages ((io.file[j]?.map DiskFile.numberOfPages).getD 0) io' j 0)
        io₁).Sound recovered := by
    intro js
    induction js with
    | nil => exact fun io₁ h₁ => h₁
    | cons j js ih => exact fun io₁ h₁ => ih _ (h₁.freeUnknownPages j 0)
  exact hfold _ io h

end Shades
