import Shades.Io.Newest

/-!
# Shades.Io.History

The histories of a database with `OPTIMIZED_ROOT_LOCATION`: files are created,
pages and roots are written and freed, and the process may end at any time; then
the files are opened again, the newest root is searched, and the pages that it
uses are declared allocated before the others become free.

In each file the roots form a rotated increasing sequence, since a new page is
the first free one from the cursor on and only the newest root is not free.
-/

namespace Shades

open Rotated

/-! ## histories -/

/-- The block on disk of a page, if there is such a page. -/
def Io.block? (io : Io) (j i : Nat) : Option DiskBlock :=
  (io.file[j]?.bind (·.page[i]?)).map DiskPage.block

/-- The variables of a new process: no page was counted, and the time stamp is
that of `root-def.h`. -/
def Io.newProcess (io : Io) : Io := { io with numberOfFreeDiskPages := 0, timeStamp := ⟨0, 1⟩ }

/-- Where a history is: the files were opened, the root was read, or pages can
be written. -/
inductive DiskPhase
  | opened
  | recovering
  | running
deriving DecidableEq, Repr

/-- The histories, with the time stamps of all roots that were written, the last
one first.  A crash leaves the blocks on disk.  The recovery reads the pages
that it declares allocated, and it ends the process if one of them is no data
page.  The pages of roots are not freed by `io_free_disk_page`. -/
inductive DiskHistory : DiskPhase → Io → List TimeStamp → Prop
  | create (io : Io) : DiskHistory .running (ioCreateFile true io.newProcess) []
  | crash {phase : DiskPhase} {io : Io} {written : List TimeStamp}
      (h : DiskHistory phase io written) : DiskHistory .opened (ioOpenFile io.newProcess) written
  | readRoot {io io' : Io} {written : List TimeStamp} (h : DiskHistory .opened io written)
      (hrun : ioReadRoot true io = .ok io') : DiskHistory .recovering io' written
  | declareAllocated {io io' : Io} {written : List TimeStamp} {n : Nat}
      (h : DiskHistory .recovering io written)
      (hpage : io.block? (getFileNumber n) (getPageNumber n) = some .page)
      (hrun : ioDeclareDiskPageAllocated io n = .ok io') : DiskHistory .recovering io' written
  | declareFree {io : Io} {written : List TimeStamp} (h : DiskHistory .recovering io written) :
      DiskHistory .running (ioDeclareUnallocatedPagesFree io) written
  | freeDiskPage {phase : DiskPhase} {io : Io} {written : List TimeStamp} {n : Nat}
      (h : DiskHistory phase io written) (hphase : phase ≠ .opened) (hpage : io.HasPage n)
      (hroot : io.status? (getFileNumber n) (getPageNumber n) ≠ some .root) :
      DiskHistory phase (ioFreeDiskPage io n) written
  | writePage {io io' : Io} {written : List TimeStamp} {n : Nat}
      (h : DiskHistory .running io written) (hrun : ioWritePage io = .ok (n, io')) :
      DiskHistory .running io' written
  | writeRoot {io io' : Io} {written : List TimeStamp} (h : DiskHistory .running io written)
      (hrun : ioWriteRoot true io = .ok io') :
      DiskHistory .running io' (io.timeStamp :: written)

variable {phase : DiskPhase} {io io' : Io} {written rest : List TimeStamp} {f f' : DiskFile}
variable {i j k x : Nat} {ts : TimeStamp} {status : DiskPageStatus} {block : DiskBlock}

/-! ## time stamps -/

theorem incrementRootTimeStamp_valid (h : ts.Valid) : (incrementRootTimeStamp ts).Valid := by
  unfold incrementRootTimeStamp
  unfold TimeStamp.Valid at h ⊢
  split <;> (dsimp only; omega)

theorem incrementRootTimeStamp_value (h : ts.Valid) :
    (incrementRootTimeStamp ts).value = (ts.value + 1) % 2 ^ 64 := by
  unfold incrementRootTimeStamp TimeStamp.value
  unfold TimeStamp.Valid at h
  split <;> (dsimp only; omega)

theorem timeStamp_zero : (⟨0, 0⟩ : TimeStamp).Valid := ⟨by decide, by decide⟩

theorem timeStamp_first : (⟨0, 1⟩ : TimeStamp).Valid ∧
    (⟨0, 1⟩ : TimeStamp).value = (0 + 1) % 2 ^ 64 := by
  norm_num [TimeStamp.Valid, TimeStamp.value]

/-- The time stamps count the roots. -/
def Stamps (written : List TimeStamp) : Prop :=
  ∀ ts rest, ts :: rest <:+ written → ts.Valid ∧ ts.value = rest.length + 1

theorem Stamps.cons (h : Stamps written) (hvalid : ts.Valid)
    (hvalue : ts.value = written.length + 1) : Stamps (ts :: written) := by
  intro ts' rest hsuffix
  rcases List.suffix_cons_iff.mp hsuffix with heq | hsuffix
  · obtain ⟨rfl, rfl⟩ := List.cons.inj heq
    exact ⟨hvalid, hvalue⟩
  · exact h ts' rest hsuffix

theorem Stamps.le (h : Stamps written) (hts : ts ∈ written) :
    ts.Valid ∧ ts.value ≤ written.length := by
  obtain ⟨before, rest, rfl⟩ := List.append_of_mem hts
  obtain ⟨hvalid, hvalue⟩ := h ts rest (List.suffix_append before (ts :: rest))
  refine ⟨hvalid, ?_⟩
  rw [List.length_append, List.length_cons]
  omega

/-! ## what is on disk -/

theorem Io.block?_eq (hf : io.file[j]? = some f) (i : Nat) : io.block? j i = blockAt f.page i := by
  simp [Io.block?, blockAt, hf]

theorem Io.exists_block (h : io.block? j i = some block) :
    ∃ f, io.file[j]? = some f ∧ blockAt f.page i = some block := by
  cases hf : io.file[j]? with
  | none => simp [Io.block?, hf] at h
  | some f => exact ⟨f, rfl, (Io.block?_eq hf i).symm.trans h⟩

/-- The disk holds the newest root, and no root that is newer. -/
structure Io.Content (io : Io) (written : List TimeStamp) : Prop where
  searchable : ∀ f ∈ io.file, f.Searchable
  stamps : Stamps written
  root_le : ∀ j i ts, io.block? j i = some (.root ts) → ts.value ≤ written.length
  newest : ∀ ts rest, written = ts :: rest → ∃ j i, io.block? j i = some (.root ts)

/-- The same blocks are on disk. -/
def Io.SameDisk (io io' : Io) : Prop :=
  List.Forall₂ (fun f f' : DiskFile => SameBlocks f.page f'.page) io.file io'.file

theorem forall₂_get {α : Type} {r : α → α → Prop} {l l' : List α} (h : List.Forall₂ r l l')
    {b : α} (hb : l'[i]? = some b) : ∃ a, l[i]? = some a ∧ r a b := by
  obtain ⟨hlt, rfl⟩ := List.getElem?_eq_some_iff.mp hb
  exact ⟨_, List.getElem?_eq_getElem (h.length_eq ▸ hlt), h.get _ _⟩

theorem Io.SameDisk.block? (h : io.SameDisk io') : io'.block? = io.block? := by
  funext j i
  cases hf : io'.file[j]? with
  | none =>
    have hlen := h.length_eq
    have hnone : io.file[j]? = none := by
      rw [List.getElem?_eq_none_iff] at hf ⊢
      omega
    simp [Io.block?, hf, hnone]
  | some f' =>
    obtain ⟨f, hf₁, hsame⟩ := forall₂_get h hf
    rw [Io.block?_eq hf, Io.block?_eq hf₁, hsame.blockAt]

theorem Io.Content.same (h : io.Content written) (hsame : io.SameDisk io') :
    io'.Content written where
  searchable f' hf' := by
    obtain ⟨j, hj⟩ := List.mem_iff_getElem?.mp hf'
    obtain ⟨f, hf, hblocks⟩ := forall₂_get hsame hj
    exact (h.searchable f (List.mem_of_getElem? hf)).same hblocks
  stamps := h.stamps
  root_le j i ts hroot := h.root_le j i ts (hsame.block? ▸ hroot)
  newest ts rest heq := by
    rw [hsame.block?]
    exact h.newest ts rest heq

/-! ## what is in memory -/

/-- The page of the root that was written or read last. -/
def Io.AtRoot (io : Io) (written : List TimeStamp) : Prop :=
  (io.prevRoot = none ∧ written = []) ∨
  ∃ j i ts rest, io.prevRoot = some (j, i) ∧ written = ts :: rest ∧ io.block? j i = some (.root ts)

/-- After the root was read. -/
structure Io.Live (io : Io) (written : List TimeStamp) : Prop where
  rolls : ∀ f ∈ io.file, f.Rolls
  fileCursor : io.fileCursor < io.numberOfFiles ∨ io.numberOfFiles = 0
  allocated : ∀ j i, io.status? j i = some .allocated → io.block? j i = some .page
  root : ∀ j i, io.status? j i = some .root ↔ io.prevRoot = some (j, i)
  atRoot : io.AtRoot written
  timeStamp : io.timeStamp.Valid ∧ io.timeStamp.value = (written.length + 1) % 2 ^ 64

theorem Io.AtRoot.newest (h : io.AtRoot written) (ts : TimeStamp) (rest : List TimeStamp)
    (heq : written = ts :: rest) : ∃ j i, io.block? j i = some (.root ts) := by
  rcases h with ⟨-, rfl⟩ | ⟨j, i, ts', rest', -, rfl, hblock⟩
  · cases heq
  · obtain ⟨rfl, rfl⟩ := List.cons.inj heq
    exact ⟨j, i, hblock⟩

theorem Io.Live.cursorsOk (h : io.Live written) : io.CursorsOk :=
  ⟨fun f hf => (h.rolls f hf).cursorOk, h.fileCursor⟩

/-- A page with the status of a root holds the newest root. -/
theorem Io.Live.root_block (h : io.Live written) (hstatus : io.status? j i = some .root) :
    ∃ ts rest, written = ts :: rest ∧ io.block? j i = some (.root ts) := by
  have hprev := (h.root j i).mp hstatus
  rcases h.atRoot with ⟨hnone, -⟩ | ⟨j', i', ts, rest, hsome, hwritten, hblock⟩
  · cases hnone.symm.trans hprev
  · obtain ⟨rfl, rfl⟩ := Prod.mk.inj (Option.some.inj (hsome.symm.trans hprev))
    exact ⟨ts, rest, hwritten, hblock⟩

/-! ## changes of the status -/

/-- The page status differs. -/
structure Io.Restatus (io io' : Io) : Prop where
  file : List.Forall₂ (fun f f' : DiskFile => SameBlocks f.page f'.page ∧ f'.cursor = f.cursor)
    io.file io'.file
  fileCursor : io'.fileCursor = io.fileCursor
  prevRoot : io'.prevRoot = io.prevRoot
  timeStamp : io'.timeStamp = io.timeStamp

theorem Io.Restatus.refl (io : Io) : io.Restatus io where
  file := List.forall₂_same.mpr fun _ _ => ⟨rfl, rfl⟩
  fileCursor := rfl
  prevRoot := rfl
  timeStamp := rfl

theorem Io.Restatus.sameDisk (h : io.Restatus io') : io.SameDisk io' :=
  h.file.imp fun _ _ hf => hf.1

theorem Io.Restatus.numberOfFiles (h : io.Restatus io') : io'.numberOfFiles = io.numberOfFiles :=
  h.file.length_eq.symm

theorem Io.Restatus.trans {io'' : Io} (h : io.Restatus io') (h' : io'.Restatus io'') :
    io.Restatus io'' where
  file := by
    refine List.forall₂_iff_get.mpr ⟨h.file.length_eq.trans h'.file.length_eq, fun i hi hi'' => ?_⟩
    have hi' : i < io'.file.length := h.file.length_eq ▸ hi
    obtain ⟨hblocks, hcursor⟩ := h.file.get hi hi'
    obtain ⟨hblocks', hcursor'⟩ := h'.file.get hi' hi''
    exact ⟨hblocks'.trans hblocks, hcursor'.trans hcursor⟩
  fileCursor := h'.fileCursor.trans h.fileCursor
  prevRoot := h'.prevRoot.trans h.prevRoot
  timeStamp := h'.timeStamp.trans h.timeStamp

theorem DiskFile.Rolls.same (h : f.Rolls) (hsame : SameBlocks f.page f'.page)
    (hcursor : f'.cursor = f.cursor) : f'.Rolls where
  cursorOk := by
    have hold := h.cursorOk
    unfold DiskFile.CursorOk DiskFile.numberOfPages at hold ⊢
    rwa [hcursor, hsame.length]
  written := by
    rw [hcursor]
    exact h.written.imp fun _ hk => ⟨hk.1, hsame.written hk.2⟩
  rotated := by
    rw [hcursor, hsame.rootValue]
    exact h.rotated

theorem Io.Live.restatus (h : io.Live written) (hre : io.Restatus io')
    (hallocated : ∀ j i, io'.status? j i = some .allocated → io.block? j i = some .page)
    (hroot : ∀ j i, io'.status? j i = some .root ↔ io.status? j i = some .root) :
    io'.Live written where
  rolls f' hf' := by
    obtain ⟨j, hj⟩ := List.mem_iff_getElem?.mp hf'
    obtain ⟨f, hf, hblocks, hcursor⟩ := forall₂_get hre.file hj
    exact (h.rolls f (List.mem_of_getElem? hf)).same hblocks hcursor
  fileCursor := by
    rw [hre.numberOfFiles, hre.fileCursor]
    exact h.fileCursor
  allocated j i hstatus := by
    rw [hre.sameDisk.block?]
    exact hallocated j i hstatus
  root j i := by
    rw [hre.prevRoot, hroot]
    exact h.root j i
  atRoot := by
    have hold := h.atRoot
    unfold Io.AtRoot at hold ⊢
    rwa [hre.prevRoot, hre.sameDisk.block?]
  timeStamp := by
    rw [hre.timeStamp]
    exact h.timeStamp

/-- One page gets another status. -/
structure Io.SetsStatus (io io' : Io) (j i : Nat) (status : DiskPageStatus) : Prop where
  restatus : io.Restatus io'
  self : io'.status? j i = (io.status? j i).map fun _ => status
  other : ∀ k x, (k, x) ≠ (j, i) → io'.status? k x = io.status? k x

theorem forall₂_modify {α : Type} {r : α → α → Prop} (hrefl : ∀ a, r a a) {g : α → α}
    (hg : ∀ a, r a (g a)) (l : List α) (j : Nat) : List.Forall₂ r l (l.modify j g) := by
  refine List.forall₂_iff_get.mpr ⟨(List.length_modify _ _ _).symm, fun i hi hi' => ?_⟩
  simp only [List.get_eq_getElem, List.getElem_modify]
  split
  · exact hg _
  · exact hrefl _

/-- The status of a page and the counters of free pages change. -/
theorem setsStatus_modifyFile (io : Io) (j i : Nat) (status : DiskPageStatus)
    (c : DiskFile → Nat) (n : Nat) :
    io.SetsStatus { io.modifyFile j fun f =>
      { f.setStatus i status with numberOfFreePages := c f } with
      numberOfFreeDiskPages := n } j i status where
  restatus :=
    ⟨forall₂_modify (fun _ => ⟨rfl, rfl⟩) (fun f => ⟨sameBlocks_modify f.page i status, rfl⟩) _ _,
      rfl, rfl, rfl⟩
  self := by
    cases hf : io.file[j]? with
    | none => simp [Io.status?, Io.modifyFile, hf]
    | some f => cases hpage : f.page[i]? <;>
      simp [Io.status?, Io.modifyFile, hf, hpage, DiskFile.setStatus]
  other k x hne := by
    by_cases hjk : j = k
    · subst hjk
      have hix : i ≠ x := fun heq => hne (by rw [heq])
      cases hf : io.file[j]? <;>
        simp [Io.status?, Io.modifyFile, hf, DiskFile.setStatus, hix]
    · simp [Io.status?, Io.modifyFile, hjk]

theorem setsStatus_freePage (io : Io) (j i : Nat) : io.SetsStatus (io.freePage j i) j i .free :=
  setsStatus_modifyFile io j i .free (fun f => ulongSucc f.numberOfFreePages) _

theorem setsStatus_setStatus (io : Io) (j i : Nat) (status : DiskPageStatus) :
    io.SetsStatus (io.modifyFile j (·.setStatus i status)) j i status :=
  setsStatus_modifyFile io j i status (fun f => f.numberOfFreePages) io.numberOfFreeDiskPages

/-- The page gets the status, or it had this status. -/
theorem Io.SetsStatus.cases (h : io.SetsStatus io' j i status) {k x : Nat} {s : DiskPageStatus}
    (hs : io'.status? k x = some s) :
    (k = j ∧ x = i ∧ s = status) ∨ ((k, x) ≠ (j, i) ∧ io.status? k x = some s) := by
  by_cases hne : (k, x) = (j, i)
  · obtain ⟨rfl, rfl⟩ := Prod.mk.inj hne
    rw [h.self] at hs
    obtain ⟨-, -, rfl⟩ := Option.map_eq_some_iff.mp hs
    exact .inl ⟨rfl, rfl, rfl⟩
  · exact .inr ⟨hne, (h.other k x hne) ▸ hs⟩

/-- A page that is no root gets a status that is not the one of a root. -/
theorem Io.Live.setsStatus (h : io.Live written) (hset : io.SetsStatus io' j i status)
    (hold : io.status? j i ≠ some .root) (hnew : status ≠ .root)
    (hpage : status = .allocated → io.block? j i = some .page) : io'.Live written := by
  refine h.restatus hset.restatus (fun k x hstatus => ?_) fun k x => ⟨fun hstatus => ?_,
    fun hstatus => ?_⟩
  · rcases hset.cases hstatus with ⟨rfl, rfl, heq⟩ | ⟨-, hk⟩
    · exact hpage heq.symm
    · exact h.allocated k x hk
  · rcases hset.cases hstatus with ⟨-, -, heq⟩ | ⟨-, hk⟩
    · exact absurd heq.symm hnew
    · exact hk
  · have hne : (k, x) ≠ (j, i) := by
      rintro heq
      obtain ⟨rfl, rfl⟩ := Prod.mk.inj heq
      exact hold hstatus
    rwa [hset.other k x hne]

/-! ## the unknown pages become free -/

/-- Some unknown pages become free. -/
structure Io.Frees (io io' : Io) : Prop where
  restatus : io.Restatus io'
  status : ∀ j i, io'.status? j i = io.status? j i ∨
    (io.status? j i = some .unknown ∧ io'.status? j i = some .free)

theorem Io.Frees.refl (io : Io) : io.Frees io := ⟨.refl io, fun _ _ => .inl rfl⟩

theorem Io.Frees.trans {io'' : Io} (h : io.Frees io') (h' : io'.Frees io'') : io.Frees io'' where
  restatus := h.restatus.trans h'.restatus
  status j i := by
    rcases h.status j i with hs | ⟨hs, hs'⟩ <;> rcases h'.status j i with ht | ⟨ht, ht'⟩
    · exact .inl (ht.trans hs)
    · exact .inr ⟨hs ▸ ht, ht'⟩
    · exact .inr ⟨hs, ht.trans hs'⟩
    · cases hs'.symm.trans ht

/-- An unknown page was unknown before. -/
theorem Io.Frees.unknown (h : io.Frees io') (hs : io'.status? j i = some .unknown) :
    io.status? j i = some .unknown := by
  rcases h.status j i with heq | ⟨hs', -⟩
  · rwa [← heq]
  · exact hs'

theorem frees_freePage (hs : io.status? j i = some .unknown) :
    io.Frees (io.freePage j i) where
  restatus := (setsStatus_freePage io j i).restatus
  status k x := by
    by_cases hne : (k, x) = (j, i)
    · obtain ⟨rfl, rfl⟩ := Prod.mk.inj hne
      rw [(setsStatus_freePage io k x).self, hs]
      exact .inr ⟨rfl, rfl⟩
    · exact .inl ((setsStatus_freePage io j i).other k x hne)

theorem freeUnknownPages_frees (n : Nat) (io : Io) (j i : Nat) :
    io.Frees (freeUnknownPages n io j i) ∧
      ∀ x, i ≤ x → x < i + n → (freeUnknownPages n io j i).status? j x ≠ some .unknown := by
  induction n generalizing io i with
  | zero => exact ⟨.refl io, fun x hx hx' => by omega⟩
  | succ n ih =>
    unfold freeUnknownPages
    by_cases hs : io.status? j i = some .unknown
    · rw [if_pos hs]
      obtain ⟨hfrees, hnone⟩ := ih (io.freePage j i) (i + 1)
      refine ⟨(frees_freePage hs).trans hfrees, fun x hx hx' hunknown => ?_⟩
      by_cases hxi : x = i
      · subst hxi
        have hself := hfrees.unknown hunknown
        rw [(setsStatus_freePage io j x).self, hs] at hself
        cases hself
      · exact hnone x (by omega) (by omega) hunknown
    · rw [if_neg hs]
      obtain ⟨hfrees, hnone⟩ := ih io (i + 1)
      refine ⟨hfrees, fun x hx hx' hunknown => ?_⟩
      by_cases hxi : x = i
      · exact hs (hxi ▸ hfrees.unknown hunknown)
      · exact hnone x (by omega) (by omega) hunknown

/-- No page has an unknown status. -/
def Io.Known (io : Io) : Prop := ∀ j i, io.status? j i ≠ some .unknown

theorem ioDeclareUnallocatedPagesFree_frees (io : Io) :
    io.Frees (ioDeclareUnallocatedPagesFree io) ∧ (ioDeclareUnallocatedPagesFree io).Known := by
  -- after the files `js` their pages are known
  have hfold : ∀ (js : List Nat) (io₁ : Io), io.Frees io₁ →
      let io₂ := js.foldl (fun io' j => freeUnknownPages
        ((io.file[j]?.map DiskFile.numberOfPages).getD 0) io' j 0) io₁
      io₁.Frees io₂ ∧ ∀ j ∈ js, ∀ i, io₂.status? j i ≠ some .unknown := by
    intro js
    induction js with
    | nil => exact fun io₁ _ => ⟨.refl io₁, fun j hj => by cases hj⟩
    | cons j js ih =>
      intro io₁ h₁
      obtain ⟨hfrees, hnone⟩ := freeUnknownPages_frees
        ((io.file[j]?.map DiskFile.numberOfPages).getD 0) io₁ j 0
      obtain ⟨hrest, hknown⟩ := ih _ (h₁.trans hfrees)
      refine ⟨hfrees.trans hrest, fun k hk i hunknown => ?_⟩
      rcases List.mem_cons.mp hk with rfl | hk
      · have hbefore := hrest.unknown hunknown
        obtain ⟨f, page, hf, hpage, -⟩ := Io.exists_page ((h₁.trans hfrees).unknown hbefore)
        refine hnone i (Nat.zero_le i) ?_ hbefore
        rw [hf]
        have hlt := (List.getElem?_eq_some_iff.mp hpage).1
        simpa [DiskFile.numberOfPages] using hlt
      · exact hknown k hk i hunknown
  obtain ⟨hfrees, hknown⟩ := hfold (List.range io.numberOfFiles) io (.refl io)
  refine ⟨hfrees, fun j i hunknown => hknown j ?_ i hunknown⟩
  obtain ⟨f, page, hf, -⟩ := Io.exists_page (hfrees.unknown hunknown)
  exact List.mem_range.mpr (List.getElem?_eq_some_iff.mp hf).1

theorem Io.Live.frees (h : io.Live written) (hfrees : io.Frees io') : io'.Live written := by
  refine h.restatus hfrees.restatus (fun j i hstatus => ?_) fun j i => ?_
  · rcases hfrees.status j i with heq | ⟨-, hfree⟩
    · exact h.allocated j i (heq ▸ hstatus)
    · cases hfree.symm.trans hstatus
  · rcases hfrees.status j i with heq | ⟨hunknown, hfree⟩
    · rw [heq]
    · simp [hunknown, hfree]

/-! ## a page is written -/

/-- The first free page `i` of the file `j` is written. -/
structure Io.Wrote (io io' : Io) (j i : Nat) (block : DiskBlock) : Prop where
  file : ∀ k f', io'.file[k]? = some f' → ∃ f, io.file[k]? = some f ∧
    (k ≠ j → SameBlocks f.page f'.page ∧ f'.cursor = f.cursor) ∧
    (k = j → f.FirstFree i ∧ WritesBlock f.page f'.page i block ∧
      f'.cursor = (i + 1) % f.numberOfPages)
  self : io'.block? j i = some block
  other : ∀ k x, (k, x) ≠ (j, i) → io'.block? k x = io.block? k x
  fileCursor : io'.fileCursor < io'.numberOfFiles ∨ io'.numberOfFiles = 0

/-- Only newer roots are written. -/
def Io.Newer (io : Io) (block : DiskBlock) : Prop :=
  block = .page ∨ ∃ ts, ts.Valid ∧ block = .root ts ∧
    ∀ j i ts', io.block? j i = some (.root ts') → ts'.value < ts.value

/-- Only the newest root is not free among the roots, and unused pages are
free, so the round robin goes on. -/
theorem Io.Wrote.rolls (hw : io.Wrote io' j i block) (h : io.Live written)
    (hcontent : io.Content written) (hknown : io.Known) (hnewer : io.Newer block) :
    ∀ f' ∈ io'.file, f'.Rolls := by
  intro f' hf'
  obtain ⟨k, hk⟩ := List.mem_iff_getElem?.mp hf'
  obtain ⟨f, hf, hother, hself⟩ := hw.file k f' hk
  have hrolls := h.rolls f (List.mem_of_getElem? hf)
  by_cases hkj : k = j
  · subst hkj
    obtain ⟨hfirst, hblock, hcursor⟩ := hself rfl
    have hfree : ∀ x s, io.status? k x = some s → s = .free → f.Free x := by
      rintro x s hs rfl
      exact (Io.status?_free hf).mp hs
    have hroll : DiskFile.Rolls ⟨f'.page, f'.numberOfFreePages, (i + 1) % f.numberOfPages⟩ := by
      refine hrolls.write hfirst (fun x hunused => ?_) (fun x ts hroot hnot => ?_) hblock ?_ _
      · obtain ⟨page, hpage, hpage'⟩ := Option.map_eq_some_iff.mp hunused
        have hs := Io.status?_eq hf hpage
        have hunused' := (Io.block?_eq hf x).trans hunused
        cases hstatus : page.status with
        | free => exact hfree x _ hs hstatus
        | allocated =>
          rw [hstatus] at hs
          cases (h.allocated k x hs).symm.trans hunused'
        | root =>
          rw [hstatus] at hs
          obtain ⟨ts, rest, -, hroot⟩ := h.root_block hs
          cases hroot.symm.trans hunused'
        | unknown =>
          rw [hstatus] at hs
          exact absurd hs (hknown k x)
      · obtain ⟨page, hpage, hpage'⟩ := Option.map_eq_some_iff.mp hroot
        have hs := Io.status?_eq hf hpage
        have hroot' := (Io.block?_eq hf x).trans hroot
        cases hstatus : page.status with
        | free => exact absurd (hfree x _ hs hstatus) hnot
        | allocated =>
          rw [hstatus] at hs
          cases (h.allocated k x hs).symm.trans hroot'
        | root =>
          rw [hstatus] at hs
          obtain ⟨ts', rest, rfl, hnewest⟩ := h.root_block hs
          obtain ⟨rfl⟩ := Option.some.inj (hnewest.symm.trans hroot')
          refine ⟨hroot.rootValue, fun y b hb => ?_⟩
          obtain ⟨ts'', hy, rfl⟩ := exists_root hb
          have hle := hcontent.root_le k y ts'' ((Io.block?_eq hf y).trans hy)
          have hvalue := (hcontent.stamps ts rest (List.suffix_refl _)).2
          rw [List.length_cons] at hle
          omega
        | unknown =>
          rw [hstatus] at hs
          exact absurd hs (hknown k x)
      · exact hnewer.imp_right fun ⟨ts, hvalid, heq, hless⟩ =>
          ⟨ts, hvalid, heq, fun x ts' hx => hless k x ts' ((Io.block?_eq hf x).trans hx)⟩
    rw [← hcursor] at hroll
    exact hroll
  · obtain ⟨hsame, hcursor⟩ := hother hkj
    exact hrolls.same hsame hcursor

/-- The page is taken and the cursors move on. -/
theorem wrote_takePage (hf : io.file[j]? = some f) (hfirst : f.FirstFree i)
    (status : DiskPageStatus) (block : DiskBlock) :
    io.Wrote ((io.atPage j i).takePage status block).moveOn j i block := by
  have hi : i < f.page.length := by
    obtain ⟨-, -, -, hfree, -⟩ := hfirst
    exact hfree.lt
  have hpage : f.page[i]? = some f.page[i] := List.getElem?_eq_getElem hi
  have hfile : ((io.atPage j i).takePage status block).moveOn.file = io.file.modify j fun f =>
      DiskFile.moveOn { ((f.atCursor i).setStatus i status).write i block with
        numberOfFreePages := ulongPred f.numberOfFreePages } := by
    simp only [Io.moveOn, Io.nextFile, Io.takePage, Io.atPage, Io.modifyFile,
      List.modify_modify_eq]
    rfl
  refine ⟨fun k f' hf' => ?_, ?_, fun k x hne => ?_, ?_⟩
  · rw [hfile, List.getElem?_modify] at hf'
    obtain ⟨g, hg, rfl⟩ := Option.map_eq_some_iff.mp hf'
    refine ⟨g, hg, fun hkj => ?_, fun hkj => ?_⟩
    · rw [if_neg (Ne.symm hkj)]
      exact ⟨rfl, rfl⟩
    · subst hkj
      obtain rfl : f = g := Option.some.inj (hf.symm.trans hg)
      rw [if_pos rfl]
      refine ⟨hfirst, writesBlock_modify hi block status, ?_⟩
      simp [DiskFile.moveOn, DiskFile.numberOfPages, DiskFile.write, DiskFile.setStatus,
        DiskFile.atCursor]
  · simp [Io.block?, hfile, hf, DiskFile.moveOn, DiskFile.write, DiskFile.setStatus,
      DiskFile.atCursor, hpage]
  · simp only [Io.block?, hfile, List.getElem?_modify]
    by_cases hjk : j = k
    · subst hjk
      have hix : i ≠ x := fun heq => hne (by rw [heq])
      simp [hf, DiskFile.moveOn, DiskFile.write, DiskFile.setStatus, DiskFile.atCursor, hix]
    · simp [hjk]
  · have hnext : ∀ io : Io, io.nextFile.fileCursor < io.nextFile.numberOfFiles ∨
        io.nextFile.numberOfFiles = 0 := fun io =>
      (Nat.eq_zero_or_pos io.numberOfFiles).symm.imp_left fun hpos => Nat.mod_lt _ hpos
    exact hnext _

/-- After a page was written. -/
theorem Io.Wrote.content (hw : io.Wrote io' j i block) (h : io.Content written)
    (hrolls : ∀ f' ∈ io'.file, f'.Rolls) (hroot : io'.AtRoot written)
    (hblock : ∀ ts, block ≠ .root ts) : io'.Content written where
  searchable f' hf' := (hrolls f' hf').searchable
  stamps := h.stamps
  root_le k x ts hk := by
    by_cases hne : (k, x) = (j, i)
    · obtain ⟨rfl, rfl⟩ := Prod.mk.inj hne
      exact absurd (Option.some.inj (hw.self.symm.trans hk)) (hblock ts)
    · exact h.root_le k x ts ((hw.other k x hne) ▸ hk)
  newest := hroot.newest

/-- A free page is not the one of the newest root. -/
theorem Io.Live.free_ne (h : io.Live written) (hfree : io.status? j i = some .free) :
    io.prevRoot ≠ some (j, i) := by
  intro hprev
  cases ((h.root j i).mpr hprev).symm.trans hfree

theorem Io.Live.writePage (h : io.Live written) (hcontent : io.Content written)
    (hknown : io.Known) {n : Nat} (hrun : ioWritePage io = .ok (n, io')) :
    io'.Live written ∧ io'.Content written ∧ io'.Known := by
  rcases ioWritePage_cases h.cursorsOk with ⟨-, hwrite⟩ | ⟨-, j, f, i, hf, -, hfirst, hwrite⟩ |
    ⟨-, hwrite, -⟩
  · cases hwrite.symm.trans hrun
  · obtain ⟨-, rfl⟩ := Prod.mk.inj (Except.ok.inj (hwrite.symm.trans hrun))
    have hw := wrote_takePage hf hfirst .allocated .page
    have hrolls := hw.rolls h hcontent hknown (.inl rfl)
    obtain ⟨-, -, -, hfree, -⟩ := hfirst
    obtain ⟨hself, hother⟩ := status?_takePage hf hfree.lt .allocated .page
    have hne := h.free_ne ((Io.status?_free hf).mpr hfree)
    -- every page but this one has its status and its block
    have hstatus : ∀ k x s, (((io.atPage j i).takePage .allocated .page).moveOn).status? k x =
        some s → ((k, x) = (j, i) ∧ s = .allocated) ∨
        ((k, x) ≠ (j, i) ∧ io.status? k x = some s) := by
      intro k x s hs
      by_cases heq : (k, x) = (j, i)
      · obtain ⟨rfl, rfl⟩ := Prod.mk.inj heq
        exact .inl ⟨rfl, Option.some.inj (hs.symm.trans hself)⟩
      · exact .inr ⟨heq, (hother k x heq) ▸ hs⟩
    have hat : (((io.atPage j i).takePage .allocated .page).moveOn).AtRoot written := by
      rcases h.atRoot with hnone | ⟨k, x, ts, rest, hprev, hwritten, hblock⟩
      · exact .inl hnone
      · refine .inr ⟨k, x, ts, rest, hprev, hwritten, (hw.other k x fun heq => hne ?_) ▸ hblock⟩
        rw [hprev, heq]
    refine ⟨⟨hrolls, hw.fileCursor, fun k x hs => ?_, fun k x => ⟨fun hs => ?_, fun hprev => ?_⟩,
      hat, h.timeStamp⟩, hw.content hcontent hrolls hat fun ts hts => (by cases hts),
      fun k x hs => ?_⟩
    · rcases hstatus k x _ hs with ⟨heq, -⟩ | ⟨heq, hs⟩
      · obtain ⟨rfl, rfl⟩ := Prod.mk.inj heq
        exact hw.self
      · rw [hw.other k x heq]
        exact h.allocated k x hs
    · rcases hstatus k x _ hs with ⟨-, hs⟩ | ⟨-, hs⟩
      · cases hs
      · exact (h.root k x).mp hs
    · have heq : (k, x) ≠ (j, i) := fun heq => hne (heq ▸ hprev)
      rw [hother k x heq]
      exact (h.root k x).mpr hprev
    · rcases hstatus k x _ hs with ⟨-, hs⟩ | ⟨-, hs⟩
      · cases hs
      · exact hknown k x hs
  · cases hwrite.symm.trans hrun

/-! ## a root is written -/

theorem status?_moveOn (io : Io) (k x : Nat) : io.moveOn.status? k x = io.status? k x := by
  simp only [Io.status?, Io.moveOn, Io.nextFile, Io.modifyFile, List.getElem?_modify]
  cases io.file[k]? with
  | none => rfl
  | some f =>
    by_cases hk : io.fileCursor = k
    · simp [hk, DiskFile.moveOn]
    · simp [hk]

theorem Io.Restatus.moveOn (h : io.Restatus io') : io.moveOn.Restatus io'.moveOn where
  file := by
    have hlen := h.file.length_eq
    refine List.forall₂_iff_get.mpr ⟨?_, fun k hk hk' => ?_⟩
    · simp [Io.moveOn, Io.nextFile, Io.modifyFile, hlen]
    · have hk₁ : k < io.file.length := by
        simpa [Io.moveOn, Io.nextFile, Io.modifyFile] using hk
      obtain ⟨hblocks, hcursor⟩ := h.file.get hk₁ (hlen ▸ hk₁)
      simp only [Io.moveOn, Io.nextFile, Io.modifyFile, List.get_eq_getElem, List.getElem_modify,
        h.fileCursor] at hblocks hcursor ⊢
      split
      · refine ⟨hblocks, ?_⟩
        simp only [DiskFile.moveOn, DiskFile.numberOfPages, hblocks.length, hcursor]
      · exact ⟨hblocks, hcursor⟩
  fileCursor := by
    have hlen := h.numberOfFiles
    simp only [Io.moveOn, Io.nextFile, Io.modifyFile, Io.numberOfFiles, List.length_modify,
      h.fileCursor] at hlen ⊢
    rw [hlen]
  prevRoot := h.prevRoot
  timeStamp := h.timeStamp

/-- The root that was written before becomes free. -/
theorem Io.freePrevRoot_ok (hrun : io.freePrevRoot = .ok io') :
    io.Restatus io' ∧ (∀ k x, io.prevRoot ≠ some (k, x) → io'.status? k x = io.status? k x) ∧
      ∀ k x, io.prevRoot = some (k, x) → io'.status? k x = some .free := by
  unfold Io.freePrevRoot at hrun
  split at hrun
  · next hprev =>
    obtain rfl := Except.ok.inj hrun
    exact ⟨.refl io, fun _ _ _ => rfl, fun k x hk => by cases hprev.symm.trans hk⟩
  · next j i hprev =>
    split at hrun
    · next hs =>
      obtain rfl := Except.ok.inj hrun
      have hset := setsStatus_freePage io j i
      refine ⟨hset.restatus, fun k x hk => hset.other k x fun heq => hk (heq ▸ hprev),
        fun k x hk => ?_⟩
      obtain ⟨rfl, rfl⟩ := Prod.mk.inj (Option.some.inj (hprev.symm.trans hk))
      rw [hset.self, hs]
      rfl
    · cases hrun

theorem Io.Live.writeRoot (h : io.Live written) (hcontent : io.Content written)
    (hknown : io.Known) (hlen : written.length + 1 < 2 ^ 64)
    (hrun : ioWriteRoot true io = .ok io') :
    io'.Live (io.timeStamp :: written) ∧ io'.Content (io.timeStamp :: written) ∧ io'.Known := by
  obtain ⟨hvalid, hvalue⟩ := h.timeStamp
  rw [Nat.mod_eq_of_lt hlen] at hvalue
  obtain ⟨j, f, i, io₁, hf, hfirst, hprev, rfl⟩ := ioWriteRoot_ok h.cursorsOk hrun
  have hw := wrote_takePage hf hfirst .root (.root io.timeStamp)
  have hrolls := hw.rolls h hcontent hknown (.inr ⟨_, hvalid, rfl, fun k x ts hk => by
    have hle := hcontent.root_le k x ts hk
    omega⟩)
  obtain ⟨-, -, -, hfree, -⟩ := hfirst
  obtain ⟨hself, hother⟩ := status?_takePage hf hfree.lt .root (.root io.timeStamp)
  have hne := h.free_ne ((Io.status?_free hf).mpr hfree)
  obtain ⟨hre, hkept, hfreed⟩ := Io.freePrevRoot_ok hprev
  have hre := hre.moveOn
  have hblock : io₁.moveOn.block? = _ := hre.sameDisk.block?
  have hsame : ∀ k x, io.prevRoot ≠ some (k, x) → (k, x) ≠ (j, i) →
      io₁.moveOn.status? k x = io.status? k x := by
    intro k x hk heq
    rw [status?_moveOn, hkept k x hk, ← status?_moveOn]
    exact hother k x heq
  have hnew : io₁.moveOn.status? j i = some .root := by
    rw [status?_moveOn, hkept j i hne, ← status?_moveOn]
    exact hself
  -- the old root became free, the new one has the status of a root
  have hstatus : ∀ k x s, io₁.moveOn.status? k x = some s → s = .free ∨
      ((k, x) = (j, i) ∧ s = .root) ∨
      ((k, x) ≠ (j, i) ∧ io.prevRoot ≠ some (k, x) ∧ io.status? k x = some s) := by
    intro k x s hs
    by_cases hk : io.prevRoot = some (k, x)
    · rw [status?_moveOn, hfreed k x hk] at hs
      exact .inl (Option.some.inj hs).symm
    · by_cases heq : (k, x) = (j, i)
      · obtain ⟨rfl, rfl⟩ := Prod.mk.inj heq
        exact .inr (.inl ⟨rfl, Option.some.inj (hs.symm.trans hnew)⟩)
      · exact .inr (.inr ⟨heq, hk, (hsame k x hk heq) ▸ hs⟩)
  have hrolls' : ∀ f' ∈ io₁.moveOn.file, f'.Rolls := by
    intro f' hf'
    obtain ⟨k, hk⟩ := List.mem_iff_getElem?.mp hf'
    obtain ⟨g, hg, hblocks, hcursor⟩ := forall₂_get hre.file hk
    exact (hrolls g (List.mem_of_getElem? hg)).same hblocks hcursor
  have hroot : io₁.moveOn.block? j i = some (.root io.timeStamp) := hblock ▸ hw.self
  refine ⟨⟨hrolls', ?_, fun k x hs => ?_, fun k x => ⟨fun hs => ?_, fun heq => ?_⟩,
    .inr ⟨j, i, _, _, rfl, rfl, hroot⟩, ?_⟩, ⟨fun f' hf' => (hrolls' f' hf').searchable,
    hcontent.stamps.cons hvalid hvalue, fun k x ts hk => ?_, fun ts rest heq => ?_⟩,
    fun k x hs => ?_⟩
  · have hcursor := hw.fileCursor
    rw [← hre.fileCursor, ← hre.numberOfFiles] at hcursor
    exact hcursor
  · show io₁.moveOn.block? k x = _
    rcases hstatus k x _ hs with hs | ⟨-, hs⟩ | ⟨heq, -, hs⟩
    · cases hs
    · cases hs
    · rw [hblock, hw.other k x heq]
      exact h.allocated k x hs
  · rcases hstatus k x _ hs with hs | ⟨heq, -⟩ | ⟨-, hk, hs⟩
    · cases hs
    · rw [heq]
    · exact absurd ((h.root k x).mp hs) hk
  · obtain ⟨rfl, rfl⟩ := Prod.mk.inj (Option.some.inj heq)
    exact hnew
  · refine ⟨incrementRootTimeStamp_valid hvalid, ?_⟩
    rw [incrementRootTimeStamp_value hvalid, hvalue, List.length_cons]
  · have hk : io₁.moveOn.block? k x = _ := hk
    rw [List.length_cons]
    by_cases heq : (k, x) = (j, i)
    · obtain ⟨rfl, rfl⟩ := Prod.mk.inj heq
      obtain ⟨rfl⟩ := Option.some.inj (hroot.symm.trans hk)
      omega
    · rw [hblock, hw.other k x heq] at hk
      have hle := hcontent.root_le k x ts hk
      omega
  · obtain ⟨rfl, -⟩ := List.cons.inj heq
    exact ⟨j, i, hroot⟩
  · rcases hstatus k x _ hs with hs | ⟨-, hs⟩ | ⟨-, -, hs⟩
    · cases hs
    · cases hs
    · exact hknown k x hs

/-! ## the recovery -/

/-- Right after the files were opened. -/
def Io.AtStart (io : Io) : Prop :=
  (∀ f ∈ io.file, f.cursor = 0) ∧ io.fileCursor = 0 ∧ ∀ j i s, io.status? j i = some s →
    s = .unknown

/-- The root that was written last is the newest one. -/
structure Io.ReadsNewest (io : Io) (written : List TimeStamp) (io' : Io) : Prop where
  run : ioReadRoot true io = .ok io'
  root : ∃ j i ts, io'.prevRoot = some (j, i) ∧ io.block? j i = some (.root ts) ∧ ts ∈ written ∧
    ∀ ts' ∈ written, ts' = ts ∨ timeStampIsNewerThan ts ts' = true

theorem TimeStamp.eq_of_value {a b : TimeStamp} (ha : a.Valid) (hb : b.Valid)
    (h : a.value = b.value) : a = b := by
  obtain ⟨ahi, alo⟩ := a
  obtain ⟨bhi, blo⟩ := b
  unfold TimeStamp.Valid at ha hb
  unfold TimeStamp.value at h
  obtain ⟨rfl, rfl⟩ : ahi = bhi ∧ alo = blo := by
    dsimp only at *
    omega
  rfl

/-- The cursors are at the newest root of each file, and the page of the newest
root of all has the status of a root. -/
theorem Io.Content.live (h : io.Content (ts :: rest)) (hstart : io.AtStart)
    (hpos : ∀ f ∈ io.file, 0 < f.page.length) {fs' : List DiskFile}
    (hat : List.Forall₂ AtNewest io.file fs') (hf' : fs'[j]? = some f')
    (hroot : RootOn f'.page i ts) (hio' : io' = { io with
      file := fs'.modify j fun f =>
        { f.setStatus i .root with numberOfFreePages := ulongPred f.numberOfFreePages }
      prevRoot := some (j, i)
      timeStamp := incrementRootTimeStamp ts }) :
    io'.Live (ts :: rest) ∧ io'.Content (ts :: rest) := by
  obtain ⟨hcursor, hfile, hunknown⟩ := hstart
  obtain ⟨hvalid, hvalue⟩ := h.stamps ts rest (List.suffix_refl _)
  -- the cursors are set first
  obtain ⟨io₁, hio₁⟩ : ∃ io₁ : Io, io₁ = { io with
    file := fs'
    prevRoot := some (j, i)
    timeStamp := incrementRootTimeStamp ts } := ⟨_, rfl⟩
  have hset : io₁.SetsStatus io' j i .root := by
    subst hio₁ hio'
    exact setsStatus_modifyFile _ j i .root (fun f => ulongPred f.numberOfFreePages)
      io.numberOfFreeDiskPages
  have hsame : io.SameDisk io₁ := by
    subst hio₁
    exact hat.imp fun f f' hff' => by rw [SameBlocks, hff'.page]
  have hstatus : ∀ k x s, io₁.status? k x = some s → s = .unknown := by
    intro k x s hs
    obtain ⟨g', page, hg', hpage, rfl⟩ := Io.exists_page hs
    subst hio₁
    obtain ⟨g, hg, hgg'⟩ := forall₂_get hat hg'
    exact hunknown k x _ (Io.status?_eq hg (hgg'.page ▸ hpage))
  have hj : io₁.file[j]? = some f' := by rw [hio₁]; exact hf'
  have hself : io'.status? j i = some .root := by
    obtain ⟨page, hpage, -⟩ := Option.map_eq_some_iff.mp hroot
    rw [hset.self, Io.status?_eq hj hpage]
    rfl
  have hcontent := (h.same hsame).same hset.restatus.sameDisk
  refine ⟨⟨fun g hg => ?_, ?_, fun k x hs => ?_, fun k x => ⟨fun hs => ?_, fun hprev => ?_⟩,
    .inr ⟨j, i, ts, rest, ?_, rfl, ?_⟩, ?_⟩, hcontent⟩
  · obtain ⟨k, hk⟩ := List.mem_iff_getElem?.mp hg
    obtain ⟨g₁, hg₁, hblocks, hcur⟩ := forall₂_get hset.restatus.file hk
    have hg₁ : fs'[k]? = some g₁ := by rw [← hg₁, hio₁]
    obtain ⟨g₀, hg₀, hatk⟩ := forall₂_get hat hg₁
    have hmem := List.mem_of_getElem? hg₀
    exact (hatk.rolls (h.searchable g₀ hmem) (hpos g₀ hmem) (hcursor g₀ hmem)).same hblocks hcur
  · have hzero : io'.fileCursor = 0 := by rw [hset.restatus.fileCursor, hio₁]; exact hfile
    rw [hzero]
    exact (Nat.eq_zero_or_pos _).symm
  · rcases hset.cases hs with ⟨-, -, heq⟩ | ⟨-, hk⟩
    · cases heq
    · cases hstatus k x _ hk
  · rcases hset.cases hs with ⟨rfl, rfl, -⟩ | ⟨-, hk⟩
    · rw [hset.restatus.prevRoot, hio₁]
    · cases hstatus k x _ hk
  · rw [hset.restatus.prevRoot, hio₁] at hprev
    obtain ⟨rfl, rfl⟩ := Prod.mk.inj (Option.some.inj hprev)
    exact hself
  · rw [hset.restatus.prevRoot, hio₁]
  · rw [hset.restatus.sameDisk.block?, Io.block?_eq hj]
    exact hroot
  · rw [hset.restatus.timeStamp, hio₁]
    refine ⟨incrementRootTimeStamp_valid hvalid, ?_⟩
    rw [incrementRootTimeStamp_value hvalid, hvalue, List.length_cons]

/-- The search finds the root that was written last. -/
theorem Io.Content.readRoot (h : io.Content written) (hstart : io.AtStart)
    (hpos : ∀ f ∈ io.file, 0 < f.page.length) (hne : written ≠ []) :
    ∃ io', io.ReadsNewest written io' ∧ io'.Live written ∧ io'.Content written := by
  obtain ⟨ts, rest, rfl⟩ := List.exists_cons_of_ne_nil hne
  obtain ⟨hvalid, hvalue⟩ := h.stamps ts rest (List.suffix_refl _)
  obtain ⟨fs', root, hsearch, hat, hnewest⟩ :=
    searchFiles_spec h.searchable hpos 0 none timeStamp_zero
  obtain ⟨j₀, i₀, hroot₀⟩ := h.newest ts rest rfl
  obtain ⟨f₀, hf₀, hblock₀⟩ := Io.exists_block hroot₀
  rcases hnewest with ⟨-, hnone⟩ | ⟨j, f, i, ts', hf, hroot, rfl, -, hnone⟩
  · have hle : ts.value ≤ 0 := hnone f₀ (List.mem_of_getElem? hf₀) i₀ ts hblock₀
    omega
  · -- the root that is found is the one that was written last
    have hge := hnone f₀ (List.mem_of_getElem? hf₀) i₀ ts hblock₀
    have hle := h.root_le j i ts' ((Io.block?_eq hf i).trans hroot)
    obtain ⟨k, hk⟩ := (h.searchable f (List.mem_of_getElem? hf)).written
    obtain rfl : ts' = ts := TimeStamp.eq_of_value (hk.valid hroot) hvalid (by
      rw [List.length_cons] at hle
      omega)
    rw [Nat.zero_add] at hsearch
    have hlt : j < fs'.length := hat.length_eq ▸ (List.getElem?_eq_some_iff.mp hf).1
    have hf' : fs'[j]? = some fs'[j] := List.getElem?_eq_getElem hlt
    obtain ⟨g, hg, hatj⟩ := forall₂_get hat hf'
    obtain rfl : f = g := Option.some.inj (hf.symm.trans hg)
    have hroot' : RootOn fs'[j].page i ts' := hatj.page ▸ hroot
    obtain ⟨hlive, hcontent⟩ := h.live hstart hpos hat hf' hroot' rfl
    refine ⟨_, ⟨ioReadRoot_eq hsearch hf' hroot', j, i, ts', rfl, (Io.block?_eq hf i).trans hroot,
      List.mem_cons_self, fun ts₁ hts₁ => ?_⟩, hlive, hcontent⟩
    rcases List.mem_cons.mp hts₁ with rfl | hts₁
    · exact .inl rfl
    · have hrest : Stamps rest := fun t r hsuffix =>
        h.stamps t r (hsuffix.trans (List.suffix_cons _ _))
      obtain ⟨hvalid₁, hle₁⟩ := hrest.le hts₁
      exact .inr ((timeStampIsNewerThan_iff hvalid hvalid₁).mpr (by omega))

/-- A search that returns has found pages in all files, and a root. -/
theorem Io.Content.of_readRoot (h : io.Content written) (hrun : ioReadRoot true io = .ok io') :
    (∀ f ∈ io.file, 0 < f.page.length) ∧ written ≠ [] := by
  obtain ⟨fs, j, i, ts, f, hsearch, -⟩ := ioReadRoot_ok hrun
  have hpos : ∀ f ∈ io.file, 0 < f.page.length := by
    intro f hf
    by_contra hzero
    exact searchFiles_empty ⟨f, hf, List.eq_nil_of_length_eq_zero (by omega)⟩ _ _ _ _ hsearch
  refine ⟨hpos, ?_⟩
  rintro rfl
  obtain ⟨fs', root, hsearch', -, hnewest⟩ :=
    searchFiles_spec h.searchable hpos 0 none timeStamp_zero
  obtain ⟨-, rfl⟩ := Prod.mk.inj (Except.ok.inj (hsearch'.symm.trans hsearch))
  rcases hnewest with ⟨hnone, -⟩ | ⟨j', f', i', ts', hf', hroot, -, hlt, -⟩
  · cases hnone
  · have hle := h.root_le j' i' ts' ((Io.block?_eq hf' i').trans hroot)
    rw [List.length_nil] at hle
    omega

/-! ## all histories -/

theorem status?_map {g : DiskFile → DiskFile} (hfile : io'.file = io.file.map g)
    (hg : ∀ f, ∀ page ∈ (g f).page, page.status = status) {s : DiskPageStatus}
    (hs : io'.status? j i = some s) : s = status := by
  obtain ⟨f', page, hf', hpage, rfl⟩ := Io.exists_page hs
  rw [hfile, List.getElem?_map] at hf'
  obtain ⟨f, -, rfl⟩ := Option.map_eq_some_iff.mp hf'
  exact hg f page (List.mem_of_getElem? hpage)

/-- New files have no roots. -/
theorem ioCreateFile_holds (io : Io) : (ioCreateFile true io.newProcess).Content [] ∧
    (ioCreateFile true io.newProcess).Live [] ∧ (ioCreateFile true io.newProcess).Known := by
  have hunused : ∀ f ∈ (ioCreateFile true io.newProcess).file, ∀ i < f.page.length,
      blockAt f.page i = some .unused := by
    intro f' hf' i hi
    obtain ⟨f, -, rfl⟩ := List.mem_map.mp hf'
    rw [List.length_map] at hi
    simp [blockAt, hi]
  have hno : ∀ f ∈ (ioCreateFile true io.newProcess).file, ∀ i ts, ¬ RootOn f.page i ts :=
    fun f hf i ts hroot => by cases (hunused f hf i hroot.lt).symm.trans hroot
  have hfree : ∀ j i s, (ioCreateFile true io.newProcess).status? j i = some s → s = .free :=
    fun j i s hs => status?_map rfl (fun f page hpage => by
      obtain ⟨p, -, rfl⟩ := List.mem_map.mp hpage
      rfl) hs
  have hrolls : ∀ f ∈ (ioCreateFile true io.newProcess).file, f.Rolls := by
    intro f hf
    have hcursor : f.cursor = 0 := by
      obtain ⟨f₀, -, rfl⟩ := List.mem_map.mp hf
      rfl
    refine ⟨?_, ⟨0, by omega, Nat.zero_le _, fun i hi => absurd hi (Nat.not_lt_zero i),
      fun i _ hi => hunused f hf i hi⟩, .inl fun x y a b _ hx => ?_⟩
    · unfold DiskFile.CursorOk
      rw [hcursor]
      exact (Nat.eq_zero_or_pos _).symm
    · obtain ⟨ts, hroot, -⟩ := exists_root hx
      exact absurd hroot (hno f hf x ts)
  refine ⟨⟨fun f hf => (hrolls f hf).searchable, ?_, fun j i ts hroot => ?_, ?_⟩,
    ⟨hrolls, (Nat.eq_zero_or_pos _).symm, fun j i hs => ?_, fun j i => ⟨fun hs => ?_, ?_⟩,
      .inl ⟨rfl, rfl⟩, timeStamp_first⟩, fun j i hs => ?_⟩
  · intro ts rest hsuffix
    cases List.suffix_nil.mp hsuffix
  · obtain ⟨f, hf, hblock⟩ := Io.exists_block hroot
    exact absurd hblock (hno f (List.mem_of_getElem? hf) i ts)
  · intro ts rest heq
    cases heq
  · cases hfree j i _ hs
  · cases hfree j i _ hs
  · intro hprev
    cases hprev
  · cases hfree j i _ hs

/-- The blocks on disk are not changed by a crash. -/
theorem ioOpenFile_holds (h : io.Content written) :
    (ioOpenFile io.newProcess).Content written ∧ (ioOpenFile io.newProcess).AtStart := by
  refine ⟨h.same ?_, fun f hf => ?_, rfl, fun j i s hs => ?_⟩
  · refine List.forall₂_map_right_iff.mpr (List.forall₂_same.mpr fun f _ => ?_)
    simp [SameBlocks, Function.comp_def]
  · obtain ⟨f₀, -, rfl⟩ := List.mem_map.mp hf
    rfl
  · exact status?_map rfl (fun f page hpage => by
      obtain ⟨p, -, rfl⟩ := List.mem_map.mp hpage
      rfl) hs

/-- The invariant of a history. -/
structure DiskPhase.Holds (phase : DiskPhase) (io : Io) (written : List TimeStamp) : Prop where
  content : io.Content written
  start : phase = .opened → io.AtStart
  live : phase ≠ .opened → io.Live written
  known : phase = .running → io.Known

/-- A page gets a status that is not the one of a root. -/
theorem DiskPhase.Holds.setsStatus (h : phase.Holds io written) (hphase : phase ≠ .opened)
    (hset : io.SetsStatus io' j i status) (hold : io.status? j i ≠ some .root)
    (hroot : status ≠ .root) (hunknown : status ≠ .unknown)
    (hpage : status = .allocated → io.block? j i = some .page) : phase.Holds io' written where
  content := h.content.same hset.restatus.sameDisk
  start heq := absurd heq hphase
  live _ := (h.live hphase).setsStatus hset hold hroot hpage
  known heq k x hs := by
    rcases hset.cases hs with ⟨-, -, hk⟩ | ⟨-, hk⟩
    · exact hunknown hk.symm
    · exact h.known heq k x hk

theorem DiskHistory.holds (h : DiskHistory phase io written) (hlen : written.length < 2 ^ 64) :
    phase.Holds io written := by
  induction h with
  | create io =>
    obtain ⟨hcontent, hlive, hknown⟩ := ioCreateFile_holds io
    exact ⟨hcontent, fun hphase => (by cases hphase), fun _ => hlive, fun _ => hknown⟩
  | crash _ ih =>
    obtain ⟨hcontent, hstart⟩ := ioOpenFile_holds (ih hlen).content
    exact ⟨hcontent, fun _ => hstart, fun hphase => absurd rfl hphase,
      fun hphase => (by cases hphase)⟩
  | readRoot _ hrun ih =>
    obtain ⟨hcontent, hstart, -, -⟩ := ih hlen
    obtain ⟨hpos, hne⟩ := hcontent.of_readRoot hrun
    obtain ⟨io', hnewest, hlive, hcontent'⟩ := hcontent.readRoot (hstart rfl) hpos hne
    obtain rfl := Except.ok.inj (hnewest.run.symm.trans hrun)
    exact ⟨hcontent', fun hphase => (by cases hphase), fun _ => hlive,
      fun hphase => (by cases hphase)⟩
  | @declareAllocated io io' written n _ hpage hrun ih =>
    have hlive := (ih hlen).live (by decide)
    unfold ioDeclareDiskPageAllocated at hrun
    simp only at hrun
    split at hrun
    · cases hrun
    · obtain rfl := Except.ok.inj hrun
      refine (ih hlen).setsStatus (by decide) (setsStatus_setStatus io _ _ .allocated)
        (fun hs => ?_) (by decide) (by decide) fun _ => hpage
      obtain ⟨ts, rest, -, hroot⟩ := hlive.root_block hs
      cases hroot.symm.trans hpage
  | @declareFree io written _ ih =>
    obtain ⟨hfrees, hknown⟩ := ioDeclareUnallocatedPagesFree_frees io
    exact ⟨(ih hlen).content.same hfrees.restatus.sameDisk, fun hphase => (by cases hphase),
      fun _ => ((ih hlen).live (by decide)).frees hfrees, fun _ => hknown⟩
  | @freeDiskPage phase io written n _ hphase hpage hroot ih =>
    unfold ioFreeDiskPage
    simp only
    split
    · exact (ih hlen).setsStatus hphase (setsStatus_freePage io _ _) hroot (by decide) (by decide)
        fun heq => by cases heq
    · exact ih hlen
  | writePage _ hrun ih =>
    obtain ⟨hcontent, -, hlive, hknown⟩ := ih hlen
    obtain ⟨hlive', hcontent', hknown'⟩ :=
      (hlive (by decide)).writePage hcontent (hknown rfl) hrun
    exact ⟨hcontent', fun hphase => (by cases hphase), fun _ => hlive', fun _ => hknown'⟩
  | writeRoot _ hrun ih =>
    rw [List.length_cons] at hlen
    obtain ⟨hcontent, -, hlive, hknown⟩ := ih (by omega)
    obtain ⟨hlive', hcontent', hknown'⟩ :=
      (hlive (by decide)).writeRoot hcontent (hknown rfl) hlen hrun
    exact ⟨hcontent', fun hphase => (by cases hphase), fun _ => hlive', fun _ => hknown'⟩

/-- In every history, with less roots than time stamps, the search of
`io_read_root` returns the newest of all roots that were ever written, exactly
if all files have pages. -/
theorem io_readRoot (h : DiskHistory .opened io written) (hne : written ≠ [])
    (hlen : written.length < 2 ^ 64) :
    (∃ io', io.ReadsNewest written io') ↔ ∀ f ∈ io.file, 0 < f.numberOfPages := by
  obtain ⟨hcontent, hstart, -, -⟩ := h.holds hlen
  constructor
  · rintro ⟨io', hrun, -⟩
    exact (hcontent.of_readRoot hrun).1
  · intro hpos
    obtain ⟨io', hnewest, -⟩ := hcontent.readRoot (hstart rfl) hpos hne
    exact ⟨io', hnewest⟩

/-- Files of three and of two pages, and a root. -/
theorem io_readRoot_one : ∃ io written io', DiskHistory .opened io written ∧
    io.ReadsNewest written io' := by
  obtain ⟨io, hwrite⟩ : ∃ io, ioWriteRoot true (ioCreateFile true
      (Io.newProcess { blankFiles 2 3 with file := [⟨List.replicate 3 ⟨.unknown, .other⟩, 0, 0⟩,
        ⟨List.replicate 2 ⟨.unknown, .other⟩, 0, 0⟩] })) = .ok io := ⟨_, rfl⟩
  have hcrash := ((DiskHistory.create _).writeRoot hwrite).crash
  obtain ⟨io', hread⟩ := (io_readRoot hcrash (by simp) (by simp)).mpr (by
    obtain rfl := Except.ok.inj hwrite
    decide)
  exact ⟨_, _, io', hcrash, hread⟩

/-- Files of three and of no pages, and a root: the search fails. -/
theorem ioReadRoot_fails : ∃ io written, DiskHistory .opened io written ∧ written ≠ [] ∧
    ioReadRoot true io = .error .read ∧ ¬ ∃ io', io.ReadsNewest written io' := by
  obtain ⟨io, hwrite⟩ : ∃ io, ioWriteRoot true (ioCreateFile true
      (Io.newProcess { blankFiles 2 3 with file := [⟨List.replicate 3 ⟨.unknown, .other⟩, 0, 0⟩,
        ⟨[], 0, 0⟩] })) = .ok io := ⟨_, rfl⟩
  have hcrash := ((DiskHistory.create _).writeRoot hwrite).crash
  have hread : ioReadRoot true (ioOpenFile io.newProcess) = .error .read := by
    obtain rfl := Except.ok.inj hwrite
    rfl
  refine ⟨_, _, hcrash, by simp, hread, ?_⟩
  rintro ⟨io', hrun, -⟩
  cases hread.symm.trans hrun

end Shades
