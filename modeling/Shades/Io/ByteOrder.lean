import Shades.Io.ReadRoot

/-!
# Shades.Io.ByteOrder

`io_read_root` on the files of a machine with the other byte order, where every word
of every page is swapped.

The search comes to the same pages as long as its comparisons come out the same.  It
compares the time stamps with their bytes as they were read, and the order of two
numbers is not that of the numbers with swapped bytes.
-/

namespace Shades

theorem swapBytes_bytes {b₀ b₁ b₂ b₃ : Nat} (h₀ : b₀ < 256) (h₁ : b₁ < 256) (h₂ : b₂ < 256)
    (h₃ : b₃ < 256) : swapBytes (((b₃ * 256 + b₂) * 256 + b₁) * 256 + b₀) =
      ((b₀ * 256 + b₁) * 256 + b₂) * 256 + b₃ := by
  obtain ⟨x, hx⟩ : ∃ x, x = ((b₃ * 256 + b₂) * 256 + b₁) * 256 + b₀ := ⟨_, rfl⟩
  have hbytes : x % 256 = b₀ ∧ x / 2 ^ 8 % 256 = b₁ ∧ x / 2 ^ 16 % 256 = b₂ ∧ x / 2 ^ 24 = b₃ := by
    refine ⟨?_, ?_, ?_, ?_⟩ <;> omega
  rw [← hx, swapBytes_eq (by omega), hbytes.1, hbytes.2.1, hbytes.2.2.1, hbytes.2.2.2]

theorem swapBytes_swapBytes {x : Nat} (hx : x < 2 ^ 32) : swapBytes (swapBytes x) = x := by
  have hbytes : x = ((x / 2 ^ 24 * 256 + x / 2 ^ 16 % 256) * 256 + x / 2 ^ 8 % 256) * 256 +
      x % 256 := by omega
  generalize h₀ : x % 256 = b₀ at hbytes
  generalize h₁ : x / 2 ^ 8 % 256 = b₁ at hbytes
  generalize h₂ : x / 2 ^ 16 % 256 = b₂ at hbytes
  generalize h₃ : x / 2 ^ 24 = b₃ at hbytes
  have hlt : b₀ < 256 ∧ b₁ < 256 ∧ b₂ < 256 ∧ b₃ < 256 := by omega
  obtain ⟨hlt₀, hlt₁, hlt₂, hlt₃⟩ := hlt
  rw [hbytes, swapBytes_bytes hlt₀ hlt₁ hlt₂ hlt₃, swapBytes_bytes hlt₃ hlt₂ hlt₁ hlt₀]

theorem swapBytes_eq_iff {x y : Nat} (hx : x < 2 ^ 32) (hy : y < 2 ^ 32) :
    swapBytes x = y ↔ x = swapBytes y := by
  constructor
  · rintro rfl
    exact (swapBytes_swapBytes hx).symm
  · rintro rfl
    exact swapBytes_swapBytes hy

theorem swapBytes_inj {x y : Nat} (hx : x < 2 ^ 32) (hy : y < 2 ^ 32) :
    swapBytes x = swapBytes y ↔ x = y := by
  rw [swapBytes_eq_iff hx (swapBytes_lt hy), swapBytes_swapBytes hy]

/-! ## the same search with swapped time stamps -/

def TimeStamp.swapped (ts : TimeStamp) : TimeStamp := ⟨swapBytes ts.hi, swapBytes ts.lo⟩

theorem TimeStamp.swapped_zero : TimeStamp.swapped ⟨0, 0⟩ = ⟨0, 0⟩ := by decide

def DiskBlock.swapped : DiskBlock → DiskBlock
  | .root ts => .root ts.swapped
  | .page => .page
  | .unused => .unused
  | .other => .other

def DiskPage.swapped (p : DiskPage) : DiskPage := { p with block := p.block.swapped }

/-- The file as the other machine writes it. -/
def RootFile.swapped (f : RootFile) : RootFile := { f with words := f.words.map .swapped }

def RootSearch.swapped (s : RootSearch) : RootSearch :=
  { s with leftTs := s.leftTs.swapped, rightTs := s.rightTs.swapped }

def SearchLabel.swapped : SearchLabel → SearchLabel
  | .searchLeftmostRoot leftPage => .searchLeftmostRoot leftPage
  | .leftOrRightPageChanged s => .leftOrRightPageChanged s.swapped
  | .midPageChanged s firstMidPage direction midPage =>
    .midPageChanged s.swapped firstMidPage direction midPage

def SearchEnd.swapped : SearchEnd → SearchEnd
  | .found s => .found s.swapped
  | .noRoot => .noRoot
  | .exit failure => .exit failure

def MidPage.swapped : MidPage → MidPage
  | .found => .found
  | .scan direction midPage => .scan direction midPage
  | .changed s => .changed s.swapped

def RootSearches.swapped (r : RootSearches) : RootSearches :=
  { r with label := r.label.swapped, rootTs := r.rootTs.swapped }

/-- Two time stamps compare the same with swapped bytes. -/
def TimeStamp.SameOrder (a b : TimeStamp) : Prop :=
  timeStampIsNewerThan a.swapped b.swapped = timeStampIsNewerThan a b

instance (a b : TimeStamp) : Decidable (a.SameOrder b) := inferInstanceAs (Decidable (_ = _))

/-- The time stamps that `io_read_root` compares next: of a root in the middle of the
range and the left limit, of the two limits when the search in a file ends, and of the
newest root of the file and the newest one so far. -/
inductive RootSearches.Compares (file : List RootFile) (r : RootSearches) :
    TimeStamp → TimeStamp → Prop
  | mid {f : RootFile} {s : RootSearch} {firstMidPage midPage : Nat} {direction : Direction}
      {p : DiskPage} {ts : TimeStamp} (hfile : file[r.i]? = some f)
      (hlabel : r.label = .midPageChanged s firstMidPage direction midPage)
      (hne : midPage ≠ s.leftPage) (hpage : f.page[midPage]? = some p)
      (hroot : p.block = .root ts) :
      RootSearches.Compares file r ts s.leftTs
  | limits {f : RootFile} {s : RootSearch} (hfile : file[r.i]? = some f)
      (hfound : f.searchStep r.label = .inr (.found s)) (hvalid : s.rightPageIsValidRoot = true) :
      RootSearches.Compares file r s.rightTs s.leftTs
  | files {f : RootFile} {s : RootSearch} (hfile : file[r.i]? = some f)
      (hfound : f.searchStep r.label = .inr (.found s)) :
      RootSearches.Compares file r s.newest.2 r.rootTs

/-- All of them. -/
def RootSearches.compared (file : List RootFile) (r : RootSearches) :
    List (TimeStamp × TimeStamp) :=
  match file[r.i]? with
  | none => []
  | some f =>
    (match r.label with
    | .midPageChanged s _ _ midPage =>
      if midPage = s.leftPage then []
      else
        match f.page[midPage]?.map DiskPage.block with
        | some (.root ts) => [(ts, s.leftTs)]
        | _ => []
    | _ => []) ++
    match f.searchStep r.label with
    | .inr (.found s) =>
      (if s.rightPageIsValidRoot then [(s.rightTs, s.leftTs)] else []) ++ [(s.newest.2, r.rootTs)]
    | _ => []

theorem RootSearches.Compares.mem_compared {file : List RootFile} {r : RootSearches}
    {a b : TimeStamp} (h : r.Compares file a b) : (a, b) ∈ r.compared file := by
  cases h with
  | mid hfile hlabel hne hpage hroot =>
    simp [RootSearches.compared, hfile, hlabel, hne, hpage, hroot]
  | limits hfile hfound hvalid => simp [RootSearches.compared, hfile, hfound, hvalid]
  | files hfile hfound => simp [RootSearches.compared, hfile, hfound]

section byteOrder

variable {f : RootFile} {s : RootSearch} {r : RootSearches} {file : List RootFile}
  {firstMidPage midPage : Nat} {direction : Direction} {label : SearchLabel}

/-- The cookies are recognised in both byte orders. -/
theorem BlockWords.block_swapped (root : BlockWords) :
    root.swapped.block = root.block.swapped := by
  have hcookie : ∀ cookie < 2 ^ 32, (root.swapped.word 0 = cookie ∨
      root.swapped.word 0 = swapBytes cookie) ↔
      (root.word 0 = cookie ∨ root.word 0 = swapBytes cookie) := by
    intro cookie hlt
    rw [or_comm]
    exact or_congr (swapBytes_inj (root.lt 0) hlt) (swapBytes_eq_iff (root.lt 0) hlt)
  unfold BlockWords.block
  simp only [hcookie pageMagicCookie (by decide), hcookie rootMagicCookie (by decide),
    hcookie unusedPageCookie (by decide)]
  split_ifs <;> rfl

theorem RootFile.getElem?_page_swapped (f : RootFile) (i : Nat) :
    f.swapped.page[i]? = f.page[i]?.map .swapped := by
  unfold RootFile.swapped RootFile.page
  simp only [List.map_map, List.getElem?_map, Option.map_map]
  congr 1
  funext root
  simp only [Function.comp_apply, root.block_swapped, DiskPage.swapped]

theorem readMidPage_swapped
    (hsame : midPage ≠ s.leftPage → ∀ p ts, f.page[midPage]? = some p → p.block = .root ts →
      ts.SameOrder s.leftTs) :
    readMidPage f.swapped.page s.swapped firstMidPage direction midPage =
      (readMidPage f.page s firstMidPage direction midPage).map .swapped := by
  unfold readMidPage
  rw [f.getElem?_page_swapped]
  by_cases hleft : midPage = s.leftPage
  · rw [if_pos hleft, if_pos (show midPage = s.swapped.leftPage from hleft)]
    rfl
  · rw [if_neg hleft, if_neg (show midPage ≠ s.swapped.leftPage from hleft)]
    cases hpage : f.page[midPage]? with
    | none => rfl
    | some p =>
      obtain ⟨status, block⟩ := p
      cases block with
      | root ts =>
        have hts : timeStampIsNewerThan ts.swapped s.swapped.leftTs =
            timeStampIsNewerThan ts s.leftTs := hsame hleft _ ts hpage rfl
        simp only [Option.map_some, DiskPage.swapped, DiskBlock.swapped, hts]
        split <;> rfl
      | page =>
        simp only [Option.map_some, DiskPage.swapped, DiskBlock.swapped, RootSearch.swapped]
        cases direction <;> simp only [apply_ite (Except.map MidPage.swapped)] <;> rfl
      | unused => rfl
      | other => rfl

/-- The search in a file takes the same steps. -/
theorem RootFile.searchStep_swapped
    (hsame : ∀ s firstMidPage direction midPage p ts,
      label = .midPageChanged s firstMidPage direction midPage → midPage ≠ s.leftPage →
        f.page[midPage]? = some p → p.block = .root ts → ts.SameOrder s.leftTs) :
    f.swapped.searchStep label.swapped = Sum.map .swapped .swapped (f.searchStep label) := by
  cases label with
  | searchLeftmostRoot leftPage =>
    rw [SearchLabel.swapped, RootFile.searchStep, RootFile.searchStep, f.getElem?_page_swapped]
    cases hpage : f.page[leftPage]? with
    | none => rfl
    | some p =>
      obtain ⟨status, block⟩ := p
      cases block with
      | root ts =>
        simp only [Option.map_some, DiskPage.swapped, DiskBlock.swapped, Sum.map_inl,
          SearchLabel.swapped, RootSearch.swapped, TimeStamp.swapped_zero, RootFile.swapped]
      | unused => rfl
      | page =>
        simp only [Option.map_some, DiskPage.swapped, DiskBlock.swapped, RootFile.swapped,
          apply_ite (Sum.map SearchLabel.swapped SearchEnd.swapped)]
        rfl
      | other =>
        simp only [Option.map_some, DiskPage.swapped, DiskBlock.swapped, RootFile.swapped,
          apply_ite (Sum.map SearchLabel.swapped SearchEnd.swapped)]
        rfl
  | leftOrRightPageChanged s =>
    rw [SearchLabel.swapped, RootFile.searchStep, RootFile.searchStep]
    simp only [RootSearch.swapped, apply_ite (Sum.map SearchLabel.swapped SearchEnd.swapped)]
    rfl
  | midPageChanged s firstMidPage direction midPage =>
    rw [SearchLabel.swapped, RootFile.searchStep, RootFile.searchStep,
      readMidPage_swapped fun hne p ts => hsame s firstMidPage direction midPage p ts rfl hne]
    cases readMidPage f.page s firstMidPage direction midPage with
    | error failure => rfl
    | ok r => cases r <;> rfl

theorem RootSearch.newest_swapped
    (hsame : s.rightPageIsValidRoot = true → s.rightTs.SameOrder s.leftTs) :
    s.swapped.newest = (s.newest.1, s.newest.2.swapped) := by
  unfold RootSearch.newest
  cases hvalid : s.rightPageIsValidRoot with
  | false => simp [RootSearch.swapped, hvalid]
  | true =>
    have hts : timeStampIsNewerThan s.swapped.rightTs s.swapped.leftTs =
        timeStampIsNewerThan s.rightTs s.leftTs := hsame hvalid
    rw [hts]
    simp only [RootSearch.swapped, hvalid]
    split <;> rfl

theorem BlockWords.swapped_swapped (root : BlockWords) : root.swapped.swapped = root := by
  obtain ⟨word, hlt⟩ := root
  unfold BlockWords.swapped
  congr 1
  funext i
  exact swapBytes_swapBytes (hlt i)

/-- A root is the same in memory. -/
theorem BlockWords.readRoot_swapped (root : BlockWords) :
    (if root.swapped.word 0 = swapBytes rootMagicCookie then root.swapped.swapped
      else root.swapped) =
    (if root.word 0 = swapBytes rootMagicCookie then root.swapped else root) ∨
    root.word 0 ≠ rootMagicCookie ∧ root.word 0 ≠ swapBytes rootMagicCookie := by
  have hcookie : root.swapped.word 0 = swapBytes rootMagicCookie ↔ root.word 0 = rootMagicCookie :=
    swapBytes_inj (root.lt 0) (by decide)
  simp only [hcookie, root.swapped_swapped]
  by_cases hroot : root.word 0 = rootMagicCookie
  · rw [if_pos hroot, hroot, if_neg (by decide)]
    exact .inl rfl
  · rw [if_neg hroot]
    by_cases hswapped : root.word 0 = swapBytes rootMagicCookie
    · rw [if_pos hswapped]
      exact .inl rfl
    · exact .inr ⟨hroot, hswapped⟩

theorem readBlock_swapped (file : List RootFile) (i j : Nat) :
    readBlock (file.map .swapped) i j = (readBlock file i j).map .swapped := by
  unfold readBlock
  rw [List.getElem?_map]
  cases file[i]? with
  | none => rfl
  | some f => exact List.getElem?_map

/-- The root that is selected is the same in memory. -/
theorem readSelectedRoot_swapped (file : List RootFile) (r : RootSearches) :
    readSelectedRoot (file.map .swapped) r.swapped = readSelectedRoot file r := by
  unfold readSelectedRoot
  have hselected : r.swapped.rootFileAndPage = r.rootFileAndPage := rfl
  have hcursor : r.swapped.cursor = r.cursor := rfl
  rw [hselected, hcursor]
  cases r.rootFileAndPage with
  | none => rfl
  | some p =>
    simp only [readBlock_swapped]
    cases readBlock file p.1 p.2 with
    | none => rfl
    | some root =>
      simp only [Option.map_some]
      cases root.readRoot_swapped with
      | inl hsame => rw [hsame]
      | inr hother =>
        have hcookie : root.swapped.word 0 ≠ swapBytes rootMagicCookie :=
          fun h => hother.1 ((swapBytes_inj (root.lt 0) (by decide)).mp h)
        have hcookie' : root.swapped.word 0 ≠ rootMagicCookie :=
          fun h => hother.2 ((swapBytes_eq_iff (root.lt 0) (by decide)).mp h)
        rw [if_neg hcookie, if_neg hother.2, if_pos hcookie', if_pos hother.1]

theorem RootSearches.foundNewestRoot_swapped
    (hlimits : s.rightPageIsValidRoot = true → s.rightTs.SameOrder s.leftTs)
    (hfiles : s.newest.2.SameOrder r.rootTs) :
    r.swapped.foundNewestRoot s.swapped = (r.foundNewestRoot s).swapped := by
  have hts : timeStampIsNewerThan s.newest.2.swapped r.swapped.rootTs =
      timeStampIsNewerThan s.newest.2 r.rootTs := hfiles
  unfold RootSearches.foundNewestRoot
  rw [RootSearch.newest_swapped hlimits]
  simp only [hts]
  simp only [RootSearches.swapped, SearchLabel.swapped, apply_ite TimeStamp.swapped]

/-- `io_read_root` takes the same step. -/
theorem ioReadRootStep_swapped (hsame : ∀ a b, r.Compares file a b → a.SameOrder b) :
    ioReadRootStep (file.map .swapped) r.swapped =
      Sum.map .swapped id (ioReadRootStep file r) := by
  have hselected := readSelectedRoot_swapped file r
  unfold ioReadRootStep
  rw [List.getElem?_map, hselected]
  have hi : r.swapped.i = r.i := rfl
  have hlabel : r.swapped.label = r.label.swapped := rfl
  rw [hi, hlabel]
  cases hfile : file[r.i]? with
  | none => rfl
  | some f =>
    simp only [Option.map_some]
    rw [f.searchStep_swapped fun s first direction mid p ts hlabel hne hpage hroot =>
      hsame ts s.leftTs (.mid hfile hlabel hne hpage hroot)]
    cases hstep : f.searchStep r.label with
    | inl label => rfl
    | inr found =>
      cases found with
      | found s =>
        simp only [Sum.map_inr, SearchEnd.swapped, Sum.map_inl]
        rw [RootSearches.foundNewestRoot_swapped
          (fun hvalid => hsame _ _ (.limits hfile hstep hvalid))
          (hsame _ _ (.files hfile hstep))]
      | noRoot => rfl
      | exit failure => rfl

/-- `io_read_root` reads the same root on the files of the other machine, and sets the
same cursors, if all the time stamps that it compares are in the same order with their
bytes swapped. -/
theorem io_readRoot_swapped
    (hsame : ∀ r, Reaches (ioReadRootStep file) .start r →
      ∀ a b, r.Compares file a b → a.SameOrder b) (fuel : Nat) :
    runSteps (ioReadRootStep (file.map .swapped)) fuel .start =
      runSteps (ioReadRootStep file) fuel .start := by
  have hstart : RootSearches.start.swapped = .start := by
    simp only [RootSearches.swapped, RootSearches.start, SearchLabel.swapped,
      TimeStamp.swapped_zero]
  have hrun := runSteps_map RootSearches.swapped id
    (fun r hr => ioReadRootStep_swapped (hsame r hr)) fuel
  rwa [hstart, Option.map_id] at hrun

end byteOrder

/-- The file and the page of the root that is read. -/
def selectedRoot (file : List RootFile) (fuel : Nat) : Option (Option (Nat × Nat)) :=
  (runSteps (ioReadRootStep file) fuel .start).map fun result =>
    result.toOption.map fun r => (r.rootFile, r.rootPage)

/-- Two files with four and two roots. -/
def sixRoots : List RootFile :=
  [⟨[rootWords 0 5, rootWords 0 6, rootWords 0 3, rootWords 0 4], 4⟩,
    ⟨[rootWords 0 1, rootWords 0 2], 2⟩]

/-- The root that is read is the newest one, also with swapped bytes. -/
theorem io_readRoot_swapped_six : selectedRoot sixRoots 20 = some (some (0, 1)) ∧
    selectedRoot (sixRoots.map .swapped) 20 = some (some (0, 1)) := by
  have hread : selectedRoot sixRoots 20 = some (some (0, 1)) := by decide +kernel
  have hall : holdsAlong (fun r => (r.compared sixRoots).all fun x => decide (x.1.SameOrder x.2))
      (ioReadRootStep sixRoots) 20 .start = true := by
    decide +kernel
  refine ⟨hread, ?_⟩
  rw [← hread, selectedRoot, selectedRoot, io_readRoot_swapped]
  intro r hreach a b hcompares
  exact of_decide_eq_true
    (List.all_eq_true.mp (hreach.of_holdsAlong hall) (a, b) hcompares.mem_compared)

/-- So many roots are written. -/
def rootsWritten : Nat → Io → Except IoFailure Io
  | 0, io => .ok io
  | n + 1, io => do rootsWritten n (← ioWriteRoot true io)

/-- A file of three pages. -/
def threePages : Io where
  file := [⟨List.replicate 3 ⟨.unknown, .other⟩, 0, 0⟩]
  fileCursor := 0
  numberOfFreeDiskPages := 0
  prevRoot := none
  timeStamp := ⟨0, 1⟩
  fixedRoot := .other

/-- What is in it after 256 roots. -/
def after256Roots : List RootFile := [⟨[rootWords 0 0x100, rootWords 0 0xFE, rootWords 0 0xFF], 3⟩]

/-- The newest root is on the first page, but the last one is read when the bytes are
swapped. -/
theorem io_readRoot_swapped_wrong :
    ((rootsWritten 256 (ioCreateFile true threePages)).toOption.map fun io =>
      io.file.map fun f => f.page.map DiskPage.block) =
        some (after256Roots.map fun f => f.words.map BlockWords.block) ∧
    selectedRoot after256Roots 20 = some (some (0, 0)) ∧
    selectedRoot (after256Roots.map .swapped) 20 = some (some (0, 2)) := by
  decide +kernel

end Shades
