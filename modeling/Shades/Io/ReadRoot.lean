import Mathlib.Data.Prod.Lex
import Shades.Halting
import Shades.Io.Code
import Shades.Shtring.Pack

/-!
# Shades.Io.ReadRoot

`io_read_root` with `OPTIMIZED_ROOT_LOCATION`, on whatever is on the disks.  The
files may be shorter than they are declared, a page may hold any words, and the
words may be those of a machine with the other byte order.

The magic cookies are recognised in both byte orders, so the search sees the same
kinds of pages.  It compares the time stamps as they were read, though: only the
root that it selects is swapped.  And a page with no cookie that it knows, where it
looks for a root in the middle of its range, is read again and again.
-/

namespace Shades

/-! ## the code -/

def rootMagicCookie : Nat := 0x50073A61

def pageMagicCookie : Nat := 0x4A6E3A61

def unusedPageCookie : Nat := 0xDEAD1541

/-- The words of the first block of a disk page. -/
structure BlockWords where
  word : Nat → Nat
  lt : ∀ i, word i < 2 ^ 32

/-- What `io_read_root` takes the words for.  The time stamp is the second and third
word of a root. -/
def BlockWords.block (root : BlockWords) : DiskBlock :=
  if root.word 0 = pageMagicCookie ∨ root.word 0 = swapBytes pageMagicCookie then .page
  else if root.word 0 = rootMagicCookie ∨ root.word 0 = swapBytes rootMagicCookie then
    .root ⟨root.word 1, root.word 2⟩
  else if root.word 0 = unusedPageCookie ∨ root.word 0 = swapBytes unusedPageCookie then .unused
  else .other

theorem swapBytes_lt {x : Nat} (hx : x < 2 ^ 32) : swapBytes x < 2 ^ 32 := by
  rw [swapBytes_eq hx]
  omega

/-- Every word with `SWAP_BYTES`. -/
def BlockWords.swapped (root : BlockWords) : BlockWords where
  word i := swapBytes (root.word i)
  lt i := swapBytes_lt (root.lt i)

/-- A file: what is on the disk, and the size that was declared. -/
structure RootFile where
  words : List BlockWords
  numberOfPages : Nat

/-- The pages, as the search reads them. -/
def RootFile.page (f : RootFile) : List DiskPage :=
  f.words.map fun root => ⟨.unknown, root.block⟩

/-- The labels of the search in one file, with the variables that are in use there. -/
inductive SearchLabel where
  | searchLeftmostRoot (leftPage : Nat)
  | leftOrRightPageChanged (s : RootSearch)
  | midPageChanged (s : RootSearch) (firstMidPage : Nat) (direction : Direction) (midPage : Nat)

/-- How the search in a file ends. -/
inductive SearchEnd where
  | found (s : RootSearch)
  | noRoot
  | exit (failure : IoFailure)

/-- From one label to the next. -/
def RootFile.searchStep (f : RootFile) : SearchLabel → SearchLabel ⊕ SearchEnd
  | .searchLeftmostRoot leftPage =>
    match f.page[leftPage]? with
    | none => .inr (.exit .read)
    | some ⟨_, .root ts⟩ =>
      .inl (.leftOrRightPageChanged ⟨leftPage, ts, f.numberOfPages, ⟨0, 0⟩, false, .rightward⟩)
    | some ⟨_, .unused⟩ => .inr .noRoot
    | some _ =>
      if leftPage + 1 = f.numberOfPages then .inr .noRoot
      else .inl (.searchLeftmostRoot (leftPage + 1))
  | .leftOrRightPageChanged s =>
    if s.leftPage = s.rightPage then .inr (.found s)
    else
      let midPage := (s.rightPage + s.leftPage) / 2
      .inl (.midPageChanged s midPage s.direction midPage)
  | .midPageChanged s firstMidPage direction midPage =>
    match readMidPage f.page s firstMidPage direction midPage with
    | .error failure => .inr (.exit failure)
    | .ok .found => .inr (.found s)
    | .ok (.scan direction midPage) => .inl (.midPageChanged s firstMidPage direction midPage)
    | .ok (.changed s) => .inl (.leftOrRightPageChanged s)

/-- The newest root of a file, as the search compares them. -/
def RootSearch.newest (s : RootSearch) : Nat × TimeStamp :=
  if s.rightPageIsValidRoot && timeStampIsNewerThan s.rightTs s.leftTs then
    (s.rightPage, s.rightTs)
  else (s.leftPage, s.leftTs)

/-- What `io_read_root` does next, in the file `i` and at a label, or done with the
files.  It keeps the cursors that are set, and the newest root of all. -/
structure RootSearches where
  i : Nat
  label : SearchLabel
  cursor : Nat → Option Nat
  rootFileAndPage : Option (Nat × Nat)
  rootTs : TimeStamp

/-- What `io_read_root` has read in the end. -/
structure ReadRoot where
  cursor : Nat → Option Nat
  rootFile : Nat
  rootPage : Nat
  root : BlockWords

/-- The label `found_newest_root_in_this_file`. -/
def RootSearches.foundNewestRoot (r : RootSearches) (s : RootSearch) : RootSearches :=
  let (page, ts) := s.newest
  { r with
    i := r.i + 1
    label := .searchLeftmostRoot 0
    cursor := Function.update r.cursor r.i (some page)
    rootFileAndPage :=
      if timeStampIsNewerThan ts r.rootTs then some (r.i, page) else r.rootFileAndPage
    rootTs := if timeStampIsNewerThan ts r.rootTs then ts else r.rootTs }

/-- The first block of a page. -/
def readBlock (file : List RootFile) (fileNumber pageNumber : Nat) : Option BlockWords :=
  file[fileNumber]?.bind fun f => f.words[pageNumber]?

/-- The root that was selected is read again. -/
def readSelectedRoot (file : List RootFile) (r : RootSearches) : Except IoFailure ReadRoot :=
  match r.rootFileAndPage with
  | none => .error .read
  | some (rootFile, rootPage) =>
    match readBlock file rootFile rootPage with
    | none => .error .read
    | some root =>
      let root := if root.word 0 = swapBytes rootMagicCookie then root.swapped else root
      if root.word 0 ≠ rootMagicCookie then .error .read
      else .ok ⟨r.cursor, rootFile, rootPage, root⟩

/-- A step of `io_read_root`. -/
def ioReadRootStep (file : List RootFile) (r : RootSearches) :
    RootSearches ⊕ Except IoFailure ReadRoot :=
  match file[r.i]? with
  | none => .inr (readSelectedRoot file r)
  | some f =>
    match f.searchStep r.label with
    | .inl label => .inl { r with label }
    | .inr (.found s) => .inl (r.foundNewestRoot s)
    | .inr .noRoot => .inl { r with i := r.i + 1, label := .searchLeftmostRoot 0 }
    | .inr (.exit failure) => .inr (.error failure)

/-- Where `io_read_root` starts. -/
def RootSearches.start : RootSearches := ⟨0, .searchLeftmostRoot 0, fun _ => none, none, ⟨0, 0⟩⟩

/-! ## where the search stops -/

/-- What `io_read_root` makes of a page in the middle of its range. -/
inductive ReadMidPage (s : RootSearch) (firstMidPage : Nat) :
    Direction → Nat → DiskBlock → MidPage → Prop
  | rightward {m : Nat} (hright : m + 1 ≠ s.rightPage) :
      ReadMidPage s firstMidPage .rightward m .page (.scan .rightward (m + 1))
  | turnLeft {m : Nat} (hright : m + 1 = s.rightPage) (hfirst : s.direction = .rightward)
      (hleft : firstMidPage - 1 ≠ s.leftPage) :
      ReadMidPage s firstMidPage .rightward m .page (.scan .leftward (firstMidPage - 1))
  | leftward {m : Nat} (hleft : m - 1 ≠ s.leftPage) :
      ReadMidPage s firstMidPage .leftward m .page (.scan .leftward (m - 1))
  | turnRight {m : Nat} (hleft : m - 1 = s.leftPage) (hfirst : s.direction = .leftward)
      (hright : firstMidPage + 1 ≠ s.rightPage) :
      ReadMidPage s firstMidPage .leftward m .page (.scan .rightward (firstMidPage + 1))
  | left {d : Direction} {m : Nat} {ts : TimeStamp} :
      ReadMidPage s firstMidPage d m (.root ts)
        (.changed { s with leftPage := m, leftTs := ts, direction := d.other })
  | right {d : Direction} {m : Nat} {ts : TimeStamp} :
      ReadMidPage s firstMidPage d m (.root ts) (.changed { s with
        rightPage := m, rightTs := ts, rightPageIsValidRoot := true, direction := d.other })
  | unused {d : Direction} {m : Nat} :
      ReadMidPage s firstMidPage d m .unused
        (.changed { s with rightPage := m, rightPageIsValidRoot := false, direction := d })
  | other {d : Direction} {m : Nat} :
      ReadMidPage s firstMidPage d m .other (.scan d m)

section search

variable {page : List DiskPage} {s : RootSearch} {firstMidPage midPage : Nat} {direction : Direction}
  {r : MidPage} {f : RootFile} {label label' : SearchLabel} {file : List RootFile}

theorem readMidPage_cases (h : readMidPage page s firstMidPage direction midPage = .ok r)
    (hfound : r ≠ .found) : midPage ≠ s.leftPage ∧ ∃ p, page[midPage]? = some p ∧
      ReadMidPage s firstMidPage direction midPage p.block r := by
  unfold readMidPage at h
  split at h
  · cases h
    exact absurd rfl hfound
  · next hne =>
    refine ⟨hne, ?_⟩
    split at h
    · cases h
    · next hpage =>
      refine ⟨_, hpage, ?_⟩
      cases direction with
      | rightward =>
        simp only at h
        split_ifs at h with hright hfirst hleft
        · cases h
          exact absurd rfl hfound
        · cases h
          exact absurd rfl hfound
        · cases h
          exact .turnLeft hright (not_not.mp hfirst) hleft
        · cases h
          exact .rightward hright
      | leftward =>
        simp only at h
        split_ifs at h with hleft hfirst hright
        · cases h
          exact absurd rfl hfound
        · cases h
          exact absurd rfl hfound
        · cases h
          exact .turnRight hleft (not_not.mp hfirst) hright
        · cases h
          exact .leftward hleft
    · next hpage =>
      refine ⟨_, hpage, ?_⟩
      split at h <;> cases h
      · exact .left
      · exact .right
    · next hpage =>
      cases h
      exact ⟨_, hpage, .unused⟩
    · next hpage =>
      cases h
      exact ⟨_, hpage, .other⟩

/-- There is neither a root nor an unused page before the page `n`. -/
def RootFile.NoRootBefore (f : RootFile) (n : Nat) : Prop :=
  ∀ i < n, ∀ p, f.page[i]? = some p → p.block = .page ∨ p.block = .other

/-- The limits are apart, and the middle page is between them.  In a file that was
declared to have no page the left limit may be a root all the same; then there is no
root before it, and the search goes rightwards to it. -/
def RootFile.Range (f : RootFile) : SearchLabel → Prop
  | .searchLeftmostRoot leftPage =>
    leftPage < f.numberOfPages ∨ f.numberOfPages = 0 ∧ f.NoRootBefore leftPage
  | .leftOrRightPageChanged s => s.rightPage ≤ f.numberOfPages ∧
    (s.leftPage ≤ s.rightPage ∨
      s.rightPage = 0 ∧ s.direction = .rightward ∧ f.NoRootBefore s.leftPage)
  | .midPageChanged s firstMidPage direction midPage => s.rightPage ≤ f.numberOfPages ∧
    ((s.leftPage ≤ midPage ∧ midPage < s.rightPage ∧ s.leftPage ≤ firstMidPage ∧
        firstMidPage < s.rightPage ∧ (firstMidPage = s.leftPage → midPage = s.leftPage)) ∨
      s.rightPage = 0 ∧ direction = .rightward ∧ midPage ≤ s.leftPage ∧
        f.NoRootBefore s.leftPage)

/-- How far the search still has to go in its direction. -/
def RootFile.distance (f : RootFile) (midPage : Nat) : Direction → Nat
  | .rightward => f.words.length - midPage
  | .leftward => midPage

/-- The size of the range, and how far the search in it has come. -/
def RootFile.remaining (f : RootFile) : SearchLabel → Nat ×ₗ Nat
  | .searchLeftmostRoot leftPage => toLex (f.numberOfPages + 1, f.words.length - leftPage)
  | .leftOrRightPageChanged s => toLex (s.rightPage - s.leftPage,
    2 * (s.rightPage + s.leftPage + f.words.length) + 2)
  | .midPageChanged s firstMidPage direction midPage => toLex (s.rightPage - s.leftPage,
    (if direction = s.direction then firstMidPage + f.words.length + 1 else 0) +
      f.distance midPage direction)

theorem RootFile.length_page (f : RootFile) : f.page.length = f.words.length :=
  List.length_map _

/-- What follows a page that was read. -/
def MidPage.nextLabel (s : RootSearch) (firstMidPage : Nat) : MidPage → SearchLabel
  | .found => .leftOrRightPageChanged s
  | .scan direction midPage => .midPageChanged s firstMidPage direction midPage
  | .changed s => .leftOrRightPageChanged s

theorem searchStep_midPage
    (h : f.searchStep (.midPageChanged s firstMidPage direction midPage) = .inl label') :
    ∃ r, readMidPage f.page s firstMidPage direction midPage = .ok r ∧ r ≠ .found ∧
      label' = r.nextLabel s firstMidPage := by
  rw [RootFile.searchStep] at h
  split at h
  · cases h
  · cases h
  · next hread =>
    cases h
    exact ⟨_, hread, MidPage.noConfusion, rfl⟩
  · next hread =>
    cases h
    exact ⟨_, hread, MidPage.noConfusion, rfl⟩

theorem RootFile.searchLeftmostRoot_remaining {leftPage : Nat}
    (h : f.searchStep (.searchLeftmostRoot leftPage) = .inl label')
    (hrange : f.Range (.searchLeftmostRoot leftPage)) :
    f.Range label' ∧ f.remaining label' < f.remaining (.searchLeftmostRoot leftPage) := by
  rw [RootFile.searchStep] at h
  have hlength := f.length_page
  split at h
  · cases h
  · cases h
    refine ⟨⟨Nat.le_refl _, ?_⟩, ?_⟩
    · cases hrange with
      | inl hlt => exact .inl (Nat.le_of_lt hlt)
      | inr hnone => exact .inr ⟨hnone.1, rfl, hnone.2⟩
    · apply Prod.Lex.toLex_lt_toLex.mpr
      left
      simp only
      omega
  · cases h
  · next p hnotRoot hnotUnused hpage =>
    split at h
    · cases h
    · next hlast =>
      cases h
      obtain ⟨hlt, -⟩ := List.getElem?_eq_some_iff.mp hpage
      rw [hlength] at hlt
      constructor
      · cases hrange with
        | inl hlt => exact .inl (by omega)
        | inr hnone =>
          refine .inr ⟨hnone.1, fun i hi q hq => ?_⟩
          by_cases hi' : i < leftPage
          · exact hnone.2 i hi' q hq
          · obtain rfl : i = leftPage := by omega
            obtain rfl := Option.some.inj (hpage.symm.trans hq)
            obtain ⟨status, block⟩ := p
            cases block with
            | page => exact .inl rfl
            | other => exact .inr rfl
            | root ts => exact absurd rfl (hnotRoot status ts)
            | unused => exact absurd rfl (hnotUnused status)
      · apply Prod.Lex.toLex_lt_toLex.mpr
        right
        simp only [true_and]
        omega

theorem RootFile.leftOrRightPageChanged_remaining
    (h : f.searchStep (.leftOrRightPageChanged s) = .inl label')
    (hrange : f.Range (.leftOrRightPageChanged s)) :
    f.Range label' ∧ f.remaining label' < f.remaining (.leftOrRightPageChanged s) := by
  rw [RootFile.searchStep] at h
  split at h
  · cases h
  · next hne =>
    cases h
    obtain ⟨hsize, hrange⟩ := hrange
    refine ⟨⟨hsize, ?_⟩, ?_⟩
    · cases hrange with
      | inl hle =>
        left
        omega
      | inr hnone =>
        obtain ⟨hzero, hdirection, hbefore⟩ := hnone
        exact .inr ⟨hzero, hdirection, by omega, hbefore⟩
    · apply Prod.Lex.toLex_lt_toLex.mpr
      right
      simp only [if_true, true_and]
      unfold RootFile.distance
      split <;> omega

theorem RootFile.midPageChanged_remaining {p : DiskPage} (hne : midPage ≠ s.leftPage)
    (hpage : f.page[midPage]? = some p)
    (hread : ReadMidPage s firstMidPage direction midPage p.block r)
    (hrange : f.Range (.midPageChanged s firstMidPage direction midPage)) :
    p.block = .other ∨ f.Range (r.nextLabel s firstMidPage) ∧ f.remaining (r.nextLabel s firstMidPage) <
      f.remaining (.midPageChanged s firstMidPage direction midPage) := by
  obtain ⟨hsize, hrange⟩ := hrange
  obtain ⟨hlt, -⟩ := List.getElem?_eq_some_iff.mp hpage
  rw [f.length_page] at hlt
  cases hrange with
  | inr hnone =>
    obtain ⟨hzero, rfl, hle, hbefore⟩ := hnone
    have hblock := hbefore midPage (by omega) p hpage
    generalize p.block = block at hread hblock ⊢
    cases hread with
    | other => exact .inl rfl
    | rightward =>
      refine .inr ⟨⟨hsize, .inr ⟨hzero, rfl, by omega, hbefore⟩⟩, ?_⟩
      apply Prod.Lex.toLex_lt_toLex.mpr
      right
      simp only [true_and, RootFile.distance]
      omega
    | turnLeft hright => omega
    | left => simp at hblock
    | right => simp at hblock
    | unused => simp at hblock
  | inl hin =>
    generalize p.block = block at hread ⊢
    cases hread with
    | other => exact .inl rfl
    | rightward hright =>
      refine .inr ⟨⟨hsize, .inl (by omega)⟩, Prod.Lex.toLex_lt_toLex.mpr (.inr ⟨rfl, ?_⟩)⟩
      simp only [RootFile.distance]
      omega
    | leftward hleft =>
      refine .inr ⟨⟨hsize, .inl (by omega)⟩, Prod.Lex.toLex_lt_toLex.mpr (.inr ⟨rfl, ?_⟩)⟩
      simp only [RootFile.distance]
      omega
    | turnLeft hright hfirst hleft =>
      refine .inr ⟨⟨hsize, .inl (by omega)⟩, Prod.Lex.toLex_lt_toLex.mpr (.inr ⟨rfl, ?_⟩)⟩
      simp only [RootFile.distance, hfirst, if_true, reduceCtorEq, if_false]
      omega
    | turnRight hleft hfirst hright =>
      refine .inr ⟨⟨hsize, .inl (by omega)⟩, Prod.Lex.toLex_lt_toLex.mpr (.inr ⟨rfl, ?_⟩)⟩
      simp only [RootFile.distance, hfirst, if_true, reduceCtorEq, if_false]
      omega
    | left =>
      refine .inr ⟨⟨hsize, .inl (Nat.le_of_lt hin.2.1)⟩, Prod.Lex.toLex_lt_toLex.mpr (.inl ?_)⟩
      simp only
      omega
    | right =>
      refine .inr ⟨⟨?_, .inl hin.1⟩, Prod.Lex.toLex_lt_toLex.mpr (.inl ?_)⟩ <;> simp only <;> omega
    | unused =>
      refine .inr ⟨⟨?_, .inl hin.1⟩, Prod.Lex.toLex_lt_toLex.mpr (.inl ?_)⟩ <;> simp only <;> omega

/-- The search reads a page of another kind in the middle of its range. -/
def RootFile.AtOtherPage (f : RootFile) : SearchLabel → Prop
  | .midPageChanged s _ _ midPage =>
    midPage ≠ s.leftPage ∧ ∃ p, f.page[midPage]? = some p ∧ p.block = .other
  | _ => False

/-- Then it reads it again. -/
theorem RootFile.searchStep_of_atOtherPage (h : f.AtOtherPage label) :
    f.searchStep label = .inl label := by
  cases label with
  | searchLeftmostRoot leftPage => cases h
  | leftOrRightPageChanged s => cases h
  | midPageChanged s firstMidPage direction midPage =>
    obtain ⟨hne, ⟨status, block⟩, hpage, rfl⟩ := h
    rw [RootFile.searchStep]
    unfold readMidPage
    rw [if_neg hne, hpage]

/-- In every other step it comes nearer to its end. -/
theorem RootFile.searchStep_remaining (h : f.searchStep label = .inl label')
    (hrange : f.Range label) :
    f.AtOtherPage label ∨ f.Range label' ∧ f.remaining label' < f.remaining label := by
  cases label with
  | searchLeftmostRoot leftPage => exact .inr (f.searchLeftmostRoot_remaining h hrange)
  | leftOrRightPageChanged s => exact .inr (f.leftOrRightPageChanged_remaining h hrange)
  | midPageChanged s firstMidPage direction midPage =>
    obtain ⟨r, hr, hfound, rfl⟩ := searchStep_midPage h
    obtain ⟨hne, p, hpage, hread⟩ := readMidPage_cases hr hfound
    cases f.midPageChanged_remaining hne hpage hread hrange with
    | inl hother => exact .inl ⟨hne, p, hpage, hother⟩
    | inr hless => exact .inr hless

/-- The file that is searched, and its limits. -/
def RootSearches.Range (file : List RootFile) (r : RootSearches) : Prop :=
  ∀ f, file[r.i]? = some f → f.Range r.label

theorem RootFile.range_start (f : RootFile) : f.Range (.searchLeftmostRoot 0) := by
  cases Nat.eq_zero_or_pos f.numberOfPages with
  | inl hzero => exact .inr ⟨hzero, fun i hi => absurd hi (Nat.not_lt_zero i)⟩
  | inr hpos => exact .inl hpos

/-- The files that are left, and what is left of the search in this one. -/
def remainingFiles (file : List RootFile) (r : RootSearches) : Nat ×ₗ Nat ×ₗ Nat :=
  toLex (file.length - r.i, match file[r.i]? with
    | none => toLex (0, 0)
    | some f => f.remaining r.label)

/-- The page that is read next, in the middle of the range, is of another kind. -/
def RootSearches.AtOtherPage (file : List RootFile) (r : RootSearches) : Prop :=
  ∃ f, file[r.i]? = some f ∧ f.AtOtherPage r.label

theorem ioReadRootStep_of_atOtherPage {r : RootSearches} (h : r.AtOtherPage file) :
    ioReadRootStep file r = .inl r := by
  obtain ⟨f, hfile, hother⟩ := h
  unfold ioReadRootStep
  simp only [hfile, f.searchStep_of_atOtherPage hother]

theorem ioReadRootStep_remaining {r r' : RootSearches} (hrange : r.Range file)
    (h : ioReadRootStep file r = .inl r') :
    r.AtOtherPage file ∨ r'.Range file ∧ remainingFiles file r' < remainingFiles file r := by
  unfold ioReadRootStep at h
  cases hfile : file[r.i]? with
  | none =>
    rw [hfile] at h
    cases h
  | some f =>
    obtain ⟨hi, -⟩ := List.getElem?_eq_some_iff.mp hfile
    have hnext : ∀ r' : RootSearches, r'.i = r.i + 1 → r'.label = .searchLeftmostRoot 0 →
        r'.Range file ∧ remainingFiles file r' < remainingFiles file r := by
      intro r' hi' hlabel
      refine ⟨fun f _ => hlabel ▸ f.range_start, Prod.Lex.toLex_lt_toLex.mpr (.inl ?_)⟩
      simp only [hi']
      omega
    simp only [hfile] at h
    cases hstep : f.searchStep r.label with
    | inl label =>
      rw [hstep] at h
      cases h
      cases f.searchStep_remaining hstep (hrange f hfile) with
      | inl hother => exact .inl ⟨f, hfile, hother⟩
      | inr hless =>
        refine .inr ⟨fun g hg => ?_, Prod.Lex.toLex_lt_toLex.mpr (.inr ⟨rfl, ?_⟩)⟩
        · obtain rfl := Option.some.inj (hfile.symm.trans hg)
          exact hless.1
        · simp only [hfile]
          exact hless.2
    | inr found =>
      rw [hstep] at h
      cases found with
      | found s =>
        cases h
        exact .inr (hnext _ rfl rfl)
      | noRoot =>
        cases h
        exact .inr (hnext _ rfl rfl)
      | exit failure => cases h

/-- When `io_read_root` comes to an end, on whatever is on the disks: every page that it
reads in the middle of a range has a cookie that it knows. -/
theorem io_readRoot_stops (file : List RootFile) :
    Halts (ioReadRootStep file) .start ↔
      ∀ r, Reaches (ioReadRootStep file) .start r → ¬ r.AtOtherPage file :=
  halts_iff_not_stuck (remainingFiles file) (fun _ => ioReadRootStep_of_atOtherPage)
    (fun _ _ => ioReadRootStep_remaining) fun f _ => f.range_start

end search

/-- A root. -/
def rootWords (hi lo : Nat) : BlockWords where
  word
    | 0 => rootMagicCookie
    | 1 => hi % 2 ^ 32
    | 2 => lo % 2 ^ 32
    | _ => 0
  lt i := by
    split
    · decide
    · exact Nat.mod_lt _ (by decide)
    · exact Nat.mod_lt _ (by decide)
    · decide

/-- A root, and behind it a page of zeros. -/
def zeroBehindRoot : List RootFile := [⟨[rootWords 0 1, ⟨fun _ => 0, fun _ => by decide⟩], 2⟩]

theorem io_readRoot_stops_not : ¬ Halts (ioReadRootStep zeroBehindRoot) .start := by
  let s : RootSearch := ⟨0, ⟨0, 1⟩, 2, ⟨0, 0⟩, false, .rightward⟩
  let r (label : SearchLabel) : RootSearches := { RootSearches.start with label }
  have hleft : ioReadRootStep zeroBehindRoot .start = .inl (r (.leftOrRightPageChanged s)) := rfl
  have hmid : ioReadRootStep zeroBehindRoot (r (.leftOrRightPageChanged s)) =
    .inl (r (.midPageChanged s 1 .rightward 1)) := by
    simp [ioReadRootStep, RootFile.searchStep, zeroBehindRoot, RootSearches.start, r, s]
  rw [halts_iff_of_inl hleft, halts_iff_of_inl hmid]
  exact not_halts_of_stuck rfl

end Shades
