import Shades.Io.Code
import Shades.Rotated

/-!
# Shades.Io.Search

The search of `io_read_root` for the newest root in one file.  The pages that
were written come first, and the time stamps of the roots among them form a
rotated increasing sequence; then the bisection stops at the newest root.

A scan for a root near the middle page goes in one direction up to the limit of
the range and then, from the middle page, in the other.  It either meets a root
or an unused page, which makes the range smaller, or all pages within the range
hold data, and the left limit is the newest root.
-/

namespace Shades

variable {page : List DiskPage} {s s' : RootSearch} {i left mid fuel : Nat} {ts : TimeStamp}
variable {direction : Direction}

/-! ## what the search has read -/

/-- The block of a page. -/
def blockAt (page : List DiskPage) (i : Nat) : Option DiskBlock := (page[i]?).map DiskPage.block

/-- There is a root on the page. -/
def RootOn (page : List DiskPage) (i : Nat) (ts : TimeStamp) : Prop :=
  blockAt page i = some (.root ts)

/-- The limits of the range are roots that were read. -/
structure RootSearch.Read (page : List DiskPage) (s : RootSearch) : Prop where
  left : RootOn page s.leftPage s.leftTs
  right : s.rightPageIsValidRoot = true → RootOn page s.rightPage s.rightTs

theorem RootOn.lt (h : RootOn page i ts) : i < page.length := by
  unfold RootOn blockAt at h
  by_contra hge
  rw [List.getElem?_eq_none (Nat.le_of_not_lt hge)] at h
  cases h

theorem searchLeftmostRoot_root
    (h : searchLeftmostRoot page fuel left = .ok (some (i, ts))) : RootOn page i ts := by
  induction fuel generalizing left with
  | zero => cases h
  | succ fuel ih =>
    unfold searchLeftmostRoot at h
    split at h
    · cases h
    · next hpage =>
      obtain ⟨rfl, rfl⟩ := Prod.mk.inj (Option.some.inj (Except.ok.inj h))
      simp [RootOn, blockAt, hpage]
    · cases h
    · split at h
      · cases h
      · exact ih h

theorem readMidPage_root (h : readMidPage page s i direction mid = .ok (.changed s'))
    (hs : s.Read page) : s'.Read page := by
  unfold readMidPage at h
  split at h
  · cases h
  · split at h
    · cases h
    · split at h <;> split at h
      all_goals first | cases h | (split at h <;> first | cases h | (split at h <;> cases h))
    · next hpage =>
      split at h
      · obtain rfl := MidPage.changed.inj (Except.ok.inj h)
        exact ⟨by simp [RootOn, blockAt, hpage], hs.right⟩
      · obtain rfl := MidPage.changed.inj (Except.ok.inj h)
        exact ⟨hs.left, fun _ => by simp [RootOn, blockAt, hpage]⟩
    · obtain rfl := MidPage.changed.inj (Except.ok.inj h)
      exact ⟨hs.left, fun hvalid => by cases hvalid⟩
    · cases h

theorem scanForRoot_root (h : scanForRoot page s i fuel direction mid = .ok (some s'))
    (hs : s.Read page) : s'.Read page := by
  induction fuel generalizing direction mid with
  | zero => cases h
  | succ fuel ih =>
    unfold scanForRoot at h
    cases hread : readMidPage page s i direction mid with
    | error e => simp [hread, bind, Except.bind] at h
    | ok r =>
      simp only [hread, bind, Except.bind, pure, Except.pure] at h
      cases r with
      | found => cases h
      | scan direction mid => exact ih h
      | changed s'' =>
        obtain rfl := Option.some.inj (Except.ok.inj h)
        exact readMidPage_root hread hs

theorem searchRange_root (h : searchRange page fuel s = .ok s') (hs : s.Read page) :
    s'.Read page := by
  induction fuel generalizing s with
  | zero => cases h
  | succ fuel ih =>
    unfold searchRange at h
    split at h
    · exact Except.ok.inj h ▸ hs
    · cases hscan : scanForRoot page s ((s.rightPage + s.leftPage) / 2) (2 * page.length + 1)
          s.direction ((s.rightPage + s.leftPage) / 2) with
      | error e => simp [hscan, bind, Except.bind] at h
      | ok r =>
        simp only [hscan, bind, Except.bind, pure, Except.pure] at h
        cases r with
        | none => exact Except.ok.inj h ▸ hs
        | some s'' => exact ih h (scanForRoot_root hscan hs)

/-- The page that is found holds a root. -/
theorem searchFile_root (h : searchFile page = .ok (some (i, ts))) : RootOn page i ts := by
  unfold searchFile at h
  cases hleft : searchLeftmostRoot page (page.length + 1) 0 with
  | error e => simp [hleft, bind, Except.bind] at h
  | ok r =>
    simp only [hleft, bind, Except.bind, pure, Except.pure] at h
    cases r with
    | none => cases h
    | some p =>
      obtain ⟨leftPage, leftTs⟩ := p
      dsimp only at h
      cases hrange : searchRange page (page.length + 1)
          ⟨leftPage, leftTs, page.length, ⟨0, 0⟩, false, .rightward⟩ with
      | error e => simp [hrange] at h
      | ok s =>
        simp only [hrange] at h
        have hs := searchRange_root hrange ⟨searchLeftmostRoot_root hleft, fun hvalid => by
          cases hvalid⟩
        split at h
        · next hvalid =>
          obtain ⟨rfl, rfl⟩ := Prod.mk.inj (Option.some.inj (Except.ok.inj h))
          exact hs.right (Bool.and_eq_true_iff.mp hvalid).1
        · obtain ⟨rfl, rfl⟩ := Prod.mk.inj (Option.some.inj (Except.ok.inj h))
          exact hs.left

/-! ## time stamps -/

/-- Both halves are words. -/
def TimeStamp.Valid (ts : TimeStamp) : Prop := ts.hi < 2 ^ 32 ∧ ts.lo < 2 ^ 32

def TimeStamp.value (ts : TimeStamp) : Nat := ts.hi * 2 ^ 32 + ts.lo

theorem timeStampIsNewerThan_iff {a b : TimeStamp} (ha : a.Valid) (hb : b.Valid) :
    timeStampIsNewerThan a b = true ↔ b.value < a.value := by
  unfold timeStampIsNewerThan
  unfold TimeStamp.Valid at ha hb
  unfold TimeStamp.value
  split
  · simp only [true_iff]
    omega
  · split
    · simp only [Bool.false_eq_true, false_iff]
      omega
    · rw [decide_eq_true_iff]
      omega

/-- The value of the root on a page. -/
def rootValue (page : List DiskPage) (i : Nat) : Option Nat :=
  match blockAt page i with
  | some (.root ts) => some ts.value
  | _ => none

theorem RootOn.rootValue (h : RootOn page i ts) : rootValue page i = some ts.value := by
  unfold Shades.rootValue
  rw [h]

theorem exists_root {a : Nat} (h : rootValue page i = some a) :
    ∃ ts, RootOn page i ts ∧ ts.value = a := by
  unfold rootValue at h
  split at h
  · next ts hblock => exact ⟨ts, hblock, Option.some.inj h⟩
  · cases h

/-! ## the pages of a file -/

/-- The first `k` pages were written, the others were not used yet. -/
structure Written (page : List DiskPage) (k : Nat) : Prop where
  le : k ≤ page.length
  used : ∀ i < k, blockAt page i = some .page ∨ ∃ ts, ts.Valid ∧ RootOn page i ts
  unused : ∀ i, k ≤ i → i < page.length → blockAt page i = some .unused

section written

variable {k : Nat} (h : Written page k)
include h

theorem Written.root_lt (hroot : RootOn page i ts) : i < k := by
  by_contra hge
  have hunused := h.unused i (by omega) hroot.lt
  cases hroot.symm.trans hunused

theorem Written.valid (hroot : RootOn page i ts) : ts.Valid := by
  rcases h.used i (h.root_lt hroot) with hpage | ⟨ts', hvalid, hroot'⟩
  · cases hroot.symm.trans hpage
  · obtain ⟨rfl⟩ := Option.some.inj (hroot.symm.trans hroot')
    exact hvalid

theorem Written.unused_ge (hunused : blockAt page i = some .unused) : k ≤ i := by
  by_contra hlt
  rcases h.used i (by omega) with hpage | ⟨ts, -, hroot⟩
  · cases hunused.symm.trans hpage
  · cases hunused.symm.trans hroot

/-- The kinds of pages. -/
theorem Written.cases (hi : i < page.length) :
    blockAt page i = some .page ∨ (∃ ts, RootOn page i ts) ∨ blockAt page i = some .unused := by
  by_cases hk : i < k
  · exact (h.used i hk).imp_right fun ⟨ts, _, hroot⟩ => .inl ⟨ts, hroot⟩
  · exact .inr (.inr (h.unused i (by omega) hi))

/-- The leftmost root. -/
theorem searchLeftmostRoot_spec (fuel : Nat) (hleft : left < page.length)
    (hfuel : page.length ≤ left + fuel) (hbefore : ∀ j < left, ∀ ts, ¬ RootOn page j ts) :
    (searchLeftmostRoot page fuel left = .ok none ∧ ∀ j ts, ¬ RootOn page j ts) ∨
    ∃ i ts, searchLeftmostRoot page fuel left = .ok (some (i, ts)) ∧ RootOn page i ts ∧
      ∀ j < i, ∀ ts, ¬ RootOn page j ts := by
  induction fuel generalizing left with
  | zero => omega
  | succ fuel ih =>
    obtain ⟨p, hp⟩ : ∃ p, page[left]? = some p := ⟨_, List.getElem?_eq_getElem hleft⟩
    obtain ⟨status, block⟩ := p
    have hblock : blockAt page left = some block := by simp [blockAt, hp]
    unfold searchLeftmostRoot
    rw [hp]
    rcases h.cases hleft with hpage | ⟨ts, hroot⟩ | hunused
    · -- a data page
      obtain rfl : block = .page := Option.some.inj (hblock.symm.trans hpage)
      have hbefore' : ∀ j < left + 1, ∀ ts, ¬ RootOn page j ts := by
        intro j hj ts hroot
        by_cases hjl : j = left
        · subst hjl
          cases hroot.symm.trans hpage
        · exact hbefore j (by omega) ts hroot
      by_cases hend : left + 1 = page.length
      · refine .inl ⟨if_pos hend, fun j ts hroot => ?_⟩
        exact hbefore' j (hend ▸ hroot.lt) ts hroot
      · dsimp only
        rw [if_neg hend]
        exact ih (by omega) (by omega) hbefore'
    · obtain rfl : block = .root ts := Option.some.inj (hblock.symm.trans hroot)
      exact .inr ⟨left, ts, rfl, hroot, hbefore⟩
    · obtain rfl : block = .unused := Option.some.inj (hblock.symm.trans hunused)
      refine .inl ⟨rfl, fun j ts hroot => ?_⟩
      have hk := h.unused_ge hunused
      exact hbefore j (Nat.lt_of_lt_of_le (h.root_lt hroot) hk) ts hroot

end written

/-! ## the scan -/

/-- All pages within the range hold data. -/
def DataBetween (page : List DiskPage) (l r : Nat) : Prop :=
  ∀ i, l < i → i < r → blockAt page i = some .page

/-- A page within the range makes it smaller. -/
inductive RootSearch.Narrowed (page : List DiskPage) (s : RootSearch) : RootSearch → Prop
  | left {mid : Nat} {ts : TimeStamp} {direction : Direction} (hleft : s.leftPage < mid)
      (hright : mid < s.rightPage) (hroot : RootOn page mid ts)
      (hnewer : timeStampIsNewerThan ts s.leftTs = true) :
      s.Narrowed page { s with leftPage := mid, leftTs := ts, direction }
  | right {mid : Nat} {ts : TimeStamp} {direction : Direction} (hleft : s.leftPage < mid)
      (hright : mid < s.rightPage) (hroot : RootOn page mid ts)
      (holder : timeStampIsNewerThan ts s.leftTs = false) :
      s.Narrowed page { s with
        rightPage := mid, rightTs := ts, rightPageIsValidRoot := true, direction }
  | unused {mid : Nat} {direction : Direction} (hleft : s.leftPage < mid)
      (hright : mid < s.rightPage) (hunused : blockAt page mid = some .unused) :
      s.Narrowed page { s with rightPage := mid, rightPageIsValidRoot := false, direction }

/-- The pages that a scan has seen hold data: those between the first middle
page and this one and, in the second direction, also all on the other side. -/
def Scanned (page : List DiskPage) (s : RootSearch) (first : Nat) (direction : Direction)
    (mid : Nat) : Prop :=
  s.leftPage < mid ∧ mid < s.rightPage ∧
    match s.direction, direction with
    | .rightward, .rightward => first ≤ mid ∧ ∀ i, first ≤ i → i < mid → blockAt page i = some .page
    | .rightward, .leftward => mid < first ∧ DataBetween page mid s.rightPage
    | .leftward, .leftward => mid ≤ first ∧ ∀ i, mid < i → i ≤ first → blockAt page i = some .page
    | .leftward, .rightward => first < mid ∧ DataBetween page s.leftPage mid

/-- The number of pages that a scan may still read. -/
def pagesToScan (s : RootSearch) (first : Nat) (direction : Direction) (mid : Nat) : Nat :=
  match s.direction, direction with
  | .rightward, .rightward => (s.rightPage - mid) + (first - s.leftPage)
  | .rightward, .leftward => mid - s.leftPage
  | .leftward, .leftward => (mid - s.leftPage) + (s.rightPage - first)
  | .leftward, .rightward => s.rightPage - mid

/-- A data page: the scan goes on, turns round, or ends. -/
theorem readMidPage_data {first : Nat} (hscan : Scanned page s first direction mid)
    (hleft : s.leftPage < first) (hright : first < s.rightPage)
    (hdata : blockAt page mid = some .page) :
    (readMidPage page s first direction mid = .ok .found ∧
      DataBetween page s.leftPage s.rightPage) ∨
    ∃ direction' mid', readMidPage page s first direction mid = .ok (.scan direction' mid') ∧
      Scanned page s first direction' mid' ∧
      pagesToScan s first direction' mid' < pagesToScan s first direction mid := by
  obtain ⟨⟨status, block⟩, hpage, hblock⟩ := Option.map_eq_some_iff.mp hdata
  obtain rfl : block = .page := hblock
  obtain ⟨hl, hr, hseen⟩ := hscan
  unfold readMidPage
  rw [if_neg (by omega), hpage]
  unfold Scanned pagesToScan
  cases hdir : s.direction with
  | rightward =>
    cases direction with
    | rightward =>
      simp only [hdir] at hseen ⊢
      have hseen' : ∀ i, first ≤ i → i < mid + 1 → blockAt page i = some .page := by
        intro i hi hlt
        rcases Nat.lt_succ_iff_lt_or_eq.mp hlt with hlt | rfl
        · exact hseen.2 i hi hlt
        · exact hdata
      by_cases hend : mid + 1 = s.rightPage
      · rw [if_pos hend, if_neg (by simp)]
        by_cases hturn : first - 1 = s.leftPage
        · rw [if_pos hturn]
          exact .inl ⟨rfl, fun i hi hi' => hseen' i (by omega) (by omega)⟩
        · rw [if_neg hturn]
          exact .inr ⟨_, _, rfl, ⟨by omega, by omega, by omega, fun i hi hi' =>
            hseen' i (by omega) (by omega)⟩, by dsimp only; omega⟩
      · rw [if_neg hend]
        exact .inr ⟨_, _, rfl, ⟨by omega, by omega, by omega, hseen'⟩, by dsimp only; omega⟩
    | leftward =>
      simp only [hdir] at hseen ⊢
      have hseen' : ∀ i, mid ≤ i → i < s.rightPage → blockAt page i = some .page := by
        intro i hi hlt
        rcases Nat.eq_or_lt_of_le hi with rfl | hi
        · exact hdata
        · exact hseen.2 i hi hlt
      by_cases hend : mid - 1 = s.leftPage
      · rw [if_pos hend, if_pos (by simp)]
        exact .inl ⟨rfl, fun i hi hi' => hseen' i (by omega) hi'⟩
      · rw [if_neg hend]
        exact .inr ⟨_, _, rfl, ⟨by omega, by omega, by omega, fun i hi hi' =>
          hseen' i (by omega) hi'⟩, by dsimp only; omega⟩
  | leftward =>
    cases direction with
    | leftward =>
      simp only [hdir] at hseen ⊢
      have hseen' : ∀ i, mid ≤ i → i ≤ first → blockAt page i = some .page := by
        intro i hi hle
        rcases Nat.eq_or_lt_of_le hi with rfl | hi
        · exact hdata
        · exact hseen.2 i hi hle
      by_cases hend : mid - 1 = s.leftPage
      · rw [if_pos hend, if_neg (by simp)]
        by_cases hturn : first + 1 = s.rightPage
        · rw [if_pos hturn]
          exact .inl ⟨rfl, fun i hi hi' => hseen' i (by omega) (by omega)⟩
        · rw [if_neg hturn]
          exact .inr ⟨_, _, rfl, ⟨by omega, by omega, by omega, fun i hi hi' =>
            hseen' i (by omega) (by omega)⟩, by dsimp only; omega⟩
      · rw [if_neg hend]
        exact .inr ⟨_, _, rfl, ⟨by omega, by omega, by omega, fun i hi hi' =>
          hseen' i (by omega) hi'⟩, by dsimp only; omega⟩
    | rightward =>
      simp only [hdir] at hseen ⊢
      have hseen' : ∀ i, s.leftPage < i → i < mid + 1 → blockAt page i = some .page := by
        intro i hi hlt
        rcases Nat.lt_succ_iff_lt_or_eq.mp hlt with hlt | rfl
        · exact hseen.2 i hi hlt
        · exact hdata
      by_cases hend : mid + 1 = s.rightPage
      · rw [if_pos hend, if_pos (by simp)]
        exact .inl ⟨rfl, fun i hi hi' => hseen' i hi (by omega)⟩
      · rw [if_neg hend]
        exact .inr ⟨_, _, rfl, ⟨by omega, by omega, by omega, hseen'⟩, by dsimp only; omega⟩

/-- A page without data makes the range smaller. -/
theorem readMidPage_narrowed (first : Nat) (direction : Direction) (hl : s.leftPage < mid)
    (hr : mid < s.rightPage) (hblock : (∃ ts, RootOn page mid ts) ∨ blockAt page mid = some .unused) :
    ∃ s', readMidPage page s first direction mid = .ok (.changed s') ∧ s.Narrowed page s' := by
  rcases hblock with ⟨ts, hroot⟩ | hunused
  · obtain ⟨⟨status, block⟩, hpage, hblock⟩ := Option.map_eq_some_iff.mp hroot
    obtain rfl : block = .root ts := hblock
    unfold readMidPage
    rw [if_neg (by omega), hpage]
    dsimp only
    cases hnewer : timeStampIsNewerThan ts s.leftTs with
    | true => exact ⟨_, if_pos rfl, .left hl hr hroot hnewer⟩
    | false => exact ⟨_, if_neg (by simp), .right hl hr hroot hnewer⟩
  · obtain ⟨⟨status, block⟩, hpage, hblock⟩ := Option.map_eq_some_iff.mp hunused
    obtain rfl : block = .unused := hblock
    unfold readMidPage
    rw [if_neg (by omega), hpage]
    exact ⟨_, rfl, .unused hl hr hunused⟩

/-- The scan finds a page without data, if there is one within the range. -/
theorem scanForRoot_spec {first k : Nat} (h : Written page k) (hle : s.rightPage ≤ page.length)
    (hleft : s.leftPage < first) (hright : first < s.rightPage)
    (hscan : Scanned page s first direction mid)
    (hfuel : pagesToScan s first direction mid < fuel) :
    (scanForRoot page s first fuel direction mid = .ok none ∧
      DataBetween page s.leftPage s.rightPage) ∨
    ∃ s', scanForRoot page s first fuel direction mid = .ok (some s') ∧ s.Narrowed page s' := by
  induction fuel generalizing direction mid with
  | zero => omega
  | succ fuel ih =>
    have hl := hscan.1
    have hr := hscan.2.1
    rcases h.cases (Nat.lt_of_lt_of_le hr hle) with hdata | hblock
    · rcases readMidPage_data hscan hleft hright hdata with ⟨hread, hbetween⟩ |
        ⟨direction', mid', hread, hscan', hless⟩
      · exact .inl ⟨by simp [scanForRoot, hread, bind, Except.bind, pure, Except.pure], hbetween⟩
      · have hgo : scanForRoot page s first (fuel + 1) direction mid =
            scanForRoot page s first fuel direction' mid' := by
          simp [scanForRoot, hread, bind, Except.bind]
        rw [hgo]
        exact ih hscan' (by omega)
    · obtain ⟨s', hread, hnarrow⟩ := readMidPage_narrowed first direction hl hr hblock
      exact .inr ⟨s', by simp [scanForRoot, hread, bind, Except.bind, pure, Except.pure], hnarrow⟩

/-! ## the search -/

open Rotated

/-- The newest root, on the page `p`, lies within the range. -/
structure RootSearch.Holds (page : List DiskPage) (p : Nat) (s : RootSearch) : Prop where
  left_le : s.leftPage ≤ p
  lt_right : p < s.rightPage
  right_le : s.rightPage ≤ page.length
  read : s.Read page
  older : s.rightPageIsValidRoot = true → timeStampIsNewerThan s.rightTs s.leftTs = false

section search

variable {c k p d : Nat} (h : Written page k) (hrot : From (rootValue page) c)
  (hp : Greatest (rootValue page) p d)
include h hrot hp

/-- The newest root stays within the range. -/
theorem RootSearch.Holds.narrowed (hs : s.Holds page p) (hnarrow : s.Narrowed page s') :
    s'.Holds page p ∧ s'.rightPage - s'.leftPage < s.rightPage - s.leftPage := by
  obtain ⟨hle, hlt, hlen, hread, holder⟩ := hs
  have hleft := hread.left.rootValue
  cases hnarrow with
  | @left mid ts direction hl hr hroot hnewer =>
    have hvalid := h.valid hroot
    have hvalid' := h.valid hread.left
    have hgreater := (timeStampIsNewerThan_iff hvalid hvalid').mp hnewer
    refine ⟨⟨hrot.le_of_greater hp hleft hroot.rootValue hl hle hgreater, hlt, hlen,
      ⟨hroot, hread.right⟩, fun hright => ?_⟩, by dsimp only; omega⟩
    have hold := holder hright
    have hvalid'' := h.valid (hread.right hright)
    rw [Bool.eq_false_iff, ne_eq, timeStampIsNewerThan_iff hvalid'' hvalid'] at hold
    rw [Bool.eq_false_iff, ne_eq, timeStampIsNewerThan_iff hvalid'' hvalid]
    omega
  | @right mid ts direction hl hr hroot hnewer =>
    have hgreater : ¬ s.leftTs.value < ts.value := by
      rw [← timeStampIsNewerThan_iff (h.valid hroot) (h.valid hread.left), hnewer]
      decide
    exact ⟨⟨hle, hrot.lt_of_not_greater hp hleft hroot.rootValue hl hle hgreater, by
      dsimp only; omega, ⟨hread.left, fun _ => hroot⟩, fun _ => hnewer⟩, by dsimp only; omega⟩
  | @unused mid direction hl hr hunused =>
    obtain ⟨ts, hroot, -⟩ := exists_root hp.1
    have hk := h.unused_ge hunused
    have hpk := h.root_lt hroot
    exact ⟨⟨hle, by dsimp only; omega, by dsimp only; omega, ⟨hread.left, fun hright => by
      cases hright⟩, fun hright => by cases hright⟩, by dsimp only; omega⟩

/-- The bisection ends at the newest root. -/
theorem searchRange_spec (fuel : Nat) (hs : s.Holds page p)
    (hfuel : s.rightPage - s.leftPage < fuel) :
    ∃ s', searchRange page fuel s = .ok s' ∧ s'.leftPage = p ∧ s'.Holds page p := by
  induction fuel generalizing s with
  | zero => omega
  | succ fuel ih =>
    have hle := hs.left_le
    have hlt := hs.lt_right
    have hlen := hs.right_le
    obtain ⟨mid, hmid⟩ : ∃ mid, mid = (s.rightPage + s.leftPage) / 2 := ⟨_, rfl⟩
    have hscan : (scanForRoot page s mid (2 * page.length + 1) s.direction mid = .ok none ∧
        DataBetween page s.leftPage s.rightPage) ∨
        ∃ s', scanForRoot page s mid (2 * page.length + 1) s.direction mid = .ok (some s') ∧
          s.Narrowed page s' := by
      by_cases hnext : mid = s.leftPage
      · refine .inl ⟨?_, fun i hi hi' => by omega⟩
        unfold scanForRoot readMidPage
        rw [if_pos hnext]
        rfl
      · refine scanForRoot_spec h hlen (by omega) (by omega) ⟨by omega, by omega, ?_⟩ ?_
        · cases s.direction with
          | rightward => exact ⟨Nat.le_refl mid, fun i hi hi' => by omega⟩
          | leftward => exact ⟨Nat.le_refl mid, fun i hi hi' => by omega⟩
        · unfold pagesToScan
          cases s.direction <;> (dsimp only; omega)
    unfold searchRange
    rw [if_neg (by omega), ← hmid]
    rcases hscan with ⟨hnone, hbetween⟩ | ⟨s', hsome, hnarrow⟩
    · -- nothing but data between the limits
      refine ⟨s, by simp [hnone, bind, Except.bind, pure, Except.pure], ?_, hs⟩
      by_contra hne
      obtain ⟨ts, hroot, -⟩ := exists_root hp.1
      have hdata := hbetween p (by omega) hlt
      cases hroot.symm.trans hdata
    · obtain ⟨hs', hless⟩ := hs.narrowed h hrot hp hnarrow
      obtain ⟨s'', hgo, hleft, hs''⟩ := ih hs' (by omega)
      exact ⟨s'', by simpa [hsome, bind, Except.bind] using hgo, hleft, hs''⟩

end search

/-- The search finds the newest root of a file, if there is a root. -/
theorem searchFile_spec {c k : Nat} (h : Written page k) (hrot : From (rootValue page) c)
    (hpos : 0 < page.length) :
    (searchFile page = .ok none ∧ ∀ i ts, ¬ RootOn page i ts) ∨
    ∃ p ts, searchFile page = .ok (some (p, ts)) ∧ RootOn page p ts ∧
      Greatest (rootValue page) p ts.value := by
  rcases searchLeftmostRoot_spec h (page.length + 1) hpos (by omega)
    (fun j hj => by omega) with ⟨hnone, hall⟩ | ⟨i, ts, hsome, hroot, hbefore⟩
  · exact .inl ⟨by simp [searchFile, hnone, bind, Except.bind, pure, Except.pure], hall⟩
  · have hbound : ∀ j a, rootValue page j = some a → j < page.length := by
      intro j a hj
      obtain ⟨ts', hroot', -⟩ := exists_root hj
      exact hroot'.lt
    obtain ⟨p, d, hp⟩ := exists_greatest hbound hroot.rootValue
    obtain ⟨ts', hroot', rfl⟩ := exists_root hp.1
    have hle : i ≤ p := by
      by_contra hlt
      exact hbefore p (by omega) ts' hroot'
    have hstart : RootSearch.Holds page p ⟨i, ts, page.length, ⟨0, 0⟩, false, .rightward⟩ :=
      ⟨hle, hroot'.lt, Nat.le_refl _, ⟨hroot, fun hright => by cases hright⟩,
        fun hright => by cases hright⟩
    obtain ⟨s, hgo, rfl, hs⟩ := searchRange_spec h hrot hp (page.length + 1) hstart
      (by dsimp only; omega)
    have hleft := hs.read.left
    obtain rfl : s.leftTs = ts' := by
      obtain ⟨rfl⟩ := Option.some.inj (hleft.symm.trans hroot')
      rfl
    have hold : ¬ ((s.rightPageIsValidRoot && timeStampIsNewerThan s.rightTs s.leftTs) = true) := by
      rw [Bool.and_eq_true_iff]
      rintro ⟨hright, hnewer⟩
      rw [hs.older hright] at hnewer
      cases hnewer
    refine .inr ⟨s.leftPage, s.leftTs, ?_, hleft, hp⟩
    simp only [searchFile, hsome, hgo, bind, Except.bind, pure, Except.pure, if_neg hold]

end Shades
