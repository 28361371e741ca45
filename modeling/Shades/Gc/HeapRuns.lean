import Shades.Moved
import Shades.Gc.Flush

/-!
# Shades.Gc.HeapRuns

The memory in every run.

A run begins with a new database.  Between commits a program allocates cells in the first
generation, writes to them and to the root set; cells in pages it only reads.  So between
commits, however many there are and however far a mature collection has come, the pages are
full of well formed cells, there are no references to younger generations, and the
remembered sets are exact.
-/

namespace Shades

namespace Heap

variable {params : HeapParams} {s t u : Heap} {cells : Nat → List Nat}
  {ages pre marked post : List Nat} {move : Nat → Nat} {p a b gn : Nat}

/-! ## programs -/

/-- What the root set leads to. -/
def Reachable (params : HeapParams) (s : Heap) (p : Nat) : Prop :=
  (cellGraph s.words fun _ => True).Reached (s.liveRoots params) p

/-- What a program may do between commits.  In the end the cells of the first generation are as
they are declared, and the references to pages that there are in them and in the root set are
such as could be found. -/
structure Mutated (params : HeapParams) (s t : Heap) : Prop where
  gens : t.gens = s.gens
  remSets : t.remSets = s.remSets
  words : ∀ a < params.firstGenerationEnd, t.words a = s.words a
  allocated : t.allocationPtr ≤ s.allocationPtr
  list : t.words (params.rootSlot .generationPinfoList) =
    s.words (params.rootSlot .generationPinfoList)
  first : FirstSound params t (fun p => p < params.firstGenerationEnd ∧ Reachable params s p)
    (fun p => p < params.firstGenerationEnd ∧ Reachable params s p)

inductive HeapRun (params : HeapParams) : Heap → Prop
  | created {isAllocated : Nat → Bool} {generation words : Nat → Nat} {group : HeapGroup}
      {s t : Heap} (hinit : initShades params isAllocated generation words = .ok s)
      (hcreate : s.createDb params group = .ok t) : HeapRun params t
  | mutated {s t : Heap} (hrun : HeapRun params s) (hmutated : Mutated params s t) :
      HeapRun params t
  | flushed {s t : Heap} {group : HeapGroup} (hrun : HeapRun params s)
      (hflush : s.flushBatch params group = .ok t) : HeapRun params t

/-! ## the invariant -/

theorem Reachable.root (hb : b ∈ s.liveRoots params) : Reachable params s (wordToPtr (s.words b)) :=
  EdgeGraph.Reached.root hb (cellGraph_target.mpr ⟨trivial, rfl⟩)

theorem Reachable.edge (hp : Reachable params s p) (hb : b ∈ slots s.words p) :
    Reachable params s (wordToPtr (s.words b)) :=
  EdgeGraph.Reached.edge hp hb (cellGraph_target.mpr ⟨trivial, rfl⟩)

theorem Reachable.induct {P : Nat → Prop} (hp : Reachable params s p)
    (root : ∀ b ∈ s.liveRoots params, P (wordToPtr (s.words b)))
    (edge : ∀ {p}, Reachable params s p → P p → ∀ b ∈ slots s.words p, P (wordToPtr (s.words b))) :
    P p := by
  induction hp with
  | root hb ha =>
    obtain ⟨-, rfl⟩ := cellGraph_target.mp ha
    exact root _ hb
  | edge hp hb ha ih =>
    obtain ⟨-, rfl⟩ := cellGraph_target.mp ha
    exact edge hp ih _ hb

theorem HeapReady.reachable (h : HeapReady params s cells pre marked post)
    (hp : Reachable params s p) :
    HeapCell params s cells (Generations.phaseAges [] pre marked post) p := by
  refine hp.induct (fun b hb => (h.first.root_target hb).imp_right And.right)
    fun {p} _ hp b hb => ?_
  rcases hp with hp | hp
  · exact (h.first.target hp hb).imp_right And.right
  · exact .inr (h.steady.mature.closed (List.nil_append _).symm hp hb)

/-- What can be found below the first generation is in a page. -/
theorem HeapReady.reachable_page (h : HeapReady params s cells pre marked post)
    (hlt : p < params.firstGenerationEnd) (hp : Reachable params s p) :
    p ∈ s.cellsIn cells (Generations.phaseAges [] pre marked post) :=
  (h.reachable hp).resolve_left fun hfirst =>
    Nat.not_lt.mpr (h.first.allocated.trans hfirst.ge) hlt

theorem HeapReady.mutated (h : HeapReady params s cells pre marked post)
    (ht : Mutated params s t) : HeapReady params t cells pre marked post := by
  have hcells : t.cellsIn cells = s.cellsIn cells := by
    funext gns
    unfold cellsIn
    rw [ht.gens]
  exact {
    steady := h.steady.congr (ht.gens ▸ h.steady.gens) (by rw [ht.gens]) (by rw [ht.gens])
      (fun _ _ => by rw [ht.gens]) ht.words ht.remSets
    first := by
      rw [hcells]
      exact ht.first.mono (fun hp => h.reachable_page hp.1 hp.2)
        fun hp => h.reachable_page hp.1 hp.2
    allocated := ht.allocated.trans h.allocated
    list := by
      rw [ht.list]
      exact fun hne => ht.allocated.trans (h.list hne) }

/-- There are neither generations nor cells. -/
structure NewDatabase (params : HeapParams) (s : Heap) : Prop where
  gens : Generations.Steady params.numberOfPages True s.gens [] [] [] []
  youngestGn : s.gens.youngestGn = invalidGenerationNumber
  recovering : s.gens.isRecovering = false
  root : ∀ i < numberOfRootIxs, s.words (params.root + i) = initRoot i
  allocationPtr : s.allocationPtr = params.firstGenerationStart
  remSets : ∀ gn, s.remSets gn = []
  smartPtrs : s.smartPtrs = []

theorem newDatabase_of_createDb {isAllocated : Nat → Bool} {generation words : Nat → Nat}
    {group : HeapGroup} (hinit : initShades params isAllocated generation words = .ok s)
    (hcreate : s.createDb params group = .ok t) : NewDatabase params t := by
  unfold Heap.initShades at hinit
  split at hinit
  case h_1 => cases hinit
  case h_2 g₀ hinit₀ =>
    obtain rfl := Except.ok.inj hinit
    have hfresh := (Generations.initShades_spec isAllocated generation).of_ok hinit₀
    obtain ⟨g, hrun, hsteady, hyoungest, hrecovering, -⟩ :=
      hfresh.freeAllPages (fun _ : True => hfresh.isRecovering) g₀.rvyDiskPage
    unfold createDb withGens at hcreate
    dsimp only at hcreate hrun
    rw [hrun] at hcreate
    -- nothing has been allocated, so the commit does nothing
    obtain ⟨u, hgens, hflush⟩ := exists_of_bind_eq_ok hcreate
    obtain rfl := Except.ok.inj hgens
    rw [flushBatch, if_pos rfl] at hflush
    obtain rfl := Except.ok.inj hflush
    refine ⟨hsteady, hyoungest, hrecovering.trans hfresh.isRecovering, fun i hi => ?_, rfl,
      fun _ => rfl, rfl⟩
    dsimp only
    rw [if_pos ⟨Nat.le_add_right _ _, Nat.add_lt_add_left hi _⟩, Nat.add_sub_cancel_left]

namespace NewDatabase

variable (h : NewDatabase params s)
include h

theorem root_ptr {i : Nat} (hi : i < numberOfRootIxs) (hptr : rootIxIsPtr i = true) :
    s.words (params.root + i) = nullWord := by
  rw [h.root i hi, initRoot, Option.isNone_iff_eq_none.mp hptr]
  rfl

theorem accuIsPtr : s.accuIsPtr params = false := by
  unfold Heap.accuIsPtr
  rw [HeapParams.rootSlot, h.root _ (RootIx.ix_lt _),
    show wordTypeOf (initRoot RootIx.suspendedAccuType.ix) = some .word from rfl]

/-- Nothing can be reached. -/
theorem liveRoots : s.liveRoots params = [] := by
  rw [List.eq_nil_iff_forall_not_mem]
  intro b hb
  obtain ⟨hslot, hne⟩ := mem_liveRoots.mp hb
  rcases mem_rootSlots.mp hslot with ⟨haccu, -⟩ | hmem | hmem
  · simp [h.accuIsPtr] at haccu
  · obtain ⟨i, hi, hptr, rfl⟩ := mem_rootPtrSlots.mp hmem
    exact hne (h.root_ptr hi hptr)
  · simp [h.smartPtrs] at hmem

theorem ready : HeapReady params s (fun _ => []) [] [] [] := by
  obtain ⟨_, _, hsound⟩ := h.gens.sound
  have hnone : ∀ gns, s.cellsIn (fun _ => []) gns = [] := fun gns => by simp [cellsIn]
  exact {
    steady := {
      gens := h.gens
      youngestGn := h.youngestGn
      recovering := h.recovering
      mature := {
        gens := ⟨_, _, _, hsound⟩
        live := by simp [Generations.phaseAges]
        page := by simp [Generations.phaseAges]
        ok := by simp [hnone]
        declared := by simp [hnone]
        closed := by simp [hnone]
        fits := by simp [Generations.phaseAges] }
      remembered := {
        nodup := by simp [h.remSets]
        mem := by simp
        none := by simp [h.remSets] } }
    first := (FirstSound.of_closed (F := fun _ => False) (h.allocationPtr ▸ Nat.le_add_right _ _)
      (h.smartPtrs ▸ smartPtrsOk_nil) (by simp [h.liveRoots]) False.elim False.elim False.elim
      False.elim False.elim).1
    allocated := Nat.le_of_eq h.allocationPtr
    list := fun hne => absurd (h.root_ptr (RootIx.ix_lt .generationPinfoList) rfl) hne }

end NewDatabase

theorem HeapRun.sound (h : HeapRun params s) :
    ∃ cells pre marked post, HeapReady params s cells pre marked post := by
  induction h with
  | created hinit hcreate => exact ⟨_, _, _, _, (newDatabase_of_createDb hinit hcreate).ready⟩
  | mutated _ hmutated ih =>
    obtain ⟨_, _, _, _, hready⟩ := ih
    exact ⟨_, _, _, _, hready.mutated hmutated⟩
  | flushed _ hflush ih =>
    obtain ⟨_, _, _, _, hready⟩ := ih
    exact ((hready.flushBatch _).of_ok hflush).1

/-! ## commits -/

/-- What can be found is in the first generation or in a page that has not been given back. -/
theorem HeapReady.found (h : HeapReady params s cells pre marked post)
    (hp : Reachable params s p) : FirstCell params s p ∨
      s.gens.pageIsAllocated (params.ptrToPageNumber p) ∧
        ∃ gn, (s.gens.status gn).IsLive ∧ params.ptrToPageNumber p ∈ s.gens.page gn := by
  have hm := h.steady.mature
  rcases h.reachable hp with hfirst | hmem
  · exact .inl hfirst
  · obtain ⟨gn, hgn, pn, hpn, hcell⟩ := mem_cellsIn.mp hmem
    obtain ⟨_, _, _, hsound⟩ := hm.gens
    rw [hm.pageNumber hgn hpn hcell (hm.self_inside hmem)]
    exact .inr ⟨(hsound.pages.allocated trivial (hm.live gn hgn) hpn).1, gn, hm.live gn hgn, hpn⟩

/-- Whatever programs have done and however far a mature collection has come, a commit keeps what
a program holds and moves it to pages.  In the first generation there are only the descriptions
that it has written.  It fails only if there is no memory or no room for the
description of a generation, or if a cell that the program has made must not be copied. -/
theorem heapRun_flushBatch (h : HeapRun params s) (group : HeapGroup) :
    Ends (s.flushBatch params group)
      (fun t => Committed params t ∧ (∃ move, Kept params s t move) ∧
        ∀ p, Reachable params t p →
          params.firstGenerationEnd ≤ p ∧ cellTypeOf (t.words p) = some .generationPinfo ∨
          t.gens.pageIsAllocated (params.ptrToPageNumber p) ∧
            ∃ gn, (t.gens.status gn).IsLive ∧ params.ptrToPageNumber p ∈ t.gens.page gn)
      (HeapFailure.Excused (∃ p, FirstCell params s p ∧ Decl.abort ∈ cellDecls s.words p)) := by
  obtain ⟨_, _, _, _, hready⟩ := h.sound
  refine (hready.flushBatch group).imp ?_
  rintro t ⟨⟨_, _, _, _, hready'⟩, hcommitted, hkept⟩
  refine ⟨hcommitted, hkept, fun p hp => (hready'.found hp).imp_left fun hfirst => ?_⟩
  exact ⟨hready'.first.allocated.trans hfirst.ge, hcommitted.pinfos p hfirst⟩

/-! ## the first generation -/

/-- The cells of the first generation that can be reached have become the youngest generation.
Where they were is listed for each of its pages. -/
structure Promoted (params : HeapParams) (s t : Heap) (move : Nat → Nat) (olds : Nat → List Nat) :
    Prop where
  new : s.gens.status t.gens.youngestGn = .nonexistent ∧ t.gens.status t.gens.youngestGn = .normal
  nodup : ((t.gens.page t.gens.youngestGn).flatMap olds).Nodup
  mem : ∀ p, p ∈ (t.gens.page t.gens.youngestGn).flatMap olds ↔
    Reachable params s p ∧ params.firstGenerationEnd ≤ p
  page : ∀ pn ∈ t.gens.page t.gens.youngestGn, ∃ used ≤ params.wordsPerPage,
    t.words (params.pageNumberToPagePtr pn + 1) = used ∧
      Tiled move (cellGetNumberOfWords s.words) (params.pageNumberToPagePtr pn + 2) (olds pn)
        (params.pageNumberToPagePtr pn + used)
  preserved : Preserved move s.words t.words (Reachable params s)
  roots : RootsMoved params s t move
  stay : ∀ p, Reachable params s p → p < params.firstGenerationEnd → move p = p
  nowhere : ∀ p, Reachable params t p → p < params.firstGenerationEnd

theorem FirstCell.reachable (hp : FirstCell params s p) : Reachable params s p := by
  induction hp with
  | root hb ha =>
    obtain ⟨-, rfl⟩ := cellGraph_target.mp ha
    exact .root hb
  | edge _ hb ha ih =>
    obtain ⟨-, rfl⟩ := cellGraph_target.mp ha
    exact ih.edge hb

theorem FirstCollected.promoted {c : CopyState}
    (h : FirstCollected params s cells pre marked post u c t)
    (hready : HeapReady params s cells pre marked post) :
    Promoted params s t c.move c.olds := by
  obtain ⟨_, _, hsound⟩ := hready.steady.gens.sound
  have hlive := hsound.ages.live
  have hyoungest : t.gens.youngestGn = t.gens.toGn := h.steady.youngestGn
  have hto : t.gens.toGn = u.gens.toGn := h.collected.course.toGn
  have hcells : u.cellsIn cells _ = s.cellsIn cells _ := h.prepared.cellsIn_eq hlive
  have hpreserved := h.preserved hlive
  have hmoved := h.rootsMoved hready.first hlive fun hp => hp
  refine {
    new := ?_
    nodup := ?_
    mem := fun p => ?_
    page := ?_
    preserved := hpreserved.mono hready.reachable fun hp hb => hp.edge hb
    roots := hmoved
    stay := fun p hp hlt => ?_
    nowhere := fun p hp => ?_ }
  · rw [hyoungest, hto, h.collected.status]
    exact ⟨h.prepared.free, h.prepared.normal⟩
  · rw [hyoungest]
    exact h.collected.olds.nodup_iff.mpr h.collected.nodup
  · rw [hyoungest, h.collected.olds.mem_iff, h.replacing.visited_iff h.collected]
    refine ⟨fun hp => ⟨hp.reachable, hready.first.allocated.trans hp.ge⟩, ?_⟩
    rintro ⟨hp, hle⟩
    refine (hready.reachable hp).resolve_right fun hmem => ?_
    exact Nat.not_lt.mpr hle
      (hready.steady.mature.lt_end hmem (hready.steady.mature.self_inside hmem))
  · rw [hyoungest, ← h.prepared.words]
    exact fun _ hpn => h.collected.page hpn
  · refine h.replacing.move_self h.collected ?_
    rw [List.nil_append, hcells]
    exact hready.reachable_page hlt hp
  · -- what can be reached now is what could be reached, where it has gone
    have hafter : ∀ {q}, HeapCell params s cells (Generations.phaseAges [] pre marked post) q →
        c.move q ∈ t.cellsIn (cellsAfter cells c t)
          (Generations.phaseAges [] (t.gens.toGn :: pre) marked post) := by
      intro q hq
      refine (h.replacing.mem_iff h.collected).mpr ⟨q, ?_, rfl⟩
      rw [Replacing.Live, List.nil_append, hcells]
      exact hq
    have hm := h.steady.mature
    have hmem : p ∈ t.cellsIn (cellsAfter cells c t)
        (Generations.phaseAges [] (t.gens.toGn :: pre) marked post) := by
      refine hp.induct (fun b hb => ?_) fun {p} _ hp b hb =>
        hm.closed (List.nil_append _).symm hp hb
      have hold := hmoved.mem_liveRoots hb
      rw [hmoved.live b hold, wordToPtr_ptrToWord]
      exact hafter (hready.reachable (.root hold))
    exact hm.lt_end hmem (hm.self_inside hmem)

/-- A collection of the first generation copies each of its cells that can be reached once, and
nothing else. -/
theorem heapRun_collectFirstGeneration (h : HeapRun params s) (diskPages : Nat → Nat) :
    Ends (s.collectFirstGeneration params diskPages)
      (fun r => ∃ move olds, Promoted params s r.2 move olds)
      (HeapFailure.Excused (∃ p, FirstCell params s p ∧ Decl.abort ∈ cellDecls s.words p)) := by
  obtain ⟨_, _, _, _, hready⟩ := h.sound
  refine (hready.steady.collectFirstGeneration hready.first (fun _ hp => hp) (fun _ hp => hp)
    diskPages).imp ?_
  rintro ⟨ptrs, t⟩ ⟨u, c, hcollected⟩
  exact ⟨_, _, hcollected.promoted hready⟩

/-! ## generations -/

/-- The generations by age, with the cells in their pages. -/
structure Layout (params : HeapParams) (s : Heap) (cells : Nat → List Nat) (ages : List Nat) :
    Prop where
  linked : DoublyLinked s.gens.older s.gens.younger invalidGenerationNumber
    invalidGenerationNumber s.gens.youngestGn ages invalidGenerationNumber
  status : ∀ gn ∈ ages, s.gens.status gn = .normal ∨ s.gens.status gn = .toBeCollected
  /-- The cells lie one behind the other, and the words that are used are counted. -/
  page : ∀ gn ∈ ages, ∀ pn ∈ s.gens.page gn, ∃ used ≤ params.wordsPerPage,
    s.words (params.pageNumberToPagePtr pn + 1) = used ∧
      Tiled id (cellGetNumberOfWords s.words) (params.pageNumberToPagePtr pn + 2) (cells pn)
        (params.pageNumberToPagePtr pn + used)
  ok : ∀ p ∈ s.cellsIn cells ages, CellOk s.words p ∧ Decl.abort ∉ cellDecls s.words p
  /-- There are no references to younger generations. -/
  closed : ∀ younger older, ages = younger ++ older → ∀ p ∈ s.cellsIn cells older,
    ∀ b ∈ slots s.words p, wordToPtr (s.words b) ∈ s.cellsIn cells older
  /-- The remembered sets are exact. -/
  remSet : ∀ gn, (s.remSets gn).Nodup ∧ ∀ b, b ∈ s.remSets gn ↔
    s.gens.status gn = .toBeCollected ∧ ∃ gn' ∈ ages, s.gens.status gn' = .normal ∧
      ∃ p ∈ s.cellsIn cells [gn'], b ∈ slots s.words p ∧
        wordToPtr (s.words b) ∈ s.cellsIn cells [gn]

theorem HeapReady.remSet (h : HeapReady params s cells pre marked post) (gn b : Nat) :
    b ∈ s.remSets gn ↔ s.gens.status gn = .toBeCollected ∧
      ∃ gn' ∈ Generations.phaseAges [] pre marked post, s.gens.status gn' = .normal ∧
        ∃ p ∈ s.cellsIn cells [gn'], b ∈ slots s.words p ∧
          wordToPtr (s.words b) ∈ s.cellsIn cells [gn] := by
  obtain ⟨-, -, hphase⟩ := h.steady.gens
  have hm := h.steady.mature
  have hr := h.steady.remembered
  constructor
  · intro hb
    have hgn : gn ∈ marked := by
      by_contra hnot
      rw [hr.none gn hnot] at hb
      cases hb
    obtain ⟨⟨p, hp, hslot⟩, htarget⟩ := (hr.mem hgn).mp hb
    obtain ⟨gn', hgn', hp⟩ := mem_single hp
    exact ⟨hphase.toBeCollected gn hgn, gn', by simp [Generations.phaseAges, hgn'],
      hphase.normal gn' (by simp [hgn']), p, hp, hslot, htarget⟩
  · rintro ⟨hstatus, gn', hgn', hnormal, p, hp, hslot, htarget⟩
    obtain ⟨_, _, hsound⟩ := h.steady.gens.sound
    have hgn := hsound.ages.marked hstatus
    have hnot : ∀ {g}, s.gens.status g = .normal → g ∉ marked := fun hg hmem => by
      simp [hphase.toBeCollected _ hmem] at hg
    have hmarked : gn ∈ marked := by
      simp only [Generations.phaseAges, List.nil_append, List.mem_append] at hgn
      rcases hgn with hgn | hgn | hgn
      · simp [hphase.normal gn (by simp [hgn])] at hstatus
      · exact hgn
      · simp [hphase.normal gn (by simp [hgn])] at hstatus
    refine (hr.mem hmarked).mpr ⟨⟨p, ?_, hslot⟩, htarget⟩
    have hcases := hgn'
    simp only [Generations.phaseAges, List.nil_append, List.mem_append] at hcases
    rcases hcases with hpre | hmem | hpost
    · exact cellsIn_subset (by simpa using hpre) hp
    · exact absurd hmem (hnot hnormal)
    · -- an older generation does not refer to a younger one
      have hclosed := hm.closed (show _ = (pre ++ marked) ++ post by simp [Generations.phaseAges])
        (cellsIn_of_mem hpost hp) hslot
      obtain ⟨g, hg, hmem⟩ := mem_single hclosed
      have hself := hm.self_inside (cellsIn_of_mem hgn htarget)
      obtain ⟨-, rfl⟩ := hm.apart (by simp [Generations.phaseAges, hg]) hgn hmem htarget hself hself
      simp [hphase.normal g (by simp [hg])] at hstatus

theorem HeapReady.layout (h : HeapReady params s cells pre marked post) :
    Layout params s cells (Generations.phaseAges [] pre marked post) := by
  obtain ⟨⟨_, _, hsound⟩, -, hphase⟩ := h.steady.gens
  exact {
    linked := by
      have hlinked := hsound.ages.linked
      rwa [show (Generations.phaseAges [] pre marked post).headD invalidGenerationNumber =
        s.gens.youngestGn from h.steady.youngestGn.symm] at hlinked
    status := by
      intro gn hgn
      simp only [Generations.phaseAges, List.nil_append, List.mem_append] at hgn
      rcases hgn with hgn | hgn | hgn
      · exact .inl (hphase.normal gn (by simp [hgn]))
      · exact .inr (hphase.toBeCollected gn hgn)
      · exact .inl (hphase.normal gn (by simp [hgn]))
    page := fun _ hgn _ hpn => h.steady.mature.page hgn hpn
    ok := fun _ hp => ⟨h.steady.mature.ok hp, h.steady.mature.declared hp⟩
    closed := fun _ _ hages _ hp _ hb => h.steady.mature.closed hages hp hb
    remSet := fun gn => ⟨h.steady.remembered.nodup gn, h.remSet gn⟩ }

/-- Between commits the generations are in order. -/
theorem heapRun_layout (h : HeapRun params s) : ∃ cells ages, Layout params s cells ages := by
  obtain ⟨_, _, _, _, hready⟩ := h.sound
  exact ⟨_, _, hready.layout⟩

/-! ## an example -/

/-- A database of eight pages, with a first generation that is as large as four. -/
def smallHeap : HeapParams where
  numberOfPages := 8
  realloc := fun size => if size < 0x80000000 then some 0x1000 else none
  realloc_lt := by
    intro size base h
    have := (Option.ite_none_right_eq_some.mp h).1
    omega
  pageSize := 0x400
  startGcLimit := 0x2000
  allowAdditionalGenerationality := false
  numberOfPagesToMark := 0
  fitsMatureGeneration := fun npages => decide (npages < 4)
  wordsPerPage := 0x100
  firstGenerationEnd := 0x800
  numberOfWordsInFirstGeneration := 0x400
  root := 0xC00
  pageSize_eq := rfl
  wordsPerPage_gt := by decide
  pages_le := by decide
  root_ge := by decide
  fits_le := by
    intro npages h
    have := of_decide_eq_true h
    omega

def smallGroup : HeapGroup where
  diskPages := fun i => 1 + i
  shrinks := fun _ => false
  stepDiskPages := fun i => 9 + i
  more := []

/-- A program allocates a list that is its own tail. -/
def allocateList (s : Heap) : Heap :=
  let p := s.allocationPtr - 3
  let s := ({ s with allocationPtr := p }.set p CellType.list.header).set (p + 1) 1
  (s.set (p + 2) (ptrToWord p)).set (smallHeap.rootSlot .test1) (ptrToWord p)

/-- Such a list is a cell with one slot. -/
theorem loop_cellOk {words : Nat → Nat} (hp : p ≠ nullPtr)
    (hheader : words p = CellType.list.header) (hcar : words (p + 1) = 1)
    (hcdr : words (p + 2) = ptrToWord p) :
    CellOk words p ∧ cellGetNumberOfWords words p = 3 ∧ slots words p = [p + 2] := by
  have htype : cellType (words p) = CellType.list.code := by
    rw [hheader]
    decide
  have hsize : cellGetNumberOfWords words p = 3 := by
    simp only [cellGetNumberOfWords, cellTypeOf_eq_some.mpr htype]
  have hdecls := cellDecls_list htype
  have hrefers : WordType.tagged.refers (ptrToWord p) = true :=
    WordType.refers_eq_true.mpr
      ⟨mt ptrToWord_eq_nullWord.mp hp, .tagged (taggedIsPtr_ptrToWord p)⟩
  have hslots : slots words p = [p + 2] := by
    simp [slots, hdecls, declSlot, hcar, hcdr, hrefers,
      show WordType.tagged.refers 1 = false by decide]
  refine ⟨?_, hsize, hslots⟩
  exact {
    two_le := by omega
    inside := by
      intro type i hmem
      simp only [hdecls, List.mem_cons, Decl.field.injEq, List.not_mem_nil, or_false] at hmem
      omega
    apart := by
      rw [hdecls]
      simp [Decl.Apart]
    nonnull := by simp [hdecls]
    not_forward := by
      rw [htype]
      decide
    aligned := by
      rw [hslots]
      simp [hcdr, wordToPtr_ptrToWord]
    bcode := by
      rw [htype]
      intro hcont
      cases CellType.code_injective hcont }

theorem allocateList_mutated (h : NewDatabase smallHeap s) :
    Mutated smallHeap s (allocateList s) ∧ Held smallHeap (allocateList s) 0xBFD := by
  have hallocated : s.allocationPtr - 3 = 0xBFD := by
    rw [h.allocationPtr]
    rfl
  have hroot : smallHeap.rootSlot .test1 = 0xC19 := rfl
  obtain ⟨t, ht⟩ : ∃ t, t = allocateList s := ⟨_, rfl⟩
  have hptr : t.allocationPtr = 0xBFD := by
    rw [ht]
    exact hallocated
  have hsmart : t.smartPtrs = [] := by
    rw [ht]
    exact h.smartPtrs
  have hword : ∀ a, t.words a = if a = 0xC19 then ptrToWord 0xBFD else
      if a = 0xBFF then ptrToWord 0xBFD else if a = 0xBFE then 1 else
        if a = 0xBFD then CellType.list.header else s.words a := by
    intro a
    rw [ht, allocateList]
    simp only [set, hallocated, hroot, Function.update_apply]
  have hother : ∀ a, a ≠ 0xC19 → a < 0xBFD ∨ 0xC00 ≤ a → t.words a = s.words a := by
    intro a hne ha
    rw [hword, if_neg hne, if_neg (by omega), if_neg (by omega), if_neg (by omega)]
  have htest : t.words 0xC19 = ptrToWord 0xBFD := by
    rw [hword, if_pos rfl]
  have hcdr : t.words 0xBFF = ptrToWord 0xBFD := by
    rw [hword, if_neg (by decide), if_pos rfl]
  obtain ⟨hok, hsize, hslots⟩ : CellOk t.words 0xBFD ∧
      cellGetNumberOfWords t.words 0xBFD = 3 ∧ slots t.words 0xBFD = [0xBFF] :=
    loop_cellOk (by decide) (by rw [hword]; simp) (by rw [hword]; simp) hcdr
  have htarget : wordToPtr (t.words 0xC19) = 0xBFD := by rw [htest, wordToPtr_ptrToWord]
  have haccu : t.accuIsPtr smallHeap = false := by
    have haccu := h.accuIsPtr
    unfold Heap.accuIsPtr at haccu ⊢
    rwa [hother _ (by decide) (.inr (by decide)), hother _ (by decide) (.inr (by decide))]
  have hlive : ∀ {b}, b ∈ t.liveRoots smallHeap → b = 0xC19 := by
    intro b hb
    by_contra hne
    obtain ⟨hslot, hnull⟩ := mem_liveRoots.mp hb
    rcases mem_rootSlots.mp hslot with ⟨hmem, -⟩ | hmem | hmem
    · simp [haccu] at hmem
    · obtain ⟨i, hi, hisPtr, rfl⟩ := mem_rootPtrSlots.mp hmem
      rw [hother _ hne (.inr (Nat.le_add_right 0xC00 i))] at hnull
      exact hnull (h.root_ptr hi hisPtr)
    · simp [hsmart] at hmem
  rw [← ht]
  constructor
  · exact {
      gens := by rw [ht]; rfl
      remSets := by rw [ht]; rfl
      words := fun a ha => by
        have ha : a < 0x800 := ha
        exact hother a (by omega) (.inl (by omega))
      allocated := by
        rw [hptr, h.allocationPtr]
        decide
      list := hother _ (by decide) (.inr (by decide))
      first := by
        refine (FirstSound.of_closed (F := (· = 0xBFD)) (hptr ▸ by decide)
          (hsmart ▸ smartPtrsOk_nil) ?_ ?_ ?_ ?_ ?_ ?_).1
        · intro b hb
          rw [hlive hb, htarget, htest]
          exact ⟨rfl, .inl rfl⟩
        · rintro p rfl
          exact hok
        · rintro p rfl
          rw [hsize]
          decide
        · rintro p rfl
          rw [hsize, hptr]
          decide
        · rintro p q a rfl rfl _ _
          rfl
        · rintro p b rfl hb
          rw [hslots, List.mem_singleton] at hb
          rw [hb, hcdr, wordToPtr_ptrToWord]
          exact .inl rfl }
  · have hslot : 0xC19 ∈ t.userRoots smallHeap :=
      mem_userRoots.mpr ⟨mem_rootSlots.mpr (.inr (.inl (mem_rootPtrSlots.mpr
        ⟨_, RootIx.ix_lt .test1, rfl, rfl⟩))), by decide, by decide⟩
    exact htarget ▸ Held.root hslot (htest ▸ by decide)

/-- The state with the list is one of a run. -/
theorem smallRun {s t : Heap}
    (hinit : initShades smallHeap (fun _ => true) (fun _ => 0) (fun _ => 0) = .ok s)
    (hcreate : s.createDb smallHeap smallGroup = .ok t) :
    HeapRun smallHeap (allocateList t) ∧ Held smallHeap (allocateList t) 0xBFD := by
  obtain ⟨hmutated, hheld⟩ := allocateList_mutated (newDatabase_of_createDb hinit hcreate)
  exact ⟨.mutated (.created hinit hcreate) hmutated, hheld⟩

/-- The list is copied to the last page. -/
theorem heapRun_collectFirstGeneration_smallHeap : ∃ s r, HeapRun smallHeap s ∧
    Held smallHeap s 0xBFD ∧ s.collectFirstGeneration smallHeap (fun i => 1 + i) = .ok r ∧
      r.2.words 0xC19 = ptrToWord 0x702 ∧ ∃ move olds, Promoted smallHeap s r.2 move olds := by
  have hruns : (initShades smallHeap (fun _ => true) (fun _ => 0) (fun _ => 0) >>= fun s =>
      s.createDb smallHeap smallGroup >>= fun s =>
      (allocateList s).collectFirstGeneration smallHeap fun i => 1 + i).map
        (fun r => r.2.words 0xC19) = .ok (ptrToWord 0x702) := by decide +kernel
  obtain ⟨r, hruns, hword⟩ := exists_of_map_eq_ok hruns
  obtain ⟨s, hinit, hruns⟩ := exists_of_bind_eq_ok hruns
  obtain ⟨t, hcreate, hcollect⟩ := exists_of_bind_eq_ok hruns
  obtain ⟨hrun, hheld⟩ := smallRun hinit hcreate
  exact ⟨_, r, hrun, hheld, hcollect, hword,
    (heapRun_collectFirstGeneration hrun _).of_ok hcollect⟩

/-- And all generations are going to be collected. -/
theorem heapRun_flushBatch_smallHeap : ∃ s t, HeapRun smallHeap s ∧ Held smallHeap s 0xBFD ∧
    s.flushBatch smallHeap smallGroup = .ok t ∧ t.words 0xC19 = ptrToWord 0x702 ∧
      Committed smallHeap t ∧ ∃ move, Kept smallHeap s t move := by
  have hruns : (initShades smallHeap (fun _ => true) (fun _ => 0) (fun _ => 0) >>= fun s =>
      s.createDb smallHeap smallGroup >>= fun s =>
      (allocateList s).flushBatch smallHeap smallGroup).map (fun t => t.words 0xC19) =
        .ok (ptrToWord 0x702) := by decide +kernel
  obtain ⟨t, hruns, hword⟩ := exists_of_map_eq_ok hruns
  obtain ⟨s, hinit, hruns⟩ := exists_of_bind_eq_ok hruns
  obtain ⟨u, hcreate, hflush⟩ := exists_of_bind_eq_ok hruns
  obtain ⟨hrun, hheld⟩ := smallRun hinit hcreate
  obtain ⟨hcommitted, hkept, -⟩ := (heapRun_flushBatch hrun smallGroup).of_ok hflush
  exact ⟨_, t, hrun, hheld, hflush, hword, hcommitted, hkept⟩

/-- Commits in a row. -/
def flushAll (params : HeapParams) : List HeapGroup → Heap → Except HeapFailure Heap
  | [], s => .ok s
  | group :: groups, s => s.flushBatch params group >>= flushAll params groups

theorem HeapRun.flushAll {groups : List HeapGroup} (hrun : HeapRun params s)
    (h : s.flushAll params groups = .ok t) : HeapRun params t := by
  induction groups generalizing s with
  | nil =>
    obtain rfl := Except.ok.inj h
    exact hrun
  | cons group groups ih =>
    obtain ⟨u, hflush, h⟩ := exists_of_bind_eq_ok h
    exact ih (hrun.flushed hflush) h

/-- A commit that takes disk pages from this number on. -/
def groupFrom (diskPage : Nat) : HeapGroup where
  diskPages := fun i => diskPage + i
  shrinks := fun _ => false
  stepDiskPages := fun i => diskPage + 8 + i
  more := []

/-- After four commits there are six generations.  The oldest one was collected twice, and
the three after it once. -/
theorem smallHeap_fourCommits : ∃ s, HeapRun smallHeap s ∧ s.gens.youngestGn = 4 ∧
    (List.range 6).map s.gens.status =
      [.collectedTwice, .collectedOnce, .collectedOnce, .collectedOnce, .normal, .normal] := by
  have hruns : (initShades smallHeap (fun _ => true) (fun _ => 0) (fun _ => 0) >>= fun s =>
      s.createDb smallHeap smallGroup >>= fun s =>
      (allocateList s).flushAll smallHeap
        [groupFrom 1, groupFrom 17, groupFrom 33, groupFrom 49]).map
          (fun t => (t.gens.youngestGn, (List.range 6).map t.gens.status)) =
      .ok (4, [.collectedTwice, .collectedOnce, .collectedOnce, .collectedOnce, .normal,
        .normal]) := by
    decide +kernel
  obtain ⟨t, hruns, hgens⟩ := exists_of_map_eq_ok hruns
  obtain ⟨s, hinit, hruns⟩ := exists_of_bind_eq_ok hruns
  obtain ⟨u, hcreate, hflush⟩ := exists_of_bind_eq_ok hruns
  obtain ⟨hrun, -⟩ := smallRun hinit hcreate
  exact ⟨t, hrun.flushAll hflush, congrArg Prod.fst hgens, congrArg Prod.snd hgens⟩

theorem heapRun_layout_fourCommits : ∃ s, HeapRun smallHeap s ∧ s.gens.youngestGn = 4 ∧
    s.gens.status 0 = .collectedTwice ∧ ∃ cells ages, Layout smallHeap s cells ages := by
  obtain ⟨s, hrun, hyoungest, hstatus⟩ := smallHeap_fourCommits
  exact ⟨s, hrun, hyoungest, (List.cons.inj hstatus).1, heapRun_layout hrun⟩

end Heap

end Shades
