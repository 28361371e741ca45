import Shades.Gc.MajorStep

/-!
# Shades.Gc.Flush

A commit.

The first generation is collected, its descriptions are written, and as many steps of the
mature collection follow as the policy wants.  Everything that a program holds is kept, and
what has to hold before the next commit holds again.
-/

namespace Shades

namespace Heap

variable {params : HeapParams} {s t u w : Heap} {rooted referred : Nat → Prop}
  {cells : Nat → List Nat} {ages pre marked post : List Nat} {move : Nat → Nat} {p q a b gn : Nat}
  {aborts : Prop}

/-! ## words of the root block -/

/-- Only words of the root block have changed, and of its slots only those of the collector. -/
structure RootChanged (params : HeapParams) (s t : Heap) : Prop where
  smartPtrs : t.smartPtrs = s.smartPtrs
  remSets : t.remSets = s.remSets
  other : ∀ {a}, (∀ i < numberOfRootBlockItems, a ≠ params.root + i) → t.words a = s.words a
  accuType : t.words (params.rootSlot .suspendedAccuType) =
    s.words (params.rootSlot .suspendedAccuType)
  accu : t.words (params.rootSlot .suspendedAccu) = s.words (params.rootSlot .suspendedAccu)
  ptr : ∀ b ∈ params.rootPtrSlots, t.words b = s.words b ∨ t.words b = nullWord ∧
    (b = params.rootSlot .oidFreelist ∨ b = params.rootSlot .generationPinfoList)

theorem rootSlot_ne {r r' : RootIx} (h : r ≠ r') :
    params.rootSlot r ≠ params.rootSlot r' := fun heq =>
  h (RootIx.ix_injective (Nat.add_left_cancel heq))

namespace RootChanged

theorem refl (s : Heap) : RootChanged params s s :=
  ⟨rfl, rfl, fun _ => rfl, rfl, rfl, fun _ _ => .inl rfl⟩

theorem trans (h : RootChanged params s t) (h' : RootChanged params t u) :
    RootChanged params s u where
  smartPtrs := h'.smartPtrs.trans h.smartPtrs
  remSets := h'.remSets.trans h.remSets
  other := fun ha => (h'.other ha).trans (h.other ha)
  accuType := h'.accuType.trans h.accuType
  accu := h'.accu.trans h.accu
  ptr := by
    intro b hb
    rcases h'.ptr b hb with hu | hu
    · rw [hu]
      exact h.ptr b hb
    · exact .inr hu

/-- A slot of the collector is cleared. -/
theorem clear {r : RootIx} (hr : r = .oidFreelist ∨ r = .generationPinfoList) :
    RootChanged params s (s.set (params.rootSlot r) nullWord) := by
  have hne : ∀ r', r' ≠ r → params.rootSlot r' ≠ params.rootSlot r := fun r' hr' =>
    rootSlot_ne hr'
  refine ⟨rfl, rfl, fun {a} ha => Function.update_of_ne (ha r.ix ?_) _ _,
    Function.update_of_ne (hne _ ?_) _ _, Function.update_of_ne (hne _ ?_) _ _, fun b hb => ?_⟩
  · exact Nat.lt_trans (RootIx.ix_lt r) (by decide)
  · rcases hr with rfl | rfl <;> decide
  · rcases hr with rfl | rfl <;> decide
  · by_cases heq : b = params.rootSlot r
    · subst heq
      exact .inr ⟨Function.update_self .., hr.imp (congrArg _) (congrArg _)⟩
    · exact .inl (Function.update_of_ne heq _ _)

/-- Words that are not slots are set. -/
theorem setWords (i : Nat) (xs : List Nat)
    (hle : params.root + i + xs.length ≤ params.root + numberOfRootBlockItems)
    (hptr : ∀ j, i ≤ j → j < i + xs.length → j < numberOfRootIxs → rootIxIsPtr j = false)
    (haccuType : ¬ (i ≤ RootIx.suspendedAccuType.ix ∧ RootIx.suspendedAccuType.ix < i + xs.length))
    (haccu : ¬ (i ≤ RootIx.suspendedAccu.ix ∧ RootIx.suspendedAccu.ix < i + xs.length)) :
    RootChanged params s (Heap.setWords (params.root + i) xs s) := by
  rw [setWords_eq]
  refine ⟨rfl, rfl, fun {a} ha => setWords_outside ?_, setWords_outside ?_, setWords_outside ?_,
    fun b hb => .inl (setWords_outside ?_)⟩
  · by_contra hin
    refine ha (a - params.root) ?_ ?_ <;> omega
  · rw [HeapParams.rootSlot]
    omega
  · rw [HeapParams.rootSlot]
    omega
  · obtain ⟨j, hj, hslot, rfl⟩ := mem_rootPtrSlots.mp hb
    by_contra hin
    have hnot := hptr j (by omega) (by omega) hj
    simp [hslot] at hnot

variable (h : RootChanged params s t)
include h

theorem rootSlots_eq : t.rootSlots params = s.rootSlots params :=
  rootSlots_congr h.accuType (.inl h.accu) h.smartPtrs

/-- Words below the root block. -/
theorem word_eq (ha : a < params.root) : t.words a = s.words a :=
  h.other fun i _ => by omega

theorem word_lt (ha : a < params.firstGenerationEnd) : t.words a = s.words a :=
  h.word_eq (Nat.lt_of_lt_of_le ha (Nat.le_trans (Nat.le_add_right _ _) params.root_ge))

theorem root_word (hsmart : SmartPtrsOk params s.smartPtrs) (hb : b ∈ s.rootSlots params) :
    t.words b = s.words b ∨ t.words b = nullWord ∧
      (b = params.rootSlot .oidFreelist ∨ b = params.rootSlot .generationPinfoList) := by
  rcases mem_rootSlots.mp hb with ⟨-, rfl⟩ | hb | hb
  · exact .inl h.accu
  · exact h.ptr b hb
  · refine .inl (h.other fun i hi heq => ?_)
    have := (hsmart.2 b hb).2
    omega

theorem user_word (hsmart : SmartPtrsOk params s.smartPtrs) (hb : b ∈ s.userRoots params) :
    t.words b = s.words b := by
  obtain ⟨hslot, hne, hne'⟩ := mem_userRoots.mp hb
  refine (h.root_word hsmart hslot).resolve_right ?_
  rintro ⟨-, heq | heq⟩
  · exact hne heq
  · exact hne' heq

/-- What refers to a cell still does. -/
theorem live_word (hsmart : SmartPtrsOk params s.smartPtrs) (hb : b ∈ t.liveRoots params) :
    b ∈ s.liveRoots params ∧ t.words b = s.words b := by
  obtain ⟨hslot, hne⟩ := mem_liveRoots.mp hb
  rw [h.rootSlots_eq] at hslot
  have hword := (h.root_word hsmart hslot).resolve_right fun hnull => hne hnull.1
  exact ⟨mem_liveRoots.mpr ⟨hslot, hword ▸ hne⟩, hword⟩

theorem userMoved (hsmart : SmartPtrsOk params s.smartPtrs)
    (haligned : ∀ b ∈ s.userRoots params, s.words b ≠ nullWord →
      ptrToWord (wordToPtr (s.words b)) = s.words b) : UserMoved params s t id where
  slots := h.rootSlots_eq
  null := fun b hb hnull => (h.user_word hsmart hb).trans hnull
  live := fun b hb hne => by rw [h.user_word hsmart hb, id, haligned b hb hne]

/-- The first generation is as it was. -/
theorem firstSound (hf : FirstSound params s rooted referred) (hm : MatureSound params s cells ages)
    (hallocated : t.allocationPtr = s.allocationPtr)
    (hrooted : ∀ {p}, rooted p → p ∈ s.cellsIn cells ages)
    (hreferred : ∀ {p}, referred p → p ∈ s.cellsIn cells ages) :
    FirstSound params t rooted referred ∧
      (∀ p, FirstCell params t p → FirstCell params s p ∧
        cellDecls t.words p = cellDecls s.words p) ∧ Kept params s t id := by
  have hrel : Relocated id s.words t.words (HeapCell params s cells ages) := by
    refine hf.relocated_id hm hreferred fun {p a} hp ha => ?_
    rcases hp with hp | hp
    · have hinside := hf.inside hp
      exact h.word_eq (Nat.lt_of_lt_of_le ha.2 (hinside.trans params.root_ge))
    · exact h.word_lt (hm.lt_end hp ha)
  have hsize : ∀ {p}, FirstCell params s p →
      cellGetNumberOfWords t.words p = cellGetNumberOfWords s.words p := fun hp =>
    (hrel.moved (.inl hp)).numberOfWords
  obtain ⟨hfirst, hcells⟩ : FirstSound params t rooted referred ∧
      ∀ {p}, FirstCell params t p → FirstCell params s p := by
    refine FirstSound.of_closed (F := FirstCell params s) (hallocated ▸ hf.allocated)
      (h.smartPtrs ▸ hf.smartPtrs) ?_ ?_ ?_ ?_ ?_ ?_
    case refine_1 =>
      intro b hb
      obtain ⟨hb, hword⟩ := h.live_word hf.smartPtrs hb
      rw [hword, hallocated]
      exact ⟨(hf.roots hb).1, hf.root_target hb⟩
    case refine_2 => exact fun hp => hrel.cellOk (.inl hp)
    case refine_3 => exact fun hp => hsize hp ▸ hf.size_le hp
    case refine_4 => exact fun hp => ⟨hallocated ▸ hp.ge, hsize hp ▸ hf.inside hp⟩
    case refine_5 =>
      rintro p q a hp hq ⟨hle, hlt⟩ ⟨hle', hlt'⟩
      rw [hsize hp] at hlt
      rw [hsize hq] at hlt'
      exact hf.apart hp hq ⟨hle, hlt⟩ ⟨hle', hlt'⟩
    case refine_6 =>
      intro p b hp hb
      obtain ⟨b', hb', rfl, htarget⟩ := (hrel.mem_slots_iff (.inl hp)).mp hb
      rw [htarget, hallocated]
      exact hf.target hp hb'
  refine ⟨hfirst, fun p hp => ⟨hcells hp, hrel.decls (.inl (hcells hp))⟩, ?_⟩
  have hlive : ∀ b ∈ s.userRoots params, s.words b ≠ nullWord → b ∈ s.liveRoots params :=
    fun b hb hne => mem_liveRoots.mpr ⟨(mem_userRoots.mp hb).1, hne⟩
  refine .of_preserved (.of_id hrel) (h.userMoved hf.smartPtrs fun b hb hne =>
    (hf.roots (hlive b hb hne)).1) fun b hb hne => ?_
  exact (hf.root_target (hlive b hb hne)).imp_right fun htarget => hrooted htarget.2

end RootChanged

/-! ## the descriptions -/

theorem cacheGenerationPinfoToRoot_spec (n : Nat) :
    Ends (s.cacheGenerationPinfoToRoot params n)
      (fun t => RootChanged params s t ∧ t.gens = s.gens ∧ t.allocationPtr = s.allocationPtr)
      (HeapFailure.Excused aborts) := by
  unfold cacheGenerationPinfoToRoot
  refine ends_ite (fun hmax => ?_) fun _ => .inr (.inr rfl)
  have hlength : ([s.gens.npages s.gens.youngestGn, s.gens.youngestGn, n] ++
      s.pageWords s.gens.youngestGn).length ≤ 85 := by
    rw [List.length_append, length_pageWords]
    have hmax : s.gens.npages s.gens.youngestGn ≤ 41 := hmax
    simp only [List.length_cons, List.length_nil]
    omega
  have hix : RootIx.youngestGenerationNumberOfPages.ix = 40 := rfl
  have hnot : ∀ j < numberOfRootIxs, 40 ≤ j → rootIxIsPtr j = false := by decide
  refine ⟨.setWords _ _ ?_ (fun j hle _ hj => hnot j hj (hix ▸ hle)) ?_ ?_, ?_, ?_⟩
  · simp only [numberOfRootBlockItems]
    omega
  · rw [hix]
    exact fun hin => absurd hin.1 (by decide)
  · rw [hix]
    exact fun hin => absurd hin.1 (by decide)
  · rw [setWords_eq]
  · rw [setWords_eq]

/-- A word of the root block that is not a slot is set. -/
theorem RootChanged.set {r : RootIx} (x : Nat)
    (hr : r = .prevGenerationPinfoList ∨ r = .prevPrevGenerationPinfoList) :
    RootChanged params s (s.set (params.rootSlot r) x) := by
  have hlt := RootIx.ix_lt r
  have hptr : rootIxIsPtr r.ix = false := by rcases hr with rfl | rfl <;> decide
  have hne : r.ix ≠ RootIx.suspendedAccuType.ix ∧ r.ix ≠ RootIx.suspendedAccu.ix := by
    rcases hr with rfl | rfl <;> decide
  simp only [numberOfRootIxs] at hlt
  refine RootChanged.setWords r.ix [x] ?_ (fun j hle hlt _ => ?_) ?_ ?_
  · simp only [List.length_singleton, numberOfRootBlockItems]
    omega
  · simp only [List.length_singleton] at hlt
    obtain rfl : j = r.ix := by omega
    exact hptr
  · simp only [List.length_singleton]
    omega
  · simp only [List.length_singleton]
    omega

/-! ## between the steps of a commit -/

/-- The words of the pages, and which generation has them. -/
theorem HeapSteady.congr (h : HeapSteady params s cells pre marked post)
    (hgens : Generations.Steady params.numberOfPages True t.gens [] pre marked post)
    (hyoungest : t.gens.youngestGn = s.gens.youngestGn)
    (hrecovering : t.gens.isRecovering = s.gens.isRecovering)
    (hpage : ∀ gn ∈ Generations.phaseAges [] pre marked post, t.gens.page gn = s.gens.page gn)
    (hwords : ∀ a < params.firstGenerationEnd, t.words a = s.words a)
    (hremSets : t.remSets = s.remSets) : HeapSteady params t cells pre marked post := by
  obtain ⟨_, _, hsound⟩ := hgens.sound
  exact {
    gens := hgens
    youngestGn := hyoungest.trans h.youngestGn
    recovering := hrecovering.trans h.recovering
    mature := h.mature.congr hwords hpage ⟨_, _, _, hsound⟩ hsound.ages.live
    remembered := h.mature.remembered_congr h.remembered
      (fun gn hgn => by simp [Generations.phaseAges, hgn])
      (fun gn hgn => by simp [Generations.phaseAges, hgn]) hwords hpage hremSets }

theorem HeapSteady.finishMajorGcRound (h : HeapSteady params s cells pre marked post) :
    Ends (s.finishMajorGcRound params)
      (fun t => HeapSteady params t cells pre marked post ∧ RootChanged params s t ∧
        t.allocationPtr = s.allocationPtr ∧ t.gens.page = s.gens.page ∧
        t.gens.toGn = s.gens.toGn)
      (HeapFailure.Excused aborts) := by
  unfold Heap.finishMajorGcRound
  refine ends_ite (fun hstarted => ?_) fun _ => ⟨h, .refl s, rfl, rfl, rfl⟩
  obtain ⟨⟨_, _, hsound⟩, harrays, hphase⟩ := h.gens
  have hsteady : Generations.Steady params.numberOfPages True
      { s.gens with majorGcWasStarted := false } [] pre marked post :=
    ⟨⟨_, _, { hsound with }⟩, { harrays with }, { hphase with }⟩
  obtain ⟨status, count, history, hrun, -, hsteady'⟩ := hsteady.markTwice
  rw [Generations.finishMajorGcRound, if_pos hstarted, hrun]
  have hchanged : RootChanged params s (((s.set (params.rootSlot .prevPrevGenerationPinfoList)
      (s.words (params.rootSlot .prevGenerationPinfoList))).set
        (params.rootSlot .prevGenerationPinfoList)
        ((s.set (params.rootSlot .prevPrevGenerationPinfoList)
          (s.words (params.rootSlot .prevGenerationPinfoList))).words
            (params.rootSlot .generationPinfoList))).set
              (params.rootSlot .generationPinfoList) nullWord) :=
    ((RootChanged.set _ (.inr rfl)).trans (.set _ (.inl rfl))).trans (.clear (.inr rfl))
  refine ⟨h.congr hsteady' rfl rfl (fun _ _ => rfl) (fun a ha => hchanged.word_lt ha) rfl,
    ⟨rfl, rfl, hchanged.other, hchanged.accuType, hchanged.accu, hchanged.ptr⟩, rfl, rfl, rfl⟩

/-- The description of the new generation is written. -/
theorem HeapSteady.logged (h : HeapSteady params s cells pre marked post)
    (hf : FirstSound params s (· ∈ s.cellsIn cells (Generations.phaseAges [] pre marked post))
      (· ∈ s.cellsIn cells pre))
    (hallocated : s.allocationPtr ≤ params.firstGenerationStart)
    (huser : ∀ b ∈ s.userRoots params, s.words b ≠ nullWord →
      wordToPtr (s.words b) ∈ s.cellsIn cells (Generations.phaseAges [] pre marked post))
    (hprev : s.words (params.rootSlot .generationPinfoList) ≠ nullWord →
      s.allocationPtr ≤ wordToPtr (s.words (params.rootSlot .generationPinfoList)) ∨
        wordToPtr (s.words (params.rootSlot .generationPinfoList)) ∈ s.cellsIn cells pre)
    (hpinfos : OnlyPinfos params s) (ht : Logged params s t) :
    MajorSteady params t cells pre marked post ∧ Kept params s t id := by
  have hsub : ∀ {p}, p ∈ s.cellsIn cells pre →
      p ∈ s.cellsIn cells (Generations.phaseAges [] pre marked post) := fun hp =>
    cellsIn_subset (fun gn hgn => by simp [Generations.phaseAges, hgn]) hp
  have hkept := ht.kept h.mature hallocated hf.smartPtrs (fun b hb hne =>
    (hf.roots (mem_liveRoots.mpr ⟨(mem_userRoots.mp hb).1, hne⟩)).1) huser
  obtain ⟨hfirst, hcells⟩ := ht.firstSound h.mature hf hallocated (fun hp => hp) hsub hprev
  refine ⟨?_, hkept⟩
  exact {
    steady := h.congr (ht.gens ▸ h.gens) (by rw [ht.gens]) (by rw [ht.gens])
      (fun _ _ => by rw [ht.gens]) (fun a ha => ht.word_eq ha) ht.remSets
    first := by
      rw [ht.cellsIn_eq, ht.cellsIn_eq]
      exact hfirst
    allocated := by
      have hend := ht.end_eq
      omega
    list := fun _ => by rw [ht.root, wordToPtr_ptrToWord]
    user := by
      intro b hb hne
      rw [hkept.roots.mem_userRoots] at hb
      have hold := mt (hkept.roots.null b hb) hne
      rw [ht.cellsIn_eq, hkept.roots.live b hb hold, wordToPtr_ptrToWord]
      exact huser b hb hold
    pinfos := ht.onlyPinfos hf hcells hpinfos }

/-! ## the mature collection in a commit -/

/-- What holds between commits.  A cell of the first generation may refer to any other one. -/
structure HeapReady (params : HeapParams) (s : Heap) (cells : Nat → List Nat)
    (pre marked post : List Nat) : Prop where
  steady : HeapSteady params s cells pre marked post
  first : FirstSound params s (· ∈ s.cellsIn cells (Generations.phaseAges [] pre marked post))
    (· ∈ s.cellsIn cells (Generations.phaseAges [] pre marked post))
  allocated : s.allocationPtr ≤ params.firstGenerationStart
  list : s.words (params.rootSlot .generationPinfoList) ≠ nullWord →
    s.allocationPtr ≤ wordToPtr (s.words (params.rootSlot .generationPinfoList))

theorem MajorSteady.ready (h : MajorSteady params s cells pre marked post) :
    HeapReady params s cells pre marked post where
  steady := h.steady
  first := h.first.mono (fun hp => hp) fun hp =>
    cellsIn_subset (fun gn hgn => by simp [Generations.phaseAges, hgn]) hp
  allocated := h.allocated
  list := h.list

/-- Nothing that a program holds is in the first generation, and what else can be reached there
are descriptions of generations. -/
structure Committed (params : HeapParams) (s : Heap) : Prop where
  held : ∀ p, Held params s p → p < params.firstGenerationEnd
  pinfos : OnlyPinfos params s

theorem Committed.congr (h : Committed params s) (hwords : t.words = s.words)
    (hsmart : t.smartPtrs = s.smartPtrs) (hallocated : t.allocationPtr = s.allocationPtr) :
    Committed params t := by
  obtain ⟨hheld, hpinfos⟩ := h
  constructor
  · unfold Held userRoots rootSlots accuIsPtr at hheld ⊢
    rwa [hwords, hsmart]
  · unfold OnlyPinfos FirstCell liveRoots rootSlots accuIsPtr at hpinfos ⊢
    rwa [hwords, hsmart, hallocated]

theorem MajorSteady.committed (h : MajorSteady params s cells pre marked post) :
    Committed params s := by
  refine ⟨fun p hp => ?_, h.pinfos⟩
  have hmem : p ∈ s.cellsIn cells (Generations.phaseAges [] pre marked post) :=
    hp.induct h.user fun _ hp _ hb =>
      h.steady.mature.closed (List.nil_append _).symm hp hb
  exact h.steady.mature.lt_end hmem (h.steady.mature.self_inside hmem)

theorem MajorSteady.kept (h : MajorSteady params s cells pre marked post) :
    Kept params s s id := by
  refine .of_preserved (.of_id (h.steady.mature.relocated_id fun _ _ => rfl)) ?_ h.user
  refine ⟨rfl, fun _ _ => id, fun b hb hne => ?_⟩
  exact (h.first.roots (mem_liveRoots.mpr ⟨(mem_userRoots.mp hb).1, hne⟩)).1.symm

/-- All generations up to some age are to be collected, and nothing is remembered yet. -/
theorem MajorSteady.mark (h : MajorSteady params s cells pre marked post) (hpre : pre ≠ [])
    (hcollecting : s.gens.isCollecting = false) (shrinks : Nat → Bool) :
    Ends (s.withGens
        (Generations.markMajorGcGenerations params.toGenerationParams shrinks s.gens))
      (fun t => (∃ ms rest,
          HeapReady params { t with gens := { t.gens with isCollecting := true } } cells [] ms rest) ∧
        Committed params { t with gens := { t.gens with isCollecting := true } } ∧
        Kept params s { t with gens := { t.gens with isCollecting := true } } id)
      (HeapFailure.Excused aborts) := by
  have hne : s.gens.youngestGn ≠ invalidGenerationNumber := by
    obtain ⟨_, _, hsound⟩ := h.steady.gens.sound
    obtain ⟨gn, pre', rfl⟩ := List.exists_cons_of_ne_nil hpre
    rw [h.steady.youngestGn]
    exact hsound.ages.linked.ne_stop (by simp [Generations.phaseAges])
  refine (ends_withGens (h.steady.gens.mark h.steady.youngestGn hne hcollecting shrinks)).imp ?_
  rintro _ ⟨g, ⟨ms, rest, rfl, hsplit, hpage, hyoungest, hrecovering, hmarked⟩, rfl⟩
  refine ⟨⟨ms, rest, ?_⟩, h.committed.congr rfl rfl rfl, h.kept.congr rfl rfl⟩
  have hages : Generations.phaseAges [] [] ms rest = Generations.phaseAges [] pre [] post :=
    hsplit.symm
  have hcells : Heap.cellsIn { s with gens := { g with isCollecting := true } } cells =
      s.cellsIn cells := by
    funext gns
    unfold cellsIn
    rw [hpage]
  obtain ⟨_, _, hsound⟩ := hmarked.sound
  have hready := h.ready
  exact {
    steady := {
      gens := hmarked
      youngestGn := by
        show g.youngestGn = _
        rw [hyoungest, h.steady.youngestGn, List.nil_append, ← hsplit]
        rfl
      recovering := hrecovering.trans h.steady.recovering
      mature := by
        rw [hages] at hsound ⊢
        exact h.steady.mature.congr (fun _ _ => rfl) (fun gn _ => congrFun hpage gn)
          ⟨_, _, _, hsound⟩ hsound.ages.live
      remembered := {
        nodup := h.steady.remembered.nodup
        mem := by
          intro gn _ b
          have hnone : s.remSets gn = [] := h.steady.remembered.none gn (List.not_mem_nil)
          show b ∈ s.remSets gn ↔ _
          simp [hnone, cellsIn]
        none := fun gn _ => h.steady.remembered.none gn List.not_mem_nil } }
    first := by
      rw [hages, hcells]
      exact hready.first.congr rfl rfl rfl
    allocated := h.allocated
    list := h.list }

/-- However many steps there are in the commit. -/
theorem MajorSteady.majorGcLoop (h : MajorSteady params s cells pre marked post) (hpre : pre ≠ [])
    (shrinks : Nat → Bool) (diskPages : Nat → Nat) (more : List (Nat → Nat)) :
    Ends (s.majorGcLoop params shrinks diskPages more)
      (fun t => (∃ cells' pre' marked' post', HeapReady params t cells' pre' marked' post') ∧
        Committed params t ∧ ∃ move, Kept params s t move)
      (HeapFailure.Excused aborts) := by
  induction more generalizing s cells pre marked diskPages with
  | nil =>
    unfold Heap.majorGcLoop
    refine ends_ite (fun hnot => ?_) fun hcollecting => ?_
    · refine (h.mark hpre (by simpa using hnot) shrinks).bind ?_
      rintro t ⟨⟨ms, rest, hready⟩, hcommitted, hkept⟩
      exact ⟨⟨_, _, _, _, hready⟩, hcommitted, _, hkept⟩
    · refine (h.majorGcStep (by simpa using hcollecting) diskPages).bind ?_
      rintro r ⟨cells', gn, marked', move, hsteady, hkept⟩
      exact ⟨⟨_, _, _, _, hsteady.ready⟩, hsteady.committed, _, hkept⟩
  | cons diskPages' more ih =>
    unfold Heap.majorGcLoop
    refine ends_ite (fun hnot => ?_) fun hcollecting => ?_
    · refine (h.mark hpre (by simpa using hnot) shrinks).bind ?_
      rintro t ⟨⟨ms, rest, hready⟩, hcommitted, hkept⟩
      exact ⟨⟨_, _, _, _, hready⟩, hcommitted, _, hkept⟩
    · refine (h.majorGcStep (by simpa using hcollecting) diskPages).bind ?_
      rintro r ⟨cells', gn, marked', move, hsteady, hkept⟩
      refine ends_ite (fun _ => ?_) fun _ =>
        ⟨⟨_, _, _, _, hsteady.ready⟩, hsteady.committed, _, hkept⟩
      refine (ih hsteady (by simp) diskPages').imp ?_
      rintro t ⟨hready, hcommitted, move', hkept'⟩
      exact ⟨hready, hcommitted, _, hkept.trans hkept'⟩

theorem MajorSteady.majorGc (h : MajorSteady params s cells pre marked post) (hpre : pre ≠ [])
    (group : HeapGroup) :
    Ends (s.majorGc params group)
      (fun t => (∃ cells' pre' marked' post', HeapReady params t cells' pre' marked' post') ∧
        Committed params t ∧ ∃ move, Kept params s t move)
      (HeapFailure.Excused aborts) :=
  ends_ite (fun _ => ⟨⟨_, _, _, _, h.ready⟩, h.committed, _, h.kept⟩) fun _ =>
    h.majorGcLoop hpre group.shrinks group.stepDiskPages group.more

/-! ## the commit -/

namespace FirstCollected

variable {c : CopyState} {x : Heap} (h : FirstCollected params s cells pre marked post u c t)
  (hready : HeapReady params s cells pre marked post)
include h hready

/-- What the root set refers to after the first generation has been collected. -/
theorem root_word (hb : b ∈ t.liveRoots params) : b ∈ s.liveRoots params ∧
    t.words b = ptrToWord (c.move (wordToPtr (s.words b))) ∧
    wordToPtr (t.words b) ∈ t.cellsIn (cellsAfter cells c t)
      (Generations.phaseAges [] (t.gens.toGn :: pre) marked post) := by
  obtain ⟨_, _, hsound⟩ := hready.steady.gens.sound
  have hlive := hsound.ages.live
  have hmoved := h.rootsMoved hready.first hlive fun hp => hp
  have hold := hmoved.mem_liveRoots hb
  have hword := hmoved.live b hold
  refine ⟨hold, hword, ?_⟩
  rw [hword, wordToPtr_ptrToWord]
  refine (h.replacing.mem_iff h.collected).mpr ⟨_, ?_, rfl⟩
  refine (hready.first.root_target hold).imp_right fun htarget => ?_
  rw [List.nil_append, h.prepared.cellsIn_eq hlive]
  exact htarget.2

/-- The description that was written last is in the new generation. -/
theorem pinfo_word (hne : t.words (params.rootSlot .generationPinfoList) ≠ nullWord) :
    wordToPtr (t.words (params.rootSlot .generationPinfoList)) ∈
      t.cellsIn (cellsAfter cells c t) (t.gens.toGn :: pre) := by
  obtain ⟨hold, hword, -⟩ := h.root_word hready (mem_liveRoots.mpr ⟨rootSlots_pinfo t, hne⟩)
  have hge := hready.list (mem_liveRoots.mp hold).2
  rw [hword, wordToPtr_ptrToWord]
  refine cellsIn_of_mem (List.mem_cons_self (a := t.gens.toGn)) ?_
  exact (h.replacing.mem_toGn h.collected).mpr
    ⟨_, .root hold (cellGraph_target.mpr ⟨hge, rfl⟩), rfl⟩

/-- Nothing is left in the first generation, and the description can be written. -/
theorem logged (hx : RootChanged params t x)
    (hxsteady : HeapSteady params x (cellsAfter cells c t) (t.gens.toGn :: pre) marked post)
    (hpage : x.gens.page = t.gens.page) (hstart : x.allocationPtr = params.firstGenerationStart)
    {y : Heap} (hy : Logged params x y) :
    MajorSteady params y (cellsAfter cells c t) (t.gens.toGn :: pre) marked post ∧
      Kept params s y c.move := by
  obtain ⟨_, _, hsound⟩ := hready.steady.gens.sound
  have hkept := h.kept hready.first hsound.ages.live fun hp => hp
  have hsmart : SmartPtrsOk params t.smartPtrs := by
    rw [h.collected.smartPtrs, h.prepared.smartPtrs]
    exact hready.first.smartPtrs
  have hcells : x.cellsIn (cellsAfter cells c t) = t.cellsIn (cellsAfter cells c t) := by
    funext gns
    unfold cellsIn
    rw [hpage]
  have hroot : ∀ {b}, b ∈ t.liveRoots params → ptrToWord (wordToPtr (t.words b)) = t.words b := by
    intro b hb
    rw [(h.root_word hready hb).2.1, wordToPtr_ptrToWord]
  have hlive : ∀ b ∈ t.userRoots params, t.words b ≠ nullWord → b ∈ t.liveRoots params :=
    fun b hb hne => mem_liveRoots.mpr ⟨(mem_userRoots.mp hb).1, hne⟩
  have hbelow : ∀ {p}, p ∈ x.cellsIn (cellsAfter cells c t)
      (Generations.phaseAges [] (t.gens.toGn :: pre) marked post) → p < x.allocationPtr := by
    intro p hp
    rw [hstart]
    exact Nat.lt_of_lt_of_le (hxsteady.mature.lt_end hp (hxsteady.mature.self_inside hp))
      (Nat.le_add_right _ _)
  have huser : ∀ b ∈ x.userRoots params, x.words b ≠ nullWord →
      wordToPtr (x.words b) ∈ x.cellsIn (cellsAfter cells c t)
        (Generations.phaseAges [] (t.gens.toGn :: pre) marked post) := by
    intro b hb hne
    obtain ⟨hb, hword⟩ := hx.live_word hsmart (mem_liveRoots.mpr ⟨(mem_userRoots.mp hb).1, hne⟩)
    rw [hword, hcells]
    exact (h.root_word hready hb).2.2
  obtain ⟨hfirst, hnone⟩ : FirstSound params x
      (· ∈ x.cellsIn (cellsAfter cells c t)
        (Generations.phaseAges [] (t.gens.toGn :: pre) marked post))
      (· ∈ x.cellsIn (cellsAfter cells c t) (t.gens.toGn :: pre)) ∧
        ∀ {p}, FirstCell params x p → False := FirstSound.of_closed
    (F := fun _ => False) (hstart ▸ Nat.le_add_right _ _) (hx.smartPtrs ▸ hsmart)
    (fun {b} hb => by
      obtain ⟨hb, hword⟩ := hx.live_word hsmart hb
      have hmem := (h.root_word hready hb).2.2
      rw [← hcells] at hmem
      rw [hword]
      exact ⟨hroot hb, .inr ⟨hbelow hmem, hmem⟩⟩)
    nofun nofun nofun nofun nofun
  obtain ⟨hsteady, hkeptY⟩ := hxsteady.logged hfirst (Nat.le_of_eq hstart) huser (fun hne => by
    obtain ⟨hb, hword⟩ := hx.live_word hsmart (mem_liveRoots.mpr ⟨rootSlots_pinfo x, hne⟩)
    rw [hword, hcells]
    exact .inr (h.pinfo_word hready (mem_liveRoots.mp hb).2)) (fun p hp => (hnone hp).elim) hy
  have hkeptX : Kept params t x id :=
    .of_preserved (.of_id (h.steady.mature.relocated_id fun a ha => hx.word_lt ha))
      (hx.userMoved hsmart fun b hb hne => hroot (hlive b hb hne))
      fun b hb hne => (h.root_word hready (hlive b hb hne)).2.2
  exact ⟨hsteady, hkept.trans (hkeptX.trans hkeptY)⟩

end FirstCollected

/-- What a program holds is known to be well formed. -/
theorem HeapReady.held (h : HeapReady params s cells pre marked post) (hp : Held params s p) :
    HeapCell params s cells (Generations.phaseAges [] pre marked post) p := by
  refine hp.induct (fun b hb hne => ?_) fun {p} _ hp b hb => ?_
  · exact (h.first.root_target (mem_liveRoots.mpr ⟨(mem_userRoots.mp hb).1, hne⟩)).imp_right
      And.right
  · rcases hp with hp | hp
    · exact (h.first.target hp hb).imp_right And.right
    · exact .inr (h.steady.mature.closed (List.nil_append _).symm hp hb)

theorem HeapReady.kept (h : HeapReady params s cells pre marked post) : Kept params s s id :=
  ((RootChanged.refl s).firstSound h.first h.steady.mature rfl (fun hp => hp) fun hp => hp).2.2

/-- Nothing has been allocated. -/
theorem HeapReady.committed (h : HeapReady params s cells pre marked post)
    (hstart : s.allocationPtr = params.firstGenerationStart) : Committed params s := by
  have hnone : ∀ {p}, ¬ FirstCell params s p := by
    intro p hfirst
    have htwo := (h.first.ok hfirst).two_le
    have hinside := h.first.inside hfirst
    have hge := hfirst.ge
    omega
  refine ⟨fun p hp => ?_, fun p hfirst => absurd hfirst hnone⟩
  have hmem := (h.held hp).resolve_left hnone
  exact h.steady.mature.lt_end hmem (h.steady.mature.self_inside hmem)

/-- The free object identifiers are forgotten. -/
theorem HeapReady.clearOidFreelist (h : HeapReady params s cells pre marked post) :
    HeapReady params (s.set (params.rootSlot .oidFreelist) nullWord) cells pre marked post ∧
      (∀ p, FirstCell params (s.set (params.rootSlot .oidFreelist) nullWord) p →
        FirstCell params s p ∧
        cellDecls (s.set (params.rootSlot .oidFreelist) nullWord).words p = cellDecls s.words p) ∧
      Kept params s (s.set (params.rootSlot .oidFreelist) nullWord) id := by
  have hchanged : RootChanged params s (s.set (params.rootSlot .oidFreelist) nullWord) :=
    .clear (.inl rfl)
  obtain ⟨hfirst, hcells, hkept⟩ := hchanged.firstSound h.first h.steady.mature rfl (fun hp => hp)
    fun hp => hp
  refine ⟨?_, hcells, hkept⟩
  have hpinfo : (s.set (params.rootSlot .oidFreelist) nullWord).words
      (params.rootSlot .generationPinfoList) = s.words (params.rootSlot .generationPinfoList) :=
    Function.update_of_ne (rootSlot_ne (by decide)) _ _
  exact {
    steady := h.steady.congr h.steady.gens rfl rfl (fun _ _ => rfl)
      (fun a ha => hchanged.word_lt ha) rfl
    first := hfirst
    allocated := h.allocated
    list := by
      rw [hpinfo]
      exact h.list }

/-- A commit. -/
theorem HeapReady.flushBatch (h : HeapReady params s cells pre marked post) (group : HeapGroup) :
    Ends (s.flushBatch params group)
      (fun t => (∃ cells' pre' marked' post', HeapReady params t cells' pre' marked' post') ∧
        Committed params t ∧ ∃ move, Kept params s t move)
      (HeapFailure.Excused (∃ p, FirstCell params s p ∧ Decl.abort ∈ cellDecls s.words p)) := by
  unfold Heap.flushBatch
  refine ends_ite (fun hstart => ⟨⟨_, _, _, _, h⟩, h.committed hstart, _, h.kept⟩) fun _ => ?_
  obtain ⟨hready, hcells, hkept⟩ := h.clearOidFreelist
  have hages := fun p (hp : p ∈ (s.set (params.rootSlot .oidFreelist) nullWord).cellsIn cells
    (Generations.phaseAges [] pre marked post)) => hp
  refine ((hready.steady.collectFirstGeneration hready.first hages hages group.diskPages).mono
    (fun _ => id) fun _ he => he.mono ?_).bind ?_
  · rintro ⟨p, hp, habort⟩
    obtain ⟨hp, hdecls⟩ := hcells p hp
    exact ⟨p, hp, hdecls ▸ habort⟩
  rintro ⟨ptrs, t⟩ ⟨u, c, hcollected⟩
  refine (cacheGenerationPinfoToRoot_spec ptrs).bind ?_
  rintro v ⟨hv, hgens, -⟩
  have hvsteady : HeapSteady params { v with allocationPtr := params.firstGenerationStart }
      (cellsAfter cells c t) (t.gens.toGn :: pre) marked post :=
    hcollected.steady.congr (hgens ▸ hcollected.steady.gens) (by rw [hgens]) (by rw [hgens])
      (fun _ _ => by rw [hgens]) (fun a ha => hv.word_lt ha) hv.remSets
  refine hvsteady.finishMajorGcRound.bind ?_
  rintro x ⟨hxsteady, hx, hstart, hpage, -⟩
  refine (logToGenerationPinfoList_spec (Nat.le_of_eq hstart) (Nat.zero_le _)).bind ?_
  intro y hy
  obtain ⟨hmajor, hkept'⟩ := hcollected.logged hready
    (hv.trans ⟨hx.smartPtrs, hx.remSets, hx.other, hx.accuType, hx.accu, hx.ptr⟩) hxsteady
    (hpage.trans (congrArg _ hgens)) hstart hy
  refine (hmajor.majorGc (List.cons_ne_nil _ _) group).imp ?_
  rintro w ⟨hw, hcommitted, move, hkeptW⟩
  exact ⟨hw, hcommitted, _, hkept.trans (hkept'.trans hkeptW)⟩

end Heap

end Shades
