import Shades.Gc.RootSet

/-!
# Shades.Gc.FirstGeneration

The first generation is collected.

Its cells that can be reached from the root set become the youngest generation, whatever
generations there are and however far a mature collection has come.
-/

namespace Shades

/-- The failures that are not excluded: there is no memory or no room for the description of a
generation, or the declarations of a cell do not allow it to be copied. -/
def HeapFailure.Excused (aborts : Prop) (e : HeapFailure) : Prop :=
  e = .generations .outOfMemory ∨ e = .abort ∧ aborts ∨ e = .noRoom

theorem HeapFailure.Excused.mono {aborts aborts' : Prop} {e : HeapFailure} (h : e.Excused aborts)
    (haborts : aborts → aborts') : e.Excused aborts' :=
  h.imp_right fun h => h.imp_left (And.imp_right haborts)

namespace Heap

variable {params : HeapParams} {s t u : Heap} {rooted referred : Nat → Prop}
  {cells : Nat → List Nat} {ages pre marked post : List Nat} {p a b gn : Nat} {aborts : Prop}

theorem CopyFailure.excused {words : Nat → Nat} {B : Nat → Prop} {e : HeapFailure}
    (h : CopyFailure words B e) (haborts : ∀ p, B p → Decl.abort ∈ cellDecls words p → aborts) :
    e.Excused aborts := by
  rcases h with h | ⟨h, p, hp, hmem⟩
  · exact .inl h
  · exact .inr (.inl ⟨h, haborts p hp hmem⟩)

/-- A function on the generations. -/
theorem ends_withGens {gens : Except GcFailure Generations} {P : Generations → Prop}
    (h : Ends gens P (GcFailure.Excused True)) :
    Ends (s.withGens gens) (fun t => ∃ g, P g ∧ t = { s with gens := g })
      (HeapFailure.Excused aborts) := by
  cases gens with
  | ok g => exact ⟨g, h, rfl⟩
  | error e =>
    have he : e = .outOfMemory := by simpa [GcFailure.Excused] using h
    exact .inl (he ▸ rfl)

/-! ## what is collected -/

/-- What is known of the generations when cells are copied to `to_gn`. -/
structure ReadyToCopy (params : HeapParams) (u : Heap) (ages : List Nat) : Prop where
  fresh : u.gens.toGn ∉ ages
  normal : u.gens.status u.gens.toGn = .normal
  recovering : u.gens.isRecovering = false
  toPn : u.gens.toPn = none
  noPage : u.gens.page u.gens.toGn = []
  toPtr : u.toPtr = nullPtr ∧ u.toEnd = nullPtr
  copyStack : u.copyStack = []
  arrays : u.gens.ArraysSound none
  diskPage : u.gens.diskPage u.gens.toGn = []

/-- `to_gn` was allocated and is in the list by age, and nothing else has been done but that
the status of live generations may have changed. -/
structure Prepared (params : HeapParams) (s u : Heap) : Prop where
  sound : ∃ ages froms twice, u.gens.Sound params.numberOfPages True ages froms twice
  arrays : u.gens.ArraysSound none
  free : s.gens.status u.gens.toGn = .nonexistent
  normal : u.gens.status u.gens.toGn = .normal
  live : ∀ {gn}, (s.gens.status gn).IsLive → (u.gens.status gn).IsLive
  page : u.gens.page = Function.update s.gens.page u.gens.toGn []
  diskPage : u.gens.diskPage u.gens.toGn = []
  recovering : u.gens.isRecovering = false
  toPn : u.gens.toPn = none
  toPtr : u.toPtr = nullPtr ∧ u.toEnd = nullPtr
  copyStack : u.copyStack = []
  words : u.words = s.words
  allocationPtr : u.allocationPtr = s.allocationPtr
  smartPtrs : u.smartPtrs = s.smartPtrs
  remSets : u.remSets = s.remSets

namespace Prepared

variable (h : Prepared params s u)
include h

theorem ne_toGn (hgn : (s.gens.status gn).IsLive) : gn ≠ u.gens.toGn := by
  rintro rfl
  exact hgn.ne_nonexistent h.free

theorem pageOf (hgn : (s.gens.status gn).IsLive) : u.gens.page gn = s.gens.page gn := by
  rw [h.page, Function.update_of_ne (h.ne_toGn hgn)]

theorem cellsIn_eq (hages : ∀ gn ∈ ages, (s.gens.status gn).IsLive) :
    u.cellsIn cells ages = s.cellsIn cells ages :=
  List.flatMap_congr fun gn hgn => by rw [h.pageOf (hages gn hgn)]

theorem mature (hm : MatureSound params s cells ages) : MatureSound params u cells ages :=
  hm.congr (fun _ _ => by rw [h.words]) (fun gn hgn => h.pageOf (hm.live gn hgn)) h.sound
    fun gn hgn => h.live (hm.live gn hgn)

theorem ready (hages : ∀ gn ∈ ages, (s.gens.status gn).IsLive) : ReadyToCopy params u ages where
  fresh := fun hmem => h.ne_toGn (hages _ hmem) rfl
  normal := h.normal
  recovering := h.recovering
  toPn := h.toPn
  noPage := by rw [h.page, Function.update_self]
  toPtr := h.toPtr
  copyStack := h.copyStack
  arrays := h.arrays
  diskPage := h.diskPage

theorem rootSlots_eq : u.rootSlots params = s.rootSlots params := by
  unfold rootSlots accuIsPtr
  rw [h.words, h.smartPtrs]

theorem firstRoots_eq : u.firstRoots params = s.firstRoots params := by
  simp [firstRoots, h.rootSlots_eq, h.words, h.allocationPtr]

theorem firstCell_eq : FirstCell params u = FirstCell params s := by
  funext p
  simp [FirstCell, liveRoots, h.rootSlots_eq, h.words, h.allocationPtr]

end Prepared

theorem FirstSound.fromSpace (hf : FirstSound params u rooted referred)
    (hm : MatureSound params u cells ages) (hr : ReadyToCopy params u ages)
    (hreferred : ∀ p, referred p → p ∈ u.cellsIn cells ages)
    (hstatus : ∀ gn ∈ ages, u.gens.status gn = .normal ∨ u.gens.status gn = .toBeCollected) :
    u.FromSpace params (FirstCell params u) (u.firstRoots params) where
  gens := hm.gens
  normal := hr.normal
  recovering := hr.recovering
  toPn := hr.toPn
  noPage := hr.noPage
  toPtr := hr.toPtr
  copyStack := hr.copyStack
  ok := hf.ok
  size_le := hf.size_le
  inside := fun hp ha => Nat.lt_of_lt_of_le ha.2 (hf.inside hp)
  elsewhere := fun hp ha => .inl (hf.allocated.trans (hp.ge.trans ha.1))
  apart := hf.apart
  fits := hf.fits
  allocated := hf.allocated
  collected := fun hp => .inl hp.ge
  refs := by
    intro p b hp hb
    refine (hf.target hp hb).imp_right fun ⟨hlt, hmem⟩ => ?_
    refine ⟨?_, fun p' hp' ha => Nat.not_lt.mpr (hp'.ge.trans ha.1) hlt⟩
    obtain ⟨gn, hgn, hmem⟩ := mem_single (hreferred _ hmem)
    refine (hstatus gn hgn).imp (fun hst => ?_) fun hst => ?_
    all_goals
      exact hm.inStatus hr.fresh (show ∀ g ∈ [gn], _ by simpa using ⟨hgn, hst⟩) hmem
  rootsNodup := (rootSlots_nodup hf.smartPtrs).filter _
  rootsOk := by
    intro b hb
    obtain ⟨hmem, hne, -⟩ := mem_firstRoots.mp hb
    exact ⟨hne, (hf.roots (mem_liveRoots.mpr ⟨hmem, hne⟩)).1, firstCell_of_root hb⟩
  rootsOutside := by
    intro b hb
    have hge := rootSlots_ge hf.smartPtrs (mem_firstRoots.mp hb).1
    refine ⟨.inl (Nat.le_trans (Nat.le_add_right _ _) hge), fun p hp ha => ?_⟩
    exact Nat.not_lt.mpr hge (Nat.lt_of_lt_of_le ha.2 (hf.inside hp))
  bcode := by
    intro p i hp hcont hnot hi
    have hslot := (hf.ok hp).bcode_slot hcont
    have hr' := hreferred _ ((hf.target hp hslot).resolve_left hnot).2
    have hdecls := cellDecls_bcode ((hf.ok hp).bcode hcont)
    have htwo := (hm.ok hr').two_le
    have hin : InsideCell u.words (wordToPtr (u.words (p + 1)))
        (wordToPtr (u.words (p + 1)) + i) := by
      refine ⟨Nat.le_add_right _ i, Nat.add_lt_add_left ?_ _⟩
      rcases hi with rfl | hi
      · omega
      · exact (hm.ok hr').inside (hdecls ▸ hi)
    have hlt := hm.lt_end hr' hin
    refine ⟨hm.elsewhere hr.fresh hr' hin, fun hroot => ?_, fun p' hp' ha => ?_⟩
    · have hge := rootSlots_ge hf.smartPtrs (mem_firstRoots.mp hroot).1
      exact Nat.not_lt.mpr (Nat.le_trans (Nat.le_add_right _ _) hge) hlt
    · exact Nat.not_lt.mpr (hf.allocated.trans (hp'.ge.trans ha.1)) hlt

theorem FirstSound.replacing (hf : FirstSound params u rooted referred)
    (hm : MatureSound params u cells ages) (hr : ReadyToCopy params u ages)
    (hnodup : ages.Nodup) (hreferred : ∀ p, referred p → p ∈ u.cellsIn cells ages)
    (hstatus : ∀ gn ∈ ages, u.gens.status gn = .normal ∨ u.gens.status gn = .toBeCollected) :
    Replacing params u cells (FirstCell params u) (u.firstRoots params) [] [] ages where
  collects := hf.fromSpace hm hr hreferred hstatus
  mature := hm
  fresh := hr.fresh
  arrays := hr.arrays
  diskPage := hr.diskPage
  reached := fun hp => hp.reached
  refs := fun hp hb => (hf.target hp hb).imp_right fun h => hreferred _ h.2
  nodup := hnodup
  source := fun hp => .inr (hf.allocated.trans hp.ge)
  remembered := nofun
  roots := fun hb => .inr (Nat.le_trans (Nat.le_add_right _ _)
    (rootSlots_ge hf.smartPtrs (mem_firstRoots.mp hb).1))

/-! ## the collection -/

/-- What holds between the steps of the collector, but for the first generation. -/
structure HeapSteady (params : HeapParams) (s : Heap) (cells : Nat → List Nat)
    (pre marked post : List Nat) : Prop where
  gens : Generations.Steady params.numberOfPages True s.gens [] pre marked post
  youngestGn : s.gens.youngestGn = (pre ++ (marked ++ post)).headD invalidGenerationNumber
  recovering : s.gens.isRecovering = false
  mature : MatureSound params s cells (Generations.phaseAges [] pre marked post)
  remembered : Remembered s cells pre marked

theorem HeapSteady.startGc (h : HeapSteady params s cells pre marked post) :
    HeapSteady params s.startGc cells pre marked post := by
  obtain ⟨⟨⟨froms, twice, hsound⟩, harrays, hphase⟩, hyoungest, hrecovering, hmature,
    hremembered⟩ := h
  exact {
    gens := ⟨⟨froms, twice, hsound.startGc⟩, { harrays with }, { hphase with }⟩
    youngestGn := hyoungest
    recovering := hrecovering
    mature := hmature.congr (fun _ _ => rfl) (fun _ _ => rfl) ⟨_, froms, twice, hsound.startGc⟩
      hmature.live
    remembered := { hremembered with } }

/-- A new generation is allocated.  Nothing has ever been remembered with it. -/
theorem HeapSteady.allocateGeneration (h : HeapSteady params s cells pre marked post) :
    Ends (s.allocateGeneration params)
      (fun t => ∃ g froms twice, t = { s with gens := g } ∧ s.gens.Taken g 0 ∧
        g.Sound params.numberOfPages True (Generations.phaseAges [] pre marked post) froms twice)
      (HeapFailure.Excused aborts) := by
  obtain ⟨⟨⟨froms, twice, hsound⟩, harrays, hphase⟩, -, -, -, hremembered⟩ := h
  unfold Heap.allocateGeneration
  have hallocate : Ends (Generations.allocateGeneration params.toGenerationParams s.gens) _ _ :=
    hsound.allocate hphase.idle
  refine (ends_withGens hallocate).bind ?_
  rintro _ ⟨g, ⟨htaken, hgsound⟩, rfl⟩
  refine ⟨g, _, _, ?_, htaken, hgsound⟩
  have hnot : g.toGn ∉ marked := by
    intro hmem
    have hfree := htaken.free
    simp [hphase.toBeCollected _ hmem] at hfree
  have hempty := hremembered.none _ hnot
  simp only [← hempty, Function.update_eq_self]

/-- The new generation is the youngest one. -/
theorem HeapSteady.insertYoungest (h : HeapSteady params s cells pre marked post) {g : Generations}
    {froms : Nat → List Nat} {twice : List Nat} (htaken : s.gens.startGc.Taken g 0)
    (hg : g.Sound params.numberOfPages True (Generations.phaseAges [] pre marked post) froms
      twice) :
    Prepared params s { s.startGc with
      gens := g.insertGenerationAfter invalidGenerationNumber
      copyStack := [] } ∧
    g.Relinked (g.insertGenerationAfter invalidGenerationNumber) ∧
    (g.insertGenerationAfter invalidGenerationNumber).youngestGn = g.toGn ∧
    (g.insertGenerationAfter invalidGenerationNumber).Sound params.numberOfPages True
      (Generations.phaseAges [] (g.toGn :: pre) marked post) froms twice := by
  obtain ⟨⟨⟨_, _, hsound⟩, harrays, -⟩, hyoungest, hrecovering, -, -⟩ := h
  have hfresh : g.toGn ∉ Generations.phaseAges [] pre marked post := fun hmem =>
    (hsound.ages.live _ hmem).ne_nonexistent htaken.free
  have hg : g.Sound params.numberOfPages True ([] ++ Generations.phaseAges [] pre marked post)
    froms twice := hg
  have harrays' : g.ArraysSound none := htaken.arrays { harrays with }
  obtain ⟨younger, older, hinsert, husound⟩ := hg.insert hfresh htaken.normal
    fun _ => htaken.youngestGn.trans hyoungest
  rw [List.getLastD_nil] at hinsert
  rw [hinsert]
  refine ⟨?_, ⟨rfl, rfl, rfl, rfl, rfl, rfl, rfl, rfl, rfl⟩, rfl, husound⟩
  exact {
    sound := ⟨_, _, _, husound⟩
    arrays := { harrays' with }
    free := htaken.free
    normal := htaken.normal
    live := fun hgn => (htaken.keep hgn.ne_nonexistent).symm ▸ hgn
    page := htaken.page
    diskPage := by simp [htaken.diskPage]
    recovering := htaken.isRecovering.trans hrecovering
    toPn := htaken.toPn
    toPtr := ⟨rfl, rfl⟩
    copyStack := rfl
    words := rfl
    allocationPtr := rfl
    smartPtrs := rfl
    remSets := rfl }

/-- What there is when the first generation has been collected. -/
structure FirstCollected (params : HeapParams) (s : Heap) (cells : Nat → List Nat)
    (pre marked post : List Nat) (u : Heap) (c : CopyState) (t : Heap) : Prop where
  prepared : Prepared params s u
  replacing : Replacing params u cells (FirstCell params s) (s.firstRoots params) [] []
    (Generations.phaseAges [] pre marked post)
  collected : Collected params u (FirstCell params s) (s.firstRoots params) s.remSets c t
  steady : HeapSteady params t (cellsAfter cells c t) (t.gens.toGn :: pre) marked post

/-- The cells of the first generation that can be reached become the youngest generation. -/
theorem HeapSteady.collectFirstGeneration (h : HeapSteady params s cells pre marked post)
    (hf : FirstSound params s rooted referred)
    (hrooted : ∀ p, rooted p → p ∈ s.cellsIn cells (Generations.phaseAges [] pre marked post))
    (hreferred : ∀ p, referred p →
      p ∈ s.cellsIn cells (Generations.phaseAges [] pre marked post))
    (diskPages : Nat → Nat) :
    Ends (s.collectFirstGeneration params diskPages)
      (fun r => ∃ u c, FirstCollected params s cells pre marked post u c r.2)
      (HeapFailure.Excused (∃ p, FirstCell params s p ∧ Decl.abort ∈ cellDecls s.words p)) := by
  unfold Heap.collectFirstGeneration
  refine h.startGc.allocateGeneration.bind ?_
  rintro _ ⟨g, froms, twice, rfl, htaken, hgsound⟩
  obtain ⟨hprepared, hrelinked, huyoungest, husound⟩ := h.insertYoungest htaken hgsound
  -- the state before copying
  obtain ⟨u, hu⟩ : ∃ u, u = { s.startGc with
    gens := g.insertGenerationAfter invalidGenerationNumber
    copyStack := [] } := ⟨_, rfl⟩
  have hgens : g.insertGenerationAfter invalidGenerationNumber = u.gens := by rw [hu]
  simp only [← hu] at hprepared ⊢
  rw [hgens] at hrelinked huyoungest husound
  clear hgens hu hgsound
  obtain ⟨⟨⟨_, _, hsound⟩, -, hphase⟩, -, -, hmature, hremembered⟩ := h
  have hlive := hsound.ages.live
  have hkeep : ∀ gn ∈ Generations.phaseAges [] pre marked post,
      u.gens.status gn = s.gens.status gn := fun gn hgn =>
    hrelinked.status ▸ htaken.keep (hlive gn hgn).ne_nonexistent
  have hcells : u.cellsIn cells _ = s.cellsIn cells _ := hprepared.cellsIn_eq hlive
  have hmatureU := hprepared.mature hmature
  have hready := hprepared.ready hlive
  have hfU := hf.congr hprepared.words hprepared.allocationPtr hprepared.smartPtrs
  have hphaseU : ∀ gn ∈ Generations.phaseAges [] pre marked post,
      u.gens.status gn = .normal ∨ u.gens.status gn = .toBeCollected := by
    intro gn hgn
    rw [hkeep gn hgn]
    simp only [Generations.phaseAges, List.nil_append, List.mem_append] at hgn
    rcases hgn with hgn | hgn | hgn
    · exact .inl (hphase.normal gn (by simp [hgn]))
    · exact .inr (hphase.toBeCollected gn hgn)
    · exact .inl (hphase.normal gn (by simp [hgn]))
  have hreplacing := hfU.replacing hmatureU hready hsound.ages.nodup (hcells ▸ hreferred) hphaseU
  have hspace := hreplacing.collects
  have haborts : ∀ p, FirstCell params u p → Decl.abort ∈ cellDecls u.words p →
      ∃ p, FirstCell params s p ∧ Decl.abort ∈ cellDecls s.words p := by
    rw [hprepared.firstCell_eq, hprepared.words]
    exact fun p hp habort => ⟨p, hp, habort⟩
  have hscanning : Scanning params u (FirstCell params u) (u.firstRoots params) u.remSets
      (u.firstRoots params) u (.start (u.firstRoots params) u.remSets) :=
    ⟨hspace.start, rfl, Nat.zero_add _, rfl⟩
  refine Ends.bind ((hscanning.scanRoots hspace
    (fun b => decide (u.allocationPtr ≤ wordToPtr (u.words b))) ?_ ?_ ?_).mono
      (fun _ => id) fun _ he => he.excused haborts) ?_
  · intro pp hpp hne c s' hcopying
    have htarget := (hfU.roots (mem_liveRoots.mpr ⟨hpp, hne⟩)).2
    refine hcopying.isInFirstGeneration (htarget.imp_right fun hrooted' => ?_)
    have hmem := hcells ▸ hrooted _ hrooted'
    exact hmatureU.lt_end hmem (hmatureU.self_inside hmem)
  · intro pp hpp
    rw [mem_firstRoots, decide_eq_true_iff]
    exact and_iff_right hpp
  · intro pp hpp
    have hge := rootSlots_ge hfU.smartPtrs hpp
    refine ⟨.inl (Nat.le_trans (Nat.le_add_right _ _) hge), fun p hp ha => ?_⟩
    exact Nat.not_lt.mpr hge (Nat.lt_of_lt_of_le ha.2 (hfU.inside hp))
  · rintro v ⟨c, hv⟩
    refine Ends.bind_bind ((hv.finish hspace hready.arrays hready.diskPage diskPages).mono
      (fun _ => id) fun _ he => he.excused haborts) ?_
    rintro w ⟨c', hw⟩
    refine ⟨u, c', hprepared, ?_, ?_, ?_⟩
    · rwa [hprepared.firstCell_eq, hprepared.firstRoots_eq] at hreplacing
    · rwa [hprepared.firstCell_eq, hprepared.firstRoots_eq, hprepared.remSets] at hw
    · have hto : w.gens.toGn = g.toGn := hw.course.toGn.trans hrelinked.toGn
      have hrememberedU := hmature.remembered_congr hremembered (t := u)
        (fun gn hgn => by simp [Generations.phaseAges, hgn])
        (fun gn hgn => by simp [Generations.phaseAges, hgn]) (fun _ _ => by rw [hprepared.words])
        (fun gn hgn => hprepared.pageOf (hlive gn hgn)) hprepared.remSets
      have hmarked : ∀ {gn}, u.gens.status gn = .toBeCollected ↔ gn ∈ marked := by
        intro gn
        constructor
        · intro hgn
          have hnormal : ∀ g ∈ pre ++ post, u.gens.status g = .normal := by
            intro g hg
            have hg' : g ∈ Generations.phaseAges [] pre marked post := by
              simp only [Generations.phaseAges, List.mem_append] at hg ⊢
              tauto
            rw [hkeep g hg']
            exact hphase.normal g hg
          have hmem := husound.ages.marked hgn
          simp only [Generations.phaseAges, List.nil_append, List.cons_append, List.mem_cons,
            List.mem_append] at hmem
          rcases hmem with rfl | hmem | hmem | hmem
          · rw [← hrelinked.toGn, hprepared.normal] at hgn
            cases hgn
          · rw [hnormal gn (by simp [hmem])] at hgn
            cases hgn
          · exact hmem
          · rw [hnormal gn (by simp [hmem])] at hgn
            cases hgn
        · intro hgn
          rw [hkeep gn (by simp [Generations.phaseAges, hgn])]
          exact hphase.toBeCollected gn hgn
      exact {
        gens := by
          rw [hto]
          exact hphase.add htaken (hw.status.trans hrelinked.status)
            (by rw [hw.course.isCollecting, hrelinked.isCollecting, htaken.isCollecting]; rfl)
            (by rw [hw.course.prevToGn, hrelinked.prevToGn, htaken.prevToGn]; rfl)
            (hw.sound husound) hw.arrays
        youngestGn := by
          rw [hw.course.youngestGn, huyoungest, ← hto]
          rfl
        recovering := hw.course.isRecovering.trans hprepared.recovering
        mature := hreplacing.matureSound hw
        remembered := hreplacing.rememberedAfter hw (fun gn hgn => by
            simp [Generations.phaseAges, hgn]) (fun _ => List.mem_cons)
          (fun gn hgn => by simp [Generations.phaseAges, hgn]) hmarked hrememberedU.nodup
          hrememberedU.mem hrememberedU.none }

end Heap

end Shades
