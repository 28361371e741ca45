import Shades.Gc.Preserved

/-!
# Shades.Gc.MajorStep

A step of the mature collection.

The oldest generations that are left are not touched, the ones that are chosen are replaced by
their cells that can be reached, and the slots of younger generations and of the root set
follow them.
-/

namespace Shades

namespace Heap

variable {params : HeapParams} {s t u v w : Heap} {rooted referred : Nat → Prop}
  {cells rems : Nat → List Nat} {ages pre gns rest marked post : List Nat} {c : CopyState}
  {p q a b gn : Nat} {aborts : Prop}

/-! ## the first generation -/

namespace MajorReady

variable (h : MajorReady params u cells referred pre gns rest)
  (hc : Collected params u (MajorCell params u cells gns) (u.majorRoots params gns) rems c w)
include h hc

/-- The first generation is as it was. -/
theorem move_first (ha : params.firstGenerationEnd ≤ a) : c.move a = a := by
  refine hc.move_of_not fun q hq hin => ?_
  have hlt := h.mature.lt_end (of_gns (hc.cells q hq).mem) hin
  exact Nat.not_lt.mpr ha hlt

theorem word_first (ha : params.firstGenerationEnd ≤ a) (hlt : a < params.firstGenerationStart) :
    w.words a = u.words a := by
  refine hc.other (.inl ha) (fun hroot => ?_) fun q hq hin => ?_
  · rcases h.root_place hroot with ⟨p, hp, hslot⟩ | hge
    · obtain ⟨hle, hle'⟩ := (h.mature.ok (of_pre hp)).slot_bounds hslot
      have hend := h.mature.lt_end (of_pre hp) ⟨Nat.le_of_lt hle, hle'⟩
      exact Nat.not_lt.mpr ha hend
    · exact Nat.not_lt.mpr hge hlt
  · have hend := h.mature.lt_end (of_gns (hc.cells q hq).mem) hin
    exact Nat.not_lt.mpr ha hend

/-- All cells that are left. -/
theorem relocated (hreferred : ∀ {p}, referred p → p ∈ u.cellsIn cells pre) :
    Relocated c.move u.words w.words fun p =>
      FirstCell params u p ∨ Replacing.Live u cells (MajorCell params u cells gns) pre rest p := by
  have hrel := h.replacing.relocated hc
  have hge : ∀ {p}, FirstCell params u p → params.firstGenerationEnd ≤ p := fun hp =>
    h.first.allocated.trans hp.ge
  have hstay : ∀ {p b}, FirstCell params u p → b ∈ slots u.words p →
      c.move (wordToPtr (u.words b)) = wordToPtr (u.words b) ∧
        (FirstCell params u (wordToPtr (u.words b)) ∨
          Replacing.Live u cells (MajorCell params u cells gns) pre rest
            (wordToPtr (u.words b))) := by
    intro p b hp hb
    rcases h.first.target hp hb with htarget | htarget
    · exact ⟨h.move_first hc (hge htarget), .inl htarget⟩
    · have hmem := cellsIn_subset (List.subset_append_left _ rest) (hreferred htarget.2)
      exact ⟨h.replacing.move_self hc hmem, .inr (.inr hmem)⟩
  constructor
  case moved =>
    rintro p (hp | hp)
    · have hok := h.first.ok hp
      have hinside := h.first.inside hp
      have htwo := hok.two_le
      refine ⟨?_, fun {type i} hmem => ?_⟩
      · rw [h.move_first hc (hge hp), h.word_first hc (hge hp) (by omega)]
      · have hlt := hok.inside hmem
        rw [h.move_first hc (hge hp), h.word_first hc (by have := hge hp; omega) (by omega)]
        cases hrefers : type.refers (u.words (p + i)) with
        | false => rw [movedWord_of_not_refers hrefers]
        | true =>
          have hslot : p + i ∈ slots u.words p := mem_slots.mpr ⟨type, i, hmem, hrefers, rfl⟩
          have haligned := hok.aligned _ hslot
          rw [movedWord_of_refers hrefers haligned, (hstay hp hslot).1, haligned]
    · exact hrel.moved hp
  case ok =>
    rintro p (hp | hp)
    · exact h.first.ok hp
    · exact hrel.ok hp
  case closed =>
    rintro p b (hp | hp) hb
    · exact (hstay hp hb).2
    · exact .inr (hrel.closed hp hb)
  case ne_null =>
    rintro p (hp | hp)
    · rw [h.move_first hc (hge hp)]
      exact h.first.ne_null hp
    · exact hrel.ne_null hp

theorem rootsMoved : RootsMoved params u w c.move := by
  refine h.replacing.rootsMoved hc h.first.smartPtrs (fun b hb hge => ?_) fun b hb hroot => ?_
  · have hend := Nat.le_trans (Nat.le_add_right params.firstGenerationEnd _) hge
    exact (mem_selectedRoots.mp (h.selected_of_ge hb hend)).1
  · have haligned := (h.first.roots hb).1
    rcases h.root_cases hb with htarget | htarget | htarget
    · rw [h.move_first hc (h.first.allocated.trans htarget.ge), haligned]
    · exact absurd (mem_majorRoots.mpr (.inr (h.selected hb htarget.mem))) hroot
    · rw [h.replacing.move_self hc htarget, haligned]

/-- The first generation refers to the younger generations, as before. -/
theorem firstSound (hreferred : ∀ {p}, referred p → p ∈ u.cellsIn cells pre) :
    FirstSound params w
        (· ∈ w.cellsIn (cellsAfter cells c w) (pre ++ w.gens.toGn :: rest))
        (· ∈ w.cellsIn (cellsAfter cells c w) pre) ∧
      ∀ {p}, FirstCell params w p → FirstCell params u p := by
  have hrel := h.relocated hc hreferred
  have hmoved := h.rootsMoved hc
  have hge : ∀ {p}, FirstCell params u p → params.firstGenerationEnd ≤ p := fun hp =>
    h.first.allocated.trans hp.ge
  have hmove : ∀ {p}, FirstCell params u p → c.move p = p := fun hp => h.move_first hc (hge hp)
  have hsize : ∀ {p}, FirstCell params u p →
      cellGetNumberOfWords w.words p = cellGetNumberOfWords u.words p := by
    intro p hp
    have hsize := (hrel.moved (.inl hp)).numberOfWords
    rwa [hmove hp] at hsize
  have hm := h.replacing.matureSound hc
  have hbelow : ∀ {p}, p ∈ w.cellsIn (cellsAfter cells c w) (pre ++ w.gens.toGn :: rest) →
      p < w.allocationPtr := fun hp =>
    Nat.lt_of_lt_of_le (hm.lt_end hp (hm.self_inside hp)) (hc.allocationPtr ▸ h.first.allocated)
  refine FirstSound.of_closed (hc.allocationPtr ▸ h.first.allocated)
    (hc.smartPtrs ▸ h.first.smartPtrs) ?_ ?_ ?_ ?_ ?_ ?_
  case refine_1 =>
    intro b hb
    have hold := hmoved.mem_liveRoots hb
    rw [hmoved.live b hold, wordToPtr_ptrToWord]
    refine ⟨rfl, (h.root_cases hold).imp (fun htarget => ?_) fun htarget => ?_⟩
    · exact (hmove htarget).symm ▸ htarget
    · have hmem := (h.replacing.mem_iff hc).mpr ⟨_, htarget, rfl⟩
      exact ⟨hbelow hmem, hmem⟩
  case refine_2 =>
    intro p hp
    have hok := hrel.cellOk (.inl hp)
    rwa [hmove hp] at hok
  case refine_3 => exact fun hp => hsize hp ▸ h.first.size_le hp
  case refine_4 =>
    intro p hp
    exact ⟨hc.allocationPtr ▸ hp.ge, hsize hp ▸ h.first.inside hp⟩
  case refine_5 =>
    rintro p q a hp hq ⟨hle, hlt⟩ ⟨hle', hlt'⟩
    rw [hsize hp] at hlt
    rw [hsize hq] at hlt'
    exact h.first.apart hp hq ⟨hle, hlt⟩ ⟨hle', hlt'⟩
  case refine_6 =>
    intro p b hp hb
    rw [← hmove hp] at hb
    obtain ⟨b', hb', rfl, htarget⟩ := (hrel.mem_slots_iff (.inl hp)).mp hb
    rw [htarget]
    refine (h.first.target hp hb').imp (fun hfirst => ?_) fun ⟨_, hmem⟩ => ?_
    · exact (hmove hfirst).symm ▸ hfirst
    · have hmem := hreferred hmem
      rw [h.replacing.move_self hc (mem_cellsIn_append.mpr (.inl hmem))]
      rw [← h.replacing.cellsIn_eq hc (List.subset_append_left _ _)] at hmem
      exact ⟨hbelow (mem_cellsIn_append.mpr (.inl hmem)), hmem⟩

end MajorReady

/-! ## scanning -/

/-- Only what is in the generations that are collected is followed. -/
theorem MajorReady.isBeingCollected (h : MajorReady params u cells referred pre gns rest)
    (hs : Copying params u (MajorCell params u cells gns) (u.majorRoots params gns) c s)
    (hb : b ∈ u.liveRoots params) :
    s.isBeingCollected params (wordToPtr (u.words b)) =
      .ok (u.inGenerations params gns (wordToPtr (u.words b))) := by
  have hspace := h.fromSpace
  unfold Heap.isBeingCollected
  rcases (h.first.roots hb).2 with hge | hmem
  · rw [hs.isInFirstGeneration (.inl hge), decide_eq_true hge]
    refine congrArg Except.ok (Eq.symm ?_)
    rw [Bool.not_true, Bool.false_and, Bool.eq_false_iff, ne_eq, inGenerations_iff]
    rintro ⟨gn, hgn, hpn⟩
    have hlt := (h.mature.allocated (by simp [hgn]) hpn).1
    exact Nat.not_lt.mpr (numberOfPages_le (h.first.allocated.trans hge)) hlt
  · have hlt := h.mature.lt_end hmem (h.mature.self_inside hmem)
    have hnot : ¬ u.allocationPtr ≤ wordToPtr (u.words b) :=
      Nat.not_le.mpr (Nat.lt_of_lt_of_le hlt h.first.allocated)
    rw [hs.isInFirstGeneration (.inr hlt), decide_eq_false hnot]
    obtain ⟨gn, hgn, pn, hpn, hcell⟩ := mem_cellsIn.mp hmem
    have hpage := h.mature.pageNumber hgn hpn hcell (h.mature.self_inside hmem)
    obtain ⟨-, hstatus⟩ := hs.generationOf hspace (h.mature.live gn hgn) (hpage.symm ▸ hpn)
    refine congrArg Except.ok ?_
    rw [Bool.not_false, Bool.true_and, hstatus, Bool.eq_iff_iff, decide_eq_true_iff,
      inGenerations_iff, hpage]
    constructor
    · intro hbeing
      refine ⟨gn, ?_, hpn⟩
      simp only [List.mem_append] at hgn
      by_contra hnot
      have hother := h.others gn (by simp only [List.mem_append]; tauto)
      simp [hbeing] at hother
    · rintro ⟨g, hg, hpn'⟩
      obtain rfl := h.mature.page_unique hgn (by simp [hg]) hpn hpn'
      exact h.being gn hg

/-- What is collected has been copied before. -/
theorem MajorReady.not_abort (h : MajorReady params u cells referred pre gns rest) (p : Nat)
    (hp : MajorCell params u cells gns p) (habort : Decl.abort ∈ cellDecls u.words p) : aborts :=
  absurd habort (h.mature.declared (of_gns hp.mem))

/-- The remembered sets of the generations are scanned. -/
theorem MajorReady.scanRemSets (h : MajorReady params u cells referred pre gns rest)
    (hchain : gns.IsChain fun g g' => u.gens.older g = g') {m : Nat} (hm : gns.head? = some m) :
    Ends (u.scanRemSets params gns.length m)
      (fun t => t.rootSlots params = u.rootSlots params ∧
        ∃ c, Scanning params u (MajorCell params u cells gns) (u.majorRoots params gns)
          (fun g => if g ∈ gns then [] else u.remSets g) (u.selectedRoots params gns) t c)
      (HeapFailure.Excused aborts) := by
  have hspace := h.fromSpace
  have hstart : Scanning params u (MajorCell params u cells gns) (u.majorRoots params gns) u.remSets
      (gns.flatMap u.remSets ++ u.selectedRoots params gns) u
        (.start (u.majorRoots params gns) u.remSets) :=
    ⟨hspace.start, rfl, Nat.zero_add _, rfl⟩
  have hnodup : gns.Nodup := (List.nodup_append.mp (List.nodup_append.mp h.nodup).2.1).1
  refine (hstart.scanRemSets hspace h.being hnodup hchain (fun gn hgn b hb => ?_)
    (.inr hm)).mono ?_ fun _ he => he.excused h.not_abort
  · refine ⟨mem_majorRoots.mpr (.inl ⟨gn, hgn, hb⟩), ?_⟩
    have hmem := (h.remembered_slot hgn hb).2
    obtain ⟨pn, hpn, hcell⟩ := mem_cellsIn_singleton.mp hmem
    have hself := h.mature.self_inside (of_gns (cellsIn_of_mem hgn hmem))
    rwa [h.mature.pageNumber (by simp [hgn]) hpn hcell hself]
  · rintro t ⟨c, ht⟩
    have hge : ∀ r, params.firstGenerationStart ≤ params.rootSlot r := fun r =>
      Nat.le_trans params.root_ge (Nat.le_add_right _ _)
    -- no slot of the root set has been followed yet
    have hword : ∀ r, t.words (params.rootSlot r) = u.words (params.rootSlot r) := by
      intro r
      have hend := Nat.le_trans (Nat.le_add_right params.firstGenerationEnd _) (hge r)
      by_cases hroot : params.rootSlot r ∈ u.majorRoots params gns
      · have hleft := h.selected_of_ge hroot hend
        have hword := ht.copying.pending hspace (b := params.rootSlot r) (by simp [ht.left_eq, hleft])
        rwa [ht.copying.move_root hspace hroot] at hword
      · refine ht.copying.untouched hspace (.inl hend) hroot fun p hp ha => ?_
        exact Nat.not_lt.mpr hend (h.mature.lt_end (of_gns hp.mem) ha)
    refine ⟨?_, c, ht⟩
    exact rootSlots_congr (hword _) (.inl (hword _)) ht.copying.smartPtrs

theorem MajorReady.scanRoots (h : MajorReady params u cells referred pre gns rest)
    (ht : Scanning params u (MajorCell params u cells gns) (u.majorRoots params gns) rems
      (u.selectedRoots params gns) t c) :
    Ends ((u.rootSlots params).foldlM (scanRoot params (Heap.isBeingCollected params)) t)
      (fun v => ∃ c', Scanning params u (MajorCell params u cells gns) (u.majorRoots params gns)
        rems [] v c')
      (HeapFailure.Excused aborts) := by
  have hspace := h.fromSpace
  have hend : ∀ {b}, b ∈ u.rootSlots params → params.firstGenerationEnd ≤ b := fun hb =>
    Nat.le_trans (Nat.le_add_right _ _) (rootSlots_ge h.first.smartPtrs hb)
  refine (ht.scanRoots hspace
    (fun b => u.inGenerations params gns (wordToPtr (u.words b))) ?_ ?_ ?_).mono (fun _ => id)
      fun _ he => he.excused h.not_abort
  · intro b hb hne c' s' hcopying
    exact h.isBeingCollected hcopying (mem_liveRoots.mpr ⟨hb, hne⟩)
  · intro b hb
    have hiff : b ∈ u.majorRoots params gns ↔ b ∈ u.selectedRoots params gns :=
      ⟨fun hroot => h.selected_of_ge hroot (hend hb), fun hroot => mem_majorRoots.mpr (.inr hroot)⟩
    rw [hiff, mem_selectedRoots]
    exact and_iff_right hb
  · intro b hb
    refine ⟨.inl (hend hb), fun p hp ha => ?_⟩
    exact Nat.not_lt.mpr (hend hb) (h.mature.lt_end (of_gns hp.mem) ha)

/-! ## the step -/

/-- What can be reached in the first generation are descriptions of generations. -/
def OnlyPinfos (params : HeapParams) (s : Heap) : Prop :=
  ∀ p, FirstCell params s p → cellTypeOf (s.words p) = some .generationPinfo

/-- Another one is written. -/
theorem Logged.onlyPinfos (h : Logged params s t) (hf : FirstSound params s rooted referred)
    (hcells : ∀ {p}, FirstCell params t p → p = t.allocationPtr ∨ FirstCell params s p)
    (hpinfos : OnlyPinfos params s) : OnlyPinfos params t := by
  intro p hp
  rcases hcells hp with rfl | hp
  · exact h.header
  · have htwo := (hf.ok hp).two_le
    have hinside := hf.inside hp
    have hroot : params.firstGenerationStart ≤ params.rootSlot .generationPinfoList :=
      Nat.le_trans params.root_ge (Nat.le_add_right _ _)
    rw [h.other (by omega) (.inr hp.ge)]
    exact hpinfos p hp

/-- What holds between the steps of a commit.  There are only descriptions in the first
generation, and what they refer to is not collected in this commit. -/
structure MajorSteady (params : HeapParams) (s : Heap) (cells : Nat → List Nat)
    (pre marked post : List Nat) : Prop where
  steady : HeapSteady params s cells pre marked post
  first : FirstSound params s (· ∈ s.cellsIn cells (Generations.phaseAges [] pre marked post))
    (· ∈ s.cellsIn cells pre)
  allocated : s.allocationPtr ≤ params.firstGenerationStart
  list : s.words (params.rootSlot .generationPinfoList) ≠ nullWord →
    s.allocationPtr ≤ wordToPtr (s.words (params.rootSlot .generationPinfoList))
  user : ∀ b ∈ s.userRoots params, s.words b ≠ nullWord →
    wordToPtr (s.words b) ∈ s.cellsIn cells (Generations.phaseAges [] pre marked post)
  pinfos : OnlyPinfos params s

/-- The generations that are collected have been chosen. -/
theorem HeapSteady.prepared (h : HeapSteady params s cells pre (gns ++ marked) post)
    (hchosen : s.gens.Chosen params.toGenerationParams True v.gens pre gns marked post)
    (hv : v = { s with
      gens := v.gens
      toPtr := nullPtr
      toEnd := nullPtr
      copyStack := [] }) : Prepared params s v where
  sound := ⟨_, hchosen.sound⟩
  arrays := hchosen.arrays
  free := hchosen.free
  normal := hchosen.normal_toGn
  live := hchosen.live
  page := hchosen.page
  diskPage := hchosen.diskPage
  recovering := hchosen.isRecovering.trans h.recovering
  toPn := hchosen.toPn
  toPtr := by rw [hv]; exact ⟨rfl, rfl⟩
  copyStack := by rw [hv]
  words := by rw [hv]
  allocationPtr := by rw [hv]
  smartPtrs := by rw [hv]
  remSets := by rw [hv]

theorem MajorSteady.majorReady (h : MajorSteady params s cells pre (gns ++ marked) post)
    (hchosen : s.gens.Chosen params.toGenerationParams True u.gens pre gns marked post)
    (hprepared : Prepared params s u) :
    MajorReady params u cells (· ∈ u.cellsIn cells pre) pre gns (marked ++ post) := by
  obtain ⟨⟨⟨⟨_, _, hsound⟩, -, -⟩, -, -, hmature, hremembered⟩, hfirst, -, -, -, -⟩ := h
  have hages : Generations.phaseAges [] pre (gns ++ marked) post = pre ++ (gns ++ (marked ++ post)) := by
    simp [Generations.phaseAges]
  rw [hages] at hsound hmature hfirst
  have hlive := hsound.ages.live
  have hmatureU := hprepared.mature hmature
  have hpre : u.cellsIn cells pre = s.cellsIn cells pre :=
    hprepared.cellsIn_eq fun gn hgn => hlive gn (by simp [hgn])
  have hall : u.cellsIn cells _ = s.cellsIn cells _ := hprepared.cellsIn_eq hlive
  exact {
    ready := hprepared.ready hlive
    mature := hmatureU
    nodup := hsound.ages.nodup
    being := fun gn hgn => (hchosen.being gn).mpr hgn
    others := by
      intro gn hgn
      simp only [List.mem_append] at hgn
      rcases hgn with hgn | hgn | hgn
      · exact .inl (hchosen.normal gn (by simp [hgn]))
      · exact .inr (hchosen.toBeCollected gn hgn)
      · exact .inl (hchosen.normal gn (by simp [hgn]))
    remembered := ⟨gns ++ marked, List.subset_append_left _ _,
      hmature.remembered_congr hremembered (fun gn hgn => by simp [hgn])
        (fun gn hgn => by simp only [List.mem_append] at hgn ⊢; tauto)
        (fun _ _ => by rw [hprepared.words]) (fun gn hgn => hprepared.pageOf (hlive gn hgn))
        hprepared.remSets⟩
    fits := hmatureU.fits_gns hchosen.arrays (fun gn hgn => by simp [hgn]) hchosen.fits
    first := by
      rw [hall, hpre]
      exact hfirst.congr hprepared.words hprepared.allocationPtr hprepared.smartPtrs }

/-- A program finds what it holds after a step. -/
theorem MajorSteady.keptStep (h : MajorSteady params s cells pre (gns ++ marked) post)
    (hprepared : Prepared params s u)
    (hready : MajorReady params u cells (· ∈ u.cellsIn cells pre) pre gns (marked ++ post))
    (hc : Collected params u (MajorCell params u cells gns) (u.majorRoots params gns) rems c w) :
    Kept params s w c.move ∧ ∀ b ∈ w.userRoots params, w.words b ≠ nullWord →
      wordToPtr (w.words b) ∈
        w.cellsIn (cellsAfter cells c w) (pre ++ w.gens.toGn :: (marked ++ post)) := by
  have hroots := hprepared.rootsMoved (hready.rootsMoved hc)
  have hlive : ∀ b ∈ s.userRoots params, s.words b ≠ nullWord →
      Replacing.Live u cells (MajorCell params u cells gns) pre (marked ++ post)
        (wordToPtr (s.words b)) := by
    intro b hb hne
    have hmem := h.user b hb hne
    have hbelow := h.steady.mature.lt_end hmem (h.steady.mature.self_inside hmem)
    rw [← hprepared.words] at hne hbelow ⊢
    have hroot : b ∈ u.liveRoots params :=
      mem_liveRoots.mpr ⟨hprepared.rootSlots_eq ▸ (mem_userRoots.mp hb).1, hne⟩
    refine (hready.root_cases hroot).resolve_left fun hfirst => ?_
    exact Nat.not_lt.mpr (hready.first.allocated.trans hfirst.ge) hbelow
  have hpreserved := hready.replacing.preserved hc
  rw [hprepared.words] at hpreserved
  refine ⟨.of_preserved hpreserved hroots.user hlive, fun b hb hne => ?_⟩
  rw [hroots.user.mem_userRoots] at hb
  have hold : s.words b ≠ nullWord := mt (hroots.user.null b hb) hne
  rw [hroots.user.live b hb hold, wordToPtr_ptrToWord]
  exact (hready.replacing.mem_iff hc).mpr ⟨_, hlive b hb hold, rfl⟩

theorem MajorSteady.rememberedStep (h : MajorSteady params s cells pre (gns ++ marked) post)
    (hchosen : s.gens.Chosen params.toGenerationParams True u.gens pre gns marked post)
    (hprepared : Prepared params s u)
    (hready : MajorReady params u cells (· ∈ u.cellsIn cells pre) pre gns (marked ++ post))
    (hc : Collected params u (MajorCell params u cells gns) (u.majorRoots params gns)
      (fun gn => if gn ∈ gns then [] else u.remSets gn) c w) :
    Remembered w (cellsAfter cells c w) (pre ++ [w.gens.toGn]) marked := by
  obtain ⟨⟨⟨⟨_, _, hsound⟩, -, -⟩, -, -, hmature, hremembered⟩, -, -, -, -, -⟩ := h
  have hnodup := hready.nodup
  have hremembered : Remembered u cells pre (gns ++ marked) :=
    hmature.remembered_congr hremembered (fun gn hgn => by simp [Generations.phaseAges, hgn])
      (fun gn hgn => by
        simp only [Generations.phaseAges, List.mem_append] at hgn ⊢
        tauto)
      (fun _ _ => by rw [hprepared.words])
      (fun gn hgn => hprepared.pageOf (hsound.ages.live gn hgn)) hprepared.remSets
  have hout : ∀ {gn}, gn ∈ marked → gn ∉ gns := fun hgn hmem =>
    (List.nodup_append.mp (List.nodup_append.mp hnodup).2.1).2.2 _ hmem _ (by simp [hgn]) rfl
  refine hready.replacing.rememberedAfter hc (List.subset_append_left pre _)
    (fun g => ?_) (List.subset_append_left _ _) hchosen.marked_iff (fun gn => ?_)
    (fun {gn} hgn {b} => ?_) fun gn hgn => ?_
  · rw [List.mem_append, List.mem_singleton, or_comm]
  · split
    · exact List.nodup_nil
    · exact hremembered.nodup gn
  · rw [if_neg (hout hgn)]
    exact hremembered.mem (List.mem_append_right _ hgn)
  · split
    case isTrue => rfl
    case isFalse hnot => exact hremembered.none gn (by simp [hnot, hgn])

/-- What is known after the cells have been copied and the description has been written.  Only
the generations are changed from then on. -/
theorem MajorSteady.afterStep {x : Heap} {g : Generations}
    (h : MajorSteady params s cells pre (gns ++ marked) post)
    (hchosen : s.gens.Chosen params.toGenerationParams True u.gens pre gns marked post)
    (hprepared : Prepared params s u)
    (hc : Collected params u (MajorCell params u cells gns) (u.majorRoots params gns)
      (fun gn => if gn ∈ gns then [] else u.remSets gn) c w)
    (hx : Logged params w x)
    (hsteady : Generations.Steady params.numberOfPages True g [] (pre ++ [u.gens.toGn]) marked post)
    (hyoungest : g.youngestGn =
      (pre ++ [u.gens.toGn] ++ (marked ++ post)).headD invalidGenerationNumber)
    (hrecovering : g.isRecovering = false)
    (hpage : ∀ gn ∉ gns, g.page gn = w.gens.page gn) :
    MajorSteady params { x with gens := g } (cellsAfter cells c w) (pre ++ [u.gens.toGn]) marked
        post ∧
      Kept params s { x with gens := g } c.move := by
  have hready := h.majorReady hchosen hprepared
  have hreplacing := hready.replacing
  obtain ⟨hkept, huser⟩ := h.keptStep hprepared hready hc
  have hremembered := h.rememberedStep hchosen hprepared hready hc
  obtain ⟨hfirst, hcells'⟩ := hready.firstSound hc fun hp => hp
  have hto : w.gens.toGn = u.gens.toGn := hc.course.toGn
  have hages : Generations.phaseAges [] (pre ++ [u.gens.toGn]) marked post =
      pre ++ w.gens.toGn :: (marked ++ post) := by
    rw [hto]
    simp [Generations.phaseAges]
  have hmatureW := hreplacing.matureSound hc
  have hallocated : w.allocationPtr ≤ params.firstGenerationStart := by
    rw [hc.allocationPtr, hprepared.allocationPtr]
    exact h.allocated
  have hsmart : SmartPtrsOk params w.smartPtrs := hc.smartPtrs ▸ hready.first.smartPtrs
  have hwords : ∀ a < params.firstGenerationEnd, x.words a = w.words a := fun a => hx.word_eq
  have hpages : ∀ gn ∈ pre ++ w.gens.toGn :: (marked ++ post), g.page gn = w.gens.page gn := by
    intro gn hgn
    refine hpage gn fun hmem => ?_
    obtain ⟨-, hnodup, hpre⟩ := List.nodup_append.mp hready.nodup
    simp only [List.mem_append, List.mem_cons] at hgn
    rcases hgn with hgn | rfl | hgn
    · exact hpre gn hgn gn (by simp [hmem]) rfl
    · exact hready.ready.fresh (hto ▸ by simp [hmem])
    · exact (List.nodup_append.mp hnodup).2.2 gn hmem gn (by simpa using hgn) rfl
  have hcells : ∀ {gns'}, gns' ⊆ pre ++ w.gens.toGn :: (marked ++ post) →
      Heap.cellsIn { x with gens := g } (cellsAfter cells c w) gns' =
        w.cellsIn (cellsAfter cells c w) gns' := fun hsub =>
    List.flatMap_congr fun gn hgn => by rw [hpages gn (hsub hgn)]
  have hmature : MatureSound params { x with gens := g } (cellsAfter cells c w)
      (Generations.phaseAges [] (pre ++ [u.gens.toGn]) marked post) := by
    obtain ⟨⟨_, _, hgsound⟩, -, -⟩ := hsteady
    rw [hages] at hgsound ⊢
    exact hmatureW.congr hwords hpages ⟨_, _, _, hgsound⟩ hgsound.ages.live
  have hlist : w.words (params.rootSlot .generationPinfoList) ≠ nullWord →
      w.allocationPtr ≤ wordToPtr (w.words (params.rootSlot .generationPinfoList)) := by
    intro hne
    have hroots := hprepared.rootsMoved (hready.rootsMoved hc)
    have hslot : params.rootSlot .generationPinfoList ∈ s.rootSlots params := rootSlots_pinfo s
    have hold := mt (hroots.null _ hslot) hne
    have hge := h.list hold
    rw [hroots.live _ (mem_liveRoots.mpr ⟨hslot, hold⟩), wordToPtr_ptrToWord,
      hready.move_first hc (h.first.allocated.trans hge), hc.allocationPtr,
      hprepared.allocationPtr]
    exact hge
  have hpinfos : OnlyPinfos params w := by
    intro p hp
    have hp := hcells' hp
    have htwo := (hready.first.ok hp).two_le
    have hinside := hready.first.inside hp
    rw [hready.word_first hc (hready.first.allocated.trans hp.ge) (by omega), hprepared.words]
    exact h.pinfos p (hprepared.firstCell_eq ▸ hp)
  obtain ⟨hfirstX, hcellsX⟩ := hx.firstSound hmatureW hfirst hallocated (fun hp => hp)
    (fun hp => mem_cellsIn_append.mpr (.inl hp)) fun hne => .inl (hlist hne)
  have hkeptX := hx.kept hmatureW hallocated hsmart (fun b hb hne =>
    (hfirst.roots (mem_liveRoots.mpr ⟨(mem_userRoots.mp hb).1, hne⟩)).1) huser
  refine ⟨?_, ?_⟩
  · exact {
      steady := {
        gens := hsteady
        youngestGn := hyoungest
        recovering := hrecovering
        mature := hmature
        remembered := by
          rw [← hto]
          exact hmatureW.remembered_congr hremembered
            (fun gn hgn => by simp only [List.mem_append, List.mem_cons] at hgn ⊢; tauto)
            (fun gn hgn => by simp [hgn]) hwords hpages hx.remSets }
      first := by
        rw [hages, hcells (List.Subset.refl _), ← hto,
          hcells fun gn hgn => by simp only [List.mem_append, List.mem_cons] at hgn ⊢; tauto]
        exact (hfirstX.mono (fun hp => hp) fun hp => mem_cellsIn_append.mpr (.inl hp)).congr rfl rfl rfl
      allocated := by
        have hend := hx.end_eq
        show x.allocationPtr ≤ _
        omega
      list := fun _ => by
        show x.allocationPtr ≤ wordToPtr (x.words _)
        rw [hx.root, wordToPtr_ptrToWord]
      user := by
        intro b hb hne
        have hb : b ∈ x.userRoots params := hb
        rw [hkeptX.roots.mem_userRoots] at hb
        have hne : x.words b ≠ nullWord := hne
        have hold := mt (hkeptX.roots.null b hb) hne
        rw [hages, hcells (List.Subset.refl _)]
        show wordToPtr (x.words b) ∈ _
        rw [hkeptX.roots.live b hb hold, wordToPtr_ptrToWord]
        exact huser b hb hold
      pinfos := hx.onlyPinfos hfirst hcellsX hpinfos }
  · exact (hkept.trans hkeptX).congr rfl rfl

/-- A step of the mature collection. -/
theorem MajorSteady.majorGcStep (h : MajorSteady params s cells pre marked post)
    (hcollecting : s.gens.isCollecting = true) (diskPages : Nat → Nat) :
    Ends (s.majorGcStep params diskPages)
      (fun r => ∃ cells' gn marked' move,
        MajorSteady params { r.2 with gens := Generations.stopIfFinished r.1 r.2.gens } cells'
          (pre ++ [gn]) marked' post ∧
        Kept params s { r.2 with gens := Generations.stopIfFinished r.1 r.2.gens } move)
      (HeapFailure.Excused aborts) := by
  obtain ⟨⟨_, _, hsound⟩, -, hphase⟩ := h.steady.gens
  obtain ⟨m, ms, rfl⟩ := List.exists_cons_of_ne_nil (hphase.isCollecting.mp hcollecting)
  unfold Heap.majorGcStep
  rw [hsound.firstFromGn_eq hphase h.steady.youngestGn]
  refine h.steady.allocateGeneration.bind ?_
  rintro _ ⟨g, froms, twice, rfl, htaken, hgsound⟩
  obtain ⟨gns, marked, v, hmarked, hrun, hchosen⟩ :=
    h.steady.gens.choose h.steady.youngestGn htaken hgsound
  dsimp only [Heap.startGc]
  rw [hrun]
  dsimp only
  -- the state before copying
  obtain ⟨u, hu⟩ : ∃ u : Heap, u = { s with
    gens := v
    toPtr := nullPtr
    toEnd := nullPtr
    copyStack := [] } := ⟨_, rfl⟩
  rw [← hu]
  have hugens : u.gens = v := by rw [hu]
  rw [← hugens] at hchosen hu
  rw [hmarked] at h
  have hprepared := h.steady.prepared hchosen hu
  have hready := h.majorReady hchosen hprepared
  obtain ⟨_, _, husound⟩ := hchosen.sound
  have hchain : gns.IsChain fun gn gn' => u.gens.older gn = gn' := by
    have hlinked := husound.ages.linked
    simp only [Generations.phaseAges, List.nil_append, List.append_assoc, doublyLinked_append]
      at hlinked
    exact hlinked.2.2.1.isChain
  have hhead : gns.head? = some m := by
    obtain ⟨g', gns', rfl⟩ := List.exists_cons_of_ne_nil hchosen.ne_nil
    exact congrArg some (List.cons.inj hmarked).1.symm
  refine (hready.scanRemSets hchain hhead).bind ?_
  rintro t₁ ⟨hrootSlots, c₁, ht₁⟩
  rw [hrootSlots]
  refine (hready.scanRoots ht₁).bind ?_
  rintro t₂ ⟨c₂, ht₂⟩
  refine Ends.bind_bind ((ht₂.finish hready.fromSpace hready.ready.arrays hready.ready.diskPage
    diskPages).mono (fun _ => id) fun _ he => he.excused hready.not_abort) ?_
  rintro w ⟨c, hc⟩
  have hallocated : w.allocationPtr ≤ params.firstGenerationStart := by
    rw [hc.allocationPtr, hprepared.allocationPtr]
    exact h.allocated
  refine (logToGenerationPinfoList_spec hallocated hchosen.length_le).bind fun x hx => ?_
  have hm : (gns ++ (marked ++ post)).headD invalidGenerationNumber = m := by
    rw [← List.append_assoc, ← hmarked]
    rfl
  have hfinish := hchosen.finish hc.course hc.status hc.arrays (hc.sound husound) hcollecting
  rw [hm, ← hx.gens] at hfinish
  refine (ends_withGens hfinish).bind ?_
  rintro _ ⟨y, hy, rfl⟩
  obtain ⟨effortStep, z, hpeek, hsteady, hyoungest, hrecovering, hpage⟩ :=
    hy (y.npages y.toGn + 1) (Nat.succ_ne_zero _)
  dsimp only
  rw [hpeek]
  rw [hx.gens] at hpage
  obtain ⟨hafter, hkept⟩ := h.afterStep hchosen hprepared hc hx hsteady hyoungest
    (hrecovering.trans h.steady.recovering) hpage
  exact ⟨_, _, _, _, hafter, hkept⟩

end Heap

end Shades
