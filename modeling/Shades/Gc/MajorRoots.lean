import Shades.Gc.FirstGeneration

/-!
# Shades.Gc.MajorRoots

What a step of the mature collection starts from.

The slots that refer to the generations that are collected are remembered if they are in
younger generations, and otherwise they are in the root set.  The first generation does not
refer to what is collected.
-/

namespace Shades

namespace Heap

variable {params : HeapParams} {s t u : Heap} {rooted referred : Nat → Prop}
  {cells : Nat → List Nat} {ages pre gns rest marked post : List Nat} {p q a b gn : Nat}

/-! ## what is collected -/

/-- The address is in a page of one of the generations. -/
def inGenerations (params : HeapParams) (s : Heap) (gns : List Nat) (p : Nat) : Bool :=
  gns.any fun gn => decide (params.ptrToPageNumber p ∈ s.gens.page gn)

theorem inGenerations_iff : s.inGenerations params gns p = true ↔
    ∃ gn ∈ gns, params.ptrToPageNumber p ∈ s.gens.page gn := by
  simp [inGenerations]

/-- The slots of the root set that refer to the generations. -/
def selectedRoots (params : HeapParams) (s : Heap) (gns : List Nat) : List Nat :=
  (s.rootSlots params).filter fun b =>
    s.words b != nullWord && s.inGenerations params gns (wordToPtr (s.words b))

/-- The slots that the collection of the generations starts from. -/
def majorRoots (params : HeapParams) (s : Heap) (gns : List Nat) : List Nat :=
  gns.flatMap s.remSets ++ s.selectedRoots params gns

/-- The cells of the generations that can be reached from these slots. -/
def MajorCell (params : HeapParams) (s : Heap) (cells : Nat → List Nat) (gns : List Nat) (p : Nat) :
    Prop :=
  (cellGraph s.words (· ∈ s.cellsIn cells gns)).Reached (s.majorRoots params gns) p

theorem mem_selectedRoots : b ∈ s.selectedRoots params gns ↔ b ∈ s.rootSlots params ∧
    s.words b ≠ nullWord ∧ s.inGenerations params gns (wordToPtr (s.words b)) = true := by
  simp [selectedRoots]

theorem mem_majorRoots : b ∈ s.majorRoots params gns ↔
    (∃ gn ∈ gns, b ∈ s.remSets gn) ∨ b ∈ s.selectedRoots params gns := by
  simp [majorRoots]

theorem MajorCell.mem (h : MajorCell params s cells gns p) : p ∈ s.cellsIn cells gns := by
  cases h with
  | root _ ha => exact (cellGraph_target.mp ha).2 ▸ (cellGraph_target.mp ha).1
  | edge _ _ ha => exact (cellGraph_target.mp ha).2 ▸ (cellGraph_target.mp ha).1

theorem MajorCell.reached (h : MajorCell params s cells gns p) :
    (cellGraph s.words (MajorCell params s cells gns)).Reached (s.majorRoots params gns) p :=
  reached_restrict (fun _ hb _ => hb) h

/-! ## how much is collected -/

theorem length_flatMap_le {f : Nat → List Nat} {xs : List Nat} {n : Nat}
    (h : ∀ x ∈ xs, (f x).length ≤ n) : (xs.flatMap f).length ≤ xs.length * n := by
  induction xs with
  | nil => simp
  | cons x xs ih =>
    rw [List.forall_mem_cons] at h
    have hrest := ih h.2
    rw [List.flatMap_cons, List.length_append, List.length_cons, Nat.succ_mul]
    omega

/-- The cells are not larger than the pages that they are in. -/
theorem MatureSound.words_le (h : MatureSound params s cells ages) (hgns : gns ⊆ ages) :
    ((s.cellsIn cells gns).flatMap (cellAddresses s.words)).length ≤
      (gns.flatMap s.gens.page).length * params.wordsPerPage := by
  have hassoc : (s.cellsIn cells gns).flatMap (cellAddresses s.words) =
      (gns.flatMap s.gens.page).flatMap fun pn => (cells pn).flatMap (cellAddresses s.words) := by
    rw [cellsIn, List.flatMap_assoc, List.flatMap_assoc]
    exact List.flatMap_congr fun gn _ => List.flatMap_assoc
  rw [hassoc]
  refine length_flatMap_le fun pn hpn => ?_
  obtain ⟨gn, hgn, hpn⟩ := List.mem_flatMap.mp hpn
  obtain ⟨used, hle, -, htiled⟩ := h.page (hgns hgn) hpn
  have hlength := htiled.length_eq
  have haddresses : ((cells pn).flatMap fun p => List.range' (id p) (cellGetNumberOfWords s.words p)) =
      (cells pn).flatMap (cellAddresses s.words) := rfl
  rw [haddresses] at hlength
  omega

/-- The pages that are counted while generations are chosen. -/
theorem foldl_npages {g : Generations} (h : g.ArraysSound none)
    (hgns : ∀ gn ∈ gns, (g.status gn).IsLive) (n : Nat) :
    gns.foldl (fun n gn => n + g.npages gn) n = n + (gns.flatMap g.page).length := by
  induction gns generalizing n with
  | nil => rfl
  | cons gn gns ih =>
    rw [List.forall_mem_cons] at hgns
    rw [List.foldl_cons, ih hgns.2, List.flatMap_cons, List.length_append,
      h.page hgns.1 (by simp), Nat.add_assoc]

/-- A generation alone is small enough, and so are those that are chosen together. -/
theorem MatureSound.fits_gns (h : MatureSound params s cells ages) (harrays : s.gens.ArraysSound none)
    (hgns : gns ⊆ ages) (hfits : gns.length = 1 ∨
      params.fitsMatureGeneration (gns.foldl (fun n gn => n + s.gens.npages gn) 0) = true) :
    ((s.cellsIn cells gns).flatMap (cellAddresses s.words)).length ≤
      params.numberOfWordsInFirstGeneration := by
  rcases hfits with hone | hfits
  · obtain ⟨gn, rfl⟩ := List.length_eq_one_iff.mp hone
    exact h.fits gn (hgns (by simp))
  · rw [foldl_npages harrays fun gn hgn => h.live gn (hgns hgn), Nat.zero_add] at hfits
    exact (h.words_le hgns).trans (params.fits_le _ hfits)

/-! ## the slots -/

/-- What is known when the generations `gns` are collected. -/
structure MajorReady (params : HeapParams) (u : Heap) (cells : Nat → List Nat)
    (referred : Nat → Prop) (pre gns rest : List Nat) : Prop where
  ready : ReadyToCopy params u (pre ++ (gns ++ rest))
  mature : MatureSound params u cells (pre ++ (gns ++ rest))
  nodup : (pre ++ (gns ++ rest)).Nodup
  being : ∀ gn ∈ gns, u.gens.status gn = .beingCollected
  others : ∀ gn ∈ pre ++ rest, u.gens.status gn = .normal ∨ u.gens.status gn = .toBeCollected
  remembered : ∃ marked, gns ⊆ marked ∧ Remembered u cells pre marked
  fits : ((u.cellsIn cells gns).flatMap (cellAddresses u.words)).length ≤
    params.numberOfWordsInFirstGeneration
  first : FirstSound params u (· ∈ u.cellsIn cells (pre ++ (gns ++ rest))) referred

namespace MajorReady

theorem of_gns (hp : p ∈ u.cellsIn cells gns) : p ∈ u.cellsIn cells (pre ++ (gns ++ rest)) :=
  cellsIn_subset (fun gn hgn => by simp [hgn]) hp

theorem of_rest (hp : p ∈ u.cellsIn cells rest) : p ∈ u.cellsIn cells (pre ++ (gns ++ rest)) :=
  cellsIn_subset (fun gn hgn => by simp [hgn]) hp

theorem of_pre (hp : p ∈ u.cellsIn cells pre) : p ∈ u.cellsIn cells (pre ++ (gns ++ rest)) :=
  cellsIn_subset (fun gn hgn => by simp [hgn]) hp

variable (h : MajorReady params u cells referred pre gns rest)
include h

/-- A cell that is collected is apart from the younger and the older ones. -/
theorem not_inside (hp : p ∈ u.cellsIn cells gns) (ha : InsideCell u.words p a)
    (hq : q ∈ u.cellsIn cells pre ∨ q ∈ u.cellsIn cells rest) : ¬ InsideCell u.words q a := by
  intro ha'
  obtain ⟨gn, hgn, hp⟩ := mem_single hp
  have hgn' : gn ∈ pre ++ (gns ++ rest) := by simp [hgn]
  obtain ⟨hnodup, -, hrest⟩ := List.nodup_append.mp h.nodup
  rcases hq with hq | hq
  · obtain ⟨g, hg, hq⟩ := mem_single hq
    obtain ⟨-, rfl⟩ := h.mature.apart hgn' (by simp [hg]) hp hq ha ha'
    exact hrest gn hg gn (by simp [hgn]) rfl
  · obtain ⟨g, hg, hq⟩ := mem_single hq
    obtain ⟨-, rfl⟩ := h.mature.apart hgn' (by simp [hg]) hp hq ha ha'
    exact (List.nodup_append.mp (List.nodup_append.mp h.nodup).2.1).2.2 gn hgn gn hg rfl

/-- A slot that is remembered. -/
theorem remembered_slot (hgn : gn ∈ gns) (hb : b ∈ u.remSets gn) :
    (∃ p ∈ u.cellsIn cells pre, b ∈ slots u.words p) ∧
      wordToPtr (u.words b) ∈ u.cellsIn cells [gn] := by
  obtain ⟨marked, hsub, hremembered⟩ := h.remembered
  exact (hremembered.mem (hsub hgn)).mp hb

/-- A slot of the root set that was selected. -/
theorem selected_target (hb : b ∈ u.selectedRoots params gns) :
    wordToPtr (u.words b) ∈ u.cellsIn cells gns := by
  obtain ⟨hmem, hne, hin⟩ := mem_selectedRoots.mp hb
  obtain ⟨gn, hgn, hpn⟩ := inGenerations_iff.mp hin
  have hall : gn ∈ pre ++ (gns ++ rest) := by simp [hgn]
  rcases (h.first.roots (mem_liveRoots.mpr ⟨hmem, hne⟩)).2 with hge | hmature
  · have hlt := (h.mature.allocated hall hpn).1
    exact absurd hlt (Nat.not_lt.mpr (numberOfPages_le (h.first.allocated.trans hge)))
  · obtain ⟨g, hg, pn, hpn', hcell⟩ := mem_cellsIn.mp hmature
    have hpage := h.mature.pageNumber hg hpn' hcell (h.mature.self_inside hmature)
    rw [hpage] at hpn
    obtain rfl := h.mature.page_unique hall hg hpn hpn'
    exact mem_cellsIn.mpr ⟨gn, hgn, pn, hpn, hcell⟩

/-- A slot of the root set that refers to what is collected is selected. -/
theorem selected (hb : b ∈ u.liveRoots params)
    (hmem : wordToPtr (u.words b) ∈ u.cellsIn cells gns) : b ∈ u.selectedRoots params gns := by
  obtain ⟨gn, hgn, pn, hpn, hcell⟩ := mem_cellsIn.mp hmem
  have hpage := h.mature.pageNumber (by simp [hgn]) hpn hcell (h.mature.self_inside (of_gns hmem))
  exact mem_selectedRoots.mpr ⟨(mem_liveRoots.mp hb).1, (mem_liveRoots.mp hb).2,
    inGenerations_iff.mpr ⟨gn, hgn, hpage.symm ▸ hpn⟩⟩

theorem root_target (hb : b ∈ u.majorRoots params gns) :
    wordToPtr (u.words b) ∈ u.cellsIn cells gns := by
  rcases mem_majorRoots.mp hb with ⟨gn, hgn, hb⟩ | hb
  · exact cellsIn_of_mem hgn (h.remembered_slot hgn hb).2
  · exact h.selected_target hb

/-- Where the slots are. -/
theorem root_place (hb : b ∈ u.majorRoots params gns) :
    (∃ p ∈ u.cellsIn cells pre, b ∈ slots u.words p) ∨ params.firstGenerationStart ≤ b := by
  rcases mem_majorRoots.mp hb with ⟨gn, hgn, hb⟩ | hb
  · exact .inl (h.remembered_slot hgn hb).1
  · exact .inr (rootSlots_ge h.first.smartPtrs (mem_selectedRoots.mp hb).1)

/-- Slots above the pages are those of the root set. -/
theorem selected_of_ge (hb : b ∈ u.majorRoots params gns) (hge : params.firstGenerationEnd ≤ b) :
    b ∈ u.selectedRoots params gns := by
  rcases mem_majorRoots.mp hb with ⟨gn, hgn, hb⟩ | hb
  · obtain ⟨p, hp, hslot⟩ := (h.remembered_slot hgn hb).1
    obtain ⟨hle, hlt⟩ := (h.mature.ok (of_pre hp)).slot_bounds hslot
    exact absurd (h.mature.lt_end (of_pre hp) ⟨Nat.le_of_lt hle, hlt⟩) (Nat.not_lt.mpr hge)
  · exact hb

theorem majorCell_of_root (hb : b ∈ u.majorRoots params gns) :
    MajorCell params u cells gns (wordToPtr (u.words b)) :=
  .root hb (cellGraph_target.mpr ⟨h.root_target hb, rfl⟩)

/-- What a cell that is collected refers to. -/
theorem target (hp : MajorCell params u cells gns p) (hb : b ∈ slots u.words p) :
    MajorCell params u cells gns (wordToPtr (u.words b)) ∨
      wordToPtr (u.words b) ∈ u.cellsIn cells rest := by
  have hclosed := h.mature.closed rfl (mem_cellsIn_append.mpr (.inl hp.mem)) hb
  rw [mem_cellsIn_append] at hclosed
  exact hclosed.imp_left fun hmem => .edge hp hb (cellGraph_target.mpr ⟨hmem, rfl⟩)

theorem roots_nodup : (u.majorRoots params gns).Nodup := by
  obtain ⟨marked, hsub, hremembered⟩ := h.remembered
  have hgnsNodup : gns.Nodup := (List.nodup_append.mp (List.nodup_append.mp h.nodup).2.1).1
  rw [majorRoots, List.nodup_append]
  refine ⟨?_, (rootSlots_nodup h.first.smartPtrs).filter _, ?_⟩
  · rw [List.nodup_flatMap]
    refine ⟨fun gn _ => hremembered.nodup gn, hgnsNodup.imp_of_mem ?_⟩
    intro gn gn' hgn hgn' hne b hb hb'
    have hmem := (h.remembered_slot hgn hb).2
    have hmem' := (h.remembered_slot hgn' hb').2
    have hself := h.mature.self_inside (of_gns (cellsIn_of_mem hgn hmem))
    exact hne (h.mature.apart (by simp [hgn]) (by simp [hgn']) hmem hmem' hself hself).2
  · rintro b hb _ hb' rfl
    obtain ⟨gn, hgn, hb⟩ := List.mem_flatMap.mp hb
    obtain ⟨p, hp, hslot⟩ := (h.remembered_slot hgn hb).1
    obtain ⟨hlt, hlt'⟩ := (h.mature.ok (of_pre hp)).slot_bounds hslot
    have hend := h.mature.lt_end (of_pre hp) ⟨Nat.le_of_lt hlt, hlt'⟩
    have hge := rootSlots_ge h.first.smartPtrs (mem_selectedRoots.mp hb').1
    exact Nat.not_lt.mpr (Nat.le_trans (Nat.le_add_right _ _) hge) hend

/-- Slots are not in cells that are collected or that are older. -/
theorem root_not_inside (hb : b ∈ u.majorRoots params gns)
    (hp : p ∈ u.cellsIn cells (gns ++ rest)) : ¬ InsideCell u.words p b := by
  intro hin
  have hall : p ∈ u.cellsIn cells (pre ++ (gns ++ rest)) := mem_cellsIn_append.mpr (.inr hp)
  rcases h.root_place hb with ⟨q, hq, hslot⟩ | hge
  · obtain ⟨hlt, hlt'⟩ := (h.mature.ok (of_pre hq)).slot_bounds hslot
    have hin' : InsideCell u.words q b := ⟨Nat.le_of_lt hlt, hlt'⟩
    obtain rfl := h.mature.eq_of_inside hall (of_pre hq) hin hin'
    obtain ⟨g, hg, hp⟩ := mem_single hp
    obtain ⟨g', hg', hq⟩ := mem_single hq
    have hself := h.mature.self_inside hall
    obtain ⟨-, rfl⟩ := h.mature.apart (List.mem_append_right _ hg) (List.mem_append_left _ hg')
      hp hq hself hself
    exact (List.nodup_append.mp h.nodup).2.2 g hg' g hg rfl
  · have hlt := h.mature.lt_end hall hin
    exact Nat.not_lt.mpr (Nat.le_trans (Nat.le_add_right _ _) hge) hlt

theorem root_elsewhere (hb : b ∈ u.majorRoots params gns) : u.Elsewhere params b := by
  rcases h.root_place hb with ⟨p, hp, hslot⟩ | hge
  · obtain ⟨hlt, hlt'⟩ := (h.mature.ok (of_pre hp)).slot_bounds hslot
    exact h.mature.elsewhere h.ready.fresh (of_pre hp) ⟨Nat.le_of_lt hlt, hlt'⟩
  · exact .inl (Nat.le_trans (Nat.le_add_right _ _) hge)

/-- What a slot of the root set refers to is left, in one of the generations or in the first. -/
theorem root_cases (hb : b ∈ u.liveRoots params) : FirstCell params u (wordToPtr (u.words b)) ∨
    Replacing.Live u cells (MajorCell params u cells gns) pre rest (wordToPtr (u.words b)) := by
  refine (h.first.root_target hb).imp_right fun ⟨_, hmem⟩ => ?_
  rw [mem_cellsIn_append, mem_cellsIn_append] at hmem
  rcases hmem with hmem | hmem | hmem
  · exact .inr (mem_cellsIn_append.mpr (.inl hmem))
  · exact .inl (h.majorCell_of_root (mem_majorRoots.mpr (.inr (h.selected hb hmem))))
  · exact .inr (mem_cellsIn_append.mpr (.inr hmem))

theorem fromSpace :
    u.FromSpace params (MajorCell params u cells gns) (u.majorRoots params gns) where
  gens := h.mature.gens
  normal := h.ready.normal
  recovering := h.ready.recovering
  toPn := h.ready.toPn
  noPage := h.ready.noPage
  toPtr := h.ready.toPtr
  copyStack := h.ready.copyStack
  ok := fun hp => h.mature.ok (of_gns hp.mem)
  size_le := fun hp => h.mature.size_le (of_gns hp.mem)
  inside := fun hp ha =>
    Nat.lt_of_lt_of_le (h.mature.lt_end (of_gns hp.mem) ha) (Nat.le_add_right _ _)
  elsewhere := fun hp ha => h.mature.elsewhere h.ready.fresh (of_gns hp.mem) ha
  apart := fun hp hq => h.mature.eq_of_inside (of_gns hp.mem) (of_gns hq.mem)
  fits := by
    intro ps hps hcells
    have hnodup := addresses_nodup hps fun {p q a} hp hq =>
      h.mature.eq_of_inside (a := a) (of_gns (hcells p hp).mem) (of_gns (hcells q hq).mem)
    have hsub : ps.flatMap (cellAddresses u.words) ⊆
        (u.cellsIn cells gns).flatMap (cellAddresses u.words) := by
      intro a ha
      obtain ⟨p, hp, ha⟩ := List.mem_flatMap.mp ha
      exact List.mem_flatMap.mpr ⟨p, (hcells p hp).mem, ha⟩
    exact (hnodup.subperm hsub).length_le.trans h.fits
  allocated := h.first.allocated
  collected := fun hp => .inr
    (h.mature.inStatus h.ready.fresh (fun gn hgn => ⟨by simp [hgn], h.being gn hgn⟩) hp.mem)
  refs := by
    intro p b hp hb
    refine (h.target hp hb).imp_right fun hmem => ⟨?_, fun q hq ha => ?_⟩
    · obtain ⟨gn, hgn, hmem⟩ := mem_single hmem
      refine (h.others gn (by simp [hgn])).imp (fun hst => ?_) fun hst => ?_
      all_goals
        exact h.mature.inStatus h.ready.fresh (show ∀ g ∈ [gn], _ by simp [hgn, hst]) hmem
    · exact h.not_inside hq.mem ha (.inr hmem) (h.mature.self_inside (of_rest hmem))
  rootsNodup := h.roots_nodup
  rootsOk := by
    intro b hb
    have hcell := h.majorCell_of_root hb
    rcases mem_majorRoots.mp hb with ⟨gn, hgn, hb⟩ | hb
    · obtain ⟨p, hp, hslot⟩ := (h.remembered_slot hgn hb).1
      exact ⟨CellOk.slot_ne_null hslot, (h.mature.ok (of_pre hp)).aligned b hslot, hcell⟩
    · obtain ⟨hmem, hne, -⟩ := mem_selectedRoots.mp hb
      exact ⟨hne, (h.first.roots (mem_liveRoots.mpr ⟨hmem, hne⟩)).1, hcell⟩
  rootsOutside := fun hb => ⟨h.root_elsewhere hb, fun p hp =>
    h.root_not_inside hb (mem_cellsIn_append.mpr (.inl hp.mem))⟩
  bcode := by
    intro p i hp hcont hnot hi
    have hok := h.mature.ok (of_gns hp.mem)
    have hslot := hok.bcode_slot hcont
    have hrest := (h.target hp hslot).resolve_left hnot
    have hdecls := cellDecls_bcode (hok.bcode hcont)
    have htwo := (h.mature.ok (of_rest hrest)).two_le
    have hin : InsideCell u.words (wordToPtr (u.words (p + 1)))
        (wordToPtr (u.words (p + 1)) + i) := by
      refine ⟨Nat.le_add_right _ i, Nat.add_lt_add_left ?_ _⟩
      rcases hi with rfl | hi
      · omega
      · exact (h.mature.ok (of_rest hrest)).inside (hdecls ▸ hi)
    refine ⟨h.mature.elsewhere h.ready.fresh (of_rest hrest) hin, fun hroot => ?_, ?_⟩
    · exact h.root_not_inside hroot (mem_cellsIn_append.mpr (.inr hrest)) hin
    · exact fun q hq ha => h.not_inside hq.mem ha (.inr hrest) hin

/-- The generations are replaced by a new one, after the younger ones. -/
theorem replacing : Replacing params u cells (MajorCell params u cells gns)
    (u.majorRoots params gns) pre gns rest where
  collects := h.fromSpace
  mature := h.mature
  fresh := h.ready.fresh
  arrays := h.ready.arrays
  diskPage := h.ready.diskPage
  reached := fun hp => hp.reached
  refs := fun hp hb => h.target hp hb
  nodup := h.nodup
  source := fun hp => .inl hp.mem
  remembered := by
    intro p b hp hb htarget
    obtain ⟨marked, hsub, hremembered⟩ := h.remembered
    obtain ⟨gn, hgn, htarget⟩ := mem_single htarget
    exact mem_majorRoots.mpr (.inl ⟨gn, hgn,
      (hremembered.mem (hsub hgn)).mpr ⟨⟨p, hp, hb⟩, htarget⟩⟩)
  roots := fun hb => (h.root_place hb).imp_right fun hge =>
    Nat.le_trans (Nat.le_add_right _ _) hge

end MajorReady

end Heap

end Shades
