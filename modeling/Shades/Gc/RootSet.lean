import Shades.Gc.Replaced

/-!
# Shades.Gc.RootSet

The root set, and the cells of the first generation that it leads to.

The slots of the root block and the smart pointers lie above the pages and the first
generation.  From them the first generation is collected, as `FirstSound.fromSpace` says
when what is known of the generations is given.
-/

namespace Shades

namespace Heap

section rootSet

variable {params : HeapParams} {s t : Heap} {rooted referred : Nat → Prop} {p q a b : Nat}

/-! ## the slots -/

theorem mem_rootPtrSlots : b ∈ params.rootPtrSlots ↔
    ∃ i < numberOfRootIxs, rootIxIsPtr i = true ∧ b = params.root + i := by
  unfold HeapParams.rootPtrSlots
  simp only [List.mem_map, List.mem_filter, List.mem_range, and_assoc, eq_comm]

theorem mem_rootSlots : b ∈ s.rootSlots params ↔
    s.accuIsPtr params = true ∧ b = params.rootSlot .suspendedAccu ∨ b ∈ params.rootPtrSlots ∨
      b ∈ s.smartPtrs := by
  unfold rootSlots
  rw [List.mem_append, List.mem_append, or_assoc]
  refine or_congr_left ?_
  split <;> simp_all

/-- The list of descriptions belongs to the root set. -/
theorem rootSlots_pinfo (s : Heap) : params.rootSlot .generationPinfoList ∈ s.rootSlots params :=
  mem_rootSlots.mpr (.inr (.inl (mem_rootPtrSlots.mpr
    ⟨_, RootIx.ix_lt .generationPinfoList, by decide, rfl⟩)))

theorem smartPtrsOk_nil : SmartPtrsOk params [] :=
  ⟨List.nodup_nil, fun _ hb => absurd hb List.not_mem_nil⟩

theorem rootSlots_nodup (h : SmartPtrsOk params s.smartPtrs) : (s.rootSlots params).Nodup := by
  have hptr : params.rootPtrSlots.Nodup :=
    (List.nodup_range.filter _).map fun _ _ => Nat.add_left_cancel
  have haccu : params.rootSlot .suspendedAccu ∉ params.rootPtrSlots := by
    rw [mem_rootPtrSlots]
    rintro ⟨i, -, hi, heq⟩
    obtain rfl := Nat.add_left_cancel heq
    exact absurd hi (by decide)
  have hsmart : ∀ {b}, b ∈ s.smartPtrs → ∀ i < numberOfRootIxs, b ≠ params.root + i := by
    rintro _ hb i hi rfl
    have hb := (h.2 _ hb).2
    simp only [numberOfRootIxs, numberOfRootBlockItems] at hi hb
    omega
  unfold rootSlots
  rw [List.nodup_append]
  refine ⟨List.nodup_append.mpr ⟨by split <;> simp, hptr, ?_⟩, h.1, ?_⟩
  · rintro _ hb b' hb' rfl
    split at hb
    · obtain rfl := List.mem_singleton.mp hb
      exact haccu hb'
    · cases hb
  · rintro b hb _ hb' rfl
    rcases List.mem_append.mp hb with hb | hb
    · split at hb
      · exact hsmart hb' _ (RootIx.ix_lt .suspendedAccu) (List.mem_singleton.mp hb)
      · cases hb
    · obtain ⟨i, hi, -, rfl⟩ := mem_rootPtrSlots.mp hb
      exact hsmart hb' i hi rfl

theorem rootSlots_ge (h : SmartPtrsOk params s.smartPtrs) (hb : b ∈ s.rootSlots params) :
    params.firstGenerationStart ≤ b := by
  have hroot : params.firstGenerationStart ≤ params.root := params.root_ge
  rcases mem_rootSlots.mp hb with ⟨-, rfl⟩ | hb | hb
  · exact Nat.le_trans hroot (Nat.le_add_right _ _)
  · obtain ⟨i, -, -, rfl⟩ := mem_rootPtrSlots.mp hb
    exact Nat.le_trans hroot (Nat.le_add_right _ _)
  · exact (h.2 b hb).1

theorem mem_liveRoots : b ∈ s.liveRoots params ↔ b ∈ s.rootSlots params ∧ s.words b ≠ nullWord := by
  simp [liveRoots]

/-! ## the first generation -/

/-- Only edges that lead to nodes in question matter. -/
theorem reached_restrict {words : Nat → Nat} {F : Nat → Prop} {roots roots' : List Nat}
    (hroots : ∀ b ∈ roots, F (wordToPtr (words b)) → b ∈ roots')
    (h : (cellGraph words F).Reached roots p) :
    (cellGraph words ((cellGraph words F).Reached roots)).Reached roots' p := by
  induction h with
  | root hb ha =>
    obtain ⟨hF, rfl⟩ := cellGraph_target.mp ha
    exact .root (hroots _ hb hF) (cellGraph_target.mpr ⟨.root hb ha, rfl⟩)
  | edge h hb ha ih =>
    exact .edge ih hb (cellGraph_target.mpr ⟨.edge h hb ha, (cellGraph_target.mp ha).2⟩)

theorem FirstCell.ge (h : FirstCell params s p) : s.allocationPtr ≤ p := by
  cases h with
  | root _ ha => exact (cellGraph_target.mp ha).2 ▸ (cellGraph_target.mp ha).1
  | edge _ _ ha => exact (cellGraph_target.mp ha).2 ▸ (cellGraph_target.mp ha).1

/-- The generations, the copy stack and the remembered sets do not matter. -/
theorem FirstSound.congr (h : FirstSound params s rooted referred) (hwords : t.words = s.words)
    (hallocated : t.allocationPtr = s.allocationPtr) (hsmart : t.smartPtrs = s.smartPtrs) :
    FirstSound params t rooted referred := by
  obtain ⟨gens, words, allocationPtr, toPtr, toEnd, copyStack, remSets, smartPtrs⟩ := s
  obtain ⟨_, _, _, _, _, _, _, _⟩ := t
  dsimp only at hwords hallocated hsmart
  subst hwords hallocated hsmart
  exact { h with }

theorem FirstSound.mono {rooted' referred' : Nat → Prop} (h : FirstSound params s rooted referred)
    (hrooted : ∀ {p}, rooted p → rooted' p) (hreferred : ∀ {p}, referred p → referred' p) :
    FirstSound params s rooted' referred' :=
  { h with
    roots := fun hb => ⟨(h.roots hb).1, (h.roots hb).2.imp_right hrooted⟩
    refs := fun hp hb => (h.refs hp hb).imp_right hreferred }

/-- What a cell of the first generation refers to is another one, or outside. -/
theorem FirstSound.target (h : FirstSound params s rooted referred) (hp : FirstCell params s p)
    (hb : b ∈ slots s.words p) :
    FirstCell params s (wordToPtr (s.words b)) ∨
      wordToPtr (s.words b) < s.allocationPtr ∧ referred (wordToPtr (s.words b)) := by
  by_cases hle : s.allocationPtr ≤ wordToPtr (s.words b)
  · exact .inl (.edge hp hb (cellGraph_target.mpr ⟨hle, rfl⟩))
  · exact .inr ⟨Nat.not_le.mp hle, (h.refs hp hb).resolve_left hle⟩

/-- The cells `F` are all that there is in the first generation if the root set and they lead to
no other ones. -/
theorem FirstSound.of_closed {F : Nat → Prop}
    (hallocated : params.firstGenerationEnd ≤ s.allocationPtr)
    (hsmart : SmartPtrsOk params s.smartPtrs)
    (hroots : ∀ {b}, b ∈ s.liveRoots params → ptrToWord (wordToPtr (s.words b)) = s.words b ∧
      (F (wordToPtr (s.words b)) ∨
        wordToPtr (s.words b) < s.allocationPtr ∧ rooted (wordToPtr (s.words b))))
    (hok : ∀ {p}, F p → CellOk s.words p)
    (hsize : ∀ {p}, F p → cellGetNumberOfWords s.words p ≤ params.wordsPerPage - 2)
    (hbounds : ∀ {p}, F p → s.allocationPtr ≤ p ∧
      p + cellGetNumberOfWords s.words p ≤ params.firstGenerationStart)
    (hapart : ∀ {p q a}, F p → F q → InsideCell s.words p a → InsideCell s.words q a → p = q)
    (hrefs : ∀ {p b}, F p → b ∈ slots s.words p → F (wordToPtr (s.words b)) ∨
      wordToPtr (s.words b) < s.allocationPtr ∧ referred (wordToPtr (s.words b))) :
    FirstSound params s rooted referred ∧ ∀ {p}, FirstCell params s p → F p := by
  have hcell : ∀ {p}, FirstCell params s p → F p := by
    intro p hp
    induction hp with
    | root hb ha =>
      obtain ⟨hle, rfl⟩ := cellGraph_target.mp ha
      exact (hroots hb).2.resolve_right fun h => Nat.not_lt.mpr hle h.1
    | edge _ hb ha ih =>
      obtain ⟨hle, rfl⟩ := cellGraph_target.mp ha
      exact (hrefs ih hb).resolve_right fun h => Nat.not_lt.mpr hle h.1
  refine ⟨?_, hcell⟩
  exact {
    allocated := hallocated
    smartPtrs := hsmart
    roots := fun hb => ⟨(hroots hb).1, (hroots hb).2.imp (fun h => (hbounds h).1) And.right⟩
    ok := fun hp => hok (hcell hp)
    size_le := fun hp => hsize (hcell hp)
    inside := fun hp => (hbounds (hcell hp)).2
    apart := fun hp hq => hapart (hcell hp) (hcell hq)
    refs := fun hp hb => (hrefs (hcell hp) hb).imp (fun h => (hbounds h).1) And.right }

/-- What a slot of the root set refers to. -/
theorem FirstSound.root_target (h : FirstSound params s rooted referred)
    (hb : b ∈ s.liveRoots params) : FirstCell params s (wordToPtr (s.words b)) ∨
      wordToPtr (s.words b) < s.allocationPtr ∧ rooted (wordToPtr (s.words b)) := by
  by_cases hle : s.allocationPtr ≤ wordToPtr (s.words b)
  · exact .inl (.root hb (cellGraph_target.mpr ⟨hle, rfl⟩))
  · exact .inr ⟨Nat.not_le.mp hle, (h.roots hb).2.resolve_left hle⟩

/-- The slots that the collection of the first generation starts from. -/
def firstRoots (params : HeapParams) (s : Heap) : List Nat :=
  (s.rootSlots params).filter fun b =>
    s.words b != nullWord && decide (s.allocationPtr ≤ wordToPtr (s.words b))

theorem mem_firstRoots : b ∈ s.firstRoots params ↔ b ∈ s.rootSlots params ∧
    s.words b ≠ nullWord ∧ s.allocationPtr ≤ wordToPtr (s.words b) := by
  simp [firstRoots]

theorem FirstCell.reached (h : FirstCell params s p) :
    (cellGraph s.words (FirstCell params s)).Reached (s.firstRoots params) p := by
  refine reached_restrict (fun b hb hle => mem_firstRoots.mpr ?_) h
  exact ⟨(mem_liveRoots.mp hb).1, (mem_liveRoots.mp hb).2, hle⟩

theorem firstCell_of_root (hb : b ∈ s.firstRoots params) :
    FirstCell params s (wordToPtr (s.words b)) := by
  obtain ⟨hmem, hne, hle⟩ := mem_firstRoots.mp hb
  exact .root (mem_liveRoots.mpr ⟨hmem, hne⟩) (cellGraph_target.mpr ⟨hle, rfl⟩)

/-- Cells that are apart have different addresses. -/
theorem addresses_nodup {words : Nat → Nat} {ps : List Nat} (hps : ps.Nodup)
    (hapart : ∀ {p q a}, p ∈ ps → q ∈ ps → InsideCell words p a → InsideCell words q a → p = q) :
    (ps.flatMap (cellAddresses words)).Nodup := by
  rw [List.nodup_flatMap]
  refine ⟨fun p _ => List.nodup_range', hps.imp_of_mem fun {p q} hp hq hne a ha ha' => hne ?_⟩
  exact hapart hp hq (mem_cellAddresses.mp ha) (mem_cellAddresses.mp ha')

/-- All cells of the first generation together are not larger than it is. -/
theorem FirstSound.fits (h : FirstSound params s rooted referred) {ps : List Nat} (hps : ps.Nodup)
    (hcells : ∀ p ∈ ps, FirstCell params s p) :
    (ps.flatMap (cellAddresses s.words)).length ≤ params.numberOfWordsInFirstGeneration := by
  have hnodup := addresses_nodup hps fun {p q a} hp hq =>
    h.apart (a := a) (hcells p hp) (hcells q hq)
  have hsubset : ps.flatMap (cellAddresses s.words) ⊆
      List.range' params.firstGenerationEnd params.numberOfWordsInFirstGeneration := by
    intro a ha
    obtain ⟨p, hp, ha⟩ := List.mem_flatMap.mp ha
    obtain ⟨hle, hlt⟩ := mem_cellAddresses.mp ha
    have hge := (hcells p hp).ge
    have hinside := h.inside (hcells p hp)
    have hallocated := h.allocated
    rw [List.mem_range'_1]
    rw [HeapParams.firstGenerationStart] at hinside
    omega
  have hle := (hnodup.subperm hsubset).length_le
  rwa [List.length_range'] at hle

end rootSet

end Heap

end Shades
