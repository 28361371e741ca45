import Shades.Gc.Collected
import Shades.Gc.Commits

/-!
# Shades.Gc.HeapInvariant

What holds of the memory between the steps of the collector.

In the pages of each generation the cells lie one behind the other, and a cell refers to
cells of its own generation or of older ones only.  The remembered set of a generation
that is to be collected has the slots of the new generations that refer to it.  In the
first generation only the cells that can be reached are known to be well formed.
-/

namespace Shades

namespace Heap

/-! ## the predicates -/

/-- The cells in the pages of some generations. -/
def cellsIn (s : Heap) (cells : Nat → List Nat) (gns : List Nat) : List Nat :=
  gns.flatMap fun gn => (s.gens.page gn).flatMap cells

/-- The cells in the pages of the generations, which are given from the youngest one on. -/
structure MatureSound (params : HeapParams) (s : Heap) (cells : Nat → List Nat)
    (ages : List Nat) : Prop where
  gens : ∃ ages froms twice, s.gens.Sound params.numberOfPages True ages froms twice
  live : ∀ gn ∈ ages, (s.gens.status gn).IsLive
  page : ∀ {gn pn}, gn ∈ ages → pn ∈ s.gens.page gn → ∃ used ≤ params.wordsPerPage,
    s.words (params.pageNumberToPagePtr pn + 1) = used ∧
      Tiled id (cellGetNumberOfWords s.words) (params.pageNumberToPagePtr pn + 2) (cells pn)
        (params.pageNumberToPagePtr pn + used)
  ok : ∀ {p}, p ∈ s.cellsIn cells ages → CellOk s.words p
  /-- A cell that is in a page was copied there. -/
  declared : ∀ {p}, p ∈ s.cellsIn cells ages → Decl.abort ∉ cellDecls s.words p
  /-- There are no references to younger generations. -/
  closed : ∀ {younger older}, ages = younger ++ older → ∀ {p b}, p ∈ s.cellsIn cells older →
    b ∈ slots s.words p → wordToPtr (s.words b) ∈ s.cellsIn cells older
  fits : ∀ gn ∈ ages, ((s.cellsIn cells [gn]).flatMap (cellAddresses s.words)).length ≤
    params.numberOfWordsInFirstGeneration

/-- The slots in the generations `pre` that refer to those that are to be collected are
remembered, each of them once. -/
structure Remembered (s : Heap) (cells : Nat → List Nat) (pre marked : List Nat) : Prop where
  nodup : ∀ gn, (s.remSets gn).Nodup
  mem : ∀ {gn}, gn ∈ marked → ∀ {b}, b ∈ s.remSets gn ↔ (∃ p ∈ s.cellsIn cells pre,
    b ∈ slots s.words p) ∧ wordToPtr (s.words b) ∈ s.cellsIn cells [gn]
  none : ∀ gn ∉ marked, s.remSets gn = []

/-- The slots of the root set that refer to cells. -/
def liveRoots (params : HeapParams) (s : Heap) : List Nat :=
  (s.rootSlots params).filter fun b => s.words b != nullWord

/-- The cells of the first generation that can be reached. -/
def FirstCell (params : HeapParams) (s : Heap) (p : Nat) : Prop :=
  (cellGraph s.words fun q => s.allocationPtr ≤ q).Reached (s.liveRoots params) p

/-- The smart pointers are above the first generation and outside of the root block. -/
def SmartPtrsOk (params : HeapParams) (smartPtrs : List Nat) : Prop :=
  smartPtrs.Nodup ∧ ∀ b ∈ smartPtrs, params.firstGenerationStart ≤ b ∧
    (b < params.root ∨ params.root + numberOfRootBlockItems ≤ b)

/-- The root set and the first generation.  Other cells that the root set refers to are
among `rooted`, and those that cells refer to among `referred`. -/
structure FirstSound (params : HeapParams) (s : Heap) (rooted referred : Nat → Prop) : Prop where
  allocated : params.firstGenerationEnd ≤ s.allocationPtr
  smartPtrs : SmartPtrsOk params s.smartPtrs
  roots : ∀ {b}, b ∈ s.liveRoots params → ptrToWord (wordToPtr (s.words b)) = s.words b ∧
    (s.allocationPtr ≤ wordToPtr (s.words b) ∨ rooted (wordToPtr (s.words b)))
  ok : ∀ {p}, FirstCell params s p → CellOk s.words p
  size_le : ∀ {p}, FirstCell params s p →
    cellGetNumberOfWords s.words p ≤ params.wordsPerPage - 2
  inside : ∀ {p}, FirstCell params s p →
    p + cellGetNumberOfWords s.words p ≤ params.firstGenerationStart
  apart : ∀ {p q a}, FirstCell params s p → FirstCell params s q → InsideCell s.words p a →
    InsideCell s.words q a → p = q
  refs : ∀ {p b}, FirstCell params s p → b ∈ slots s.words p →
    s.allocationPtr ≤ wordToPtr (s.words b) ∨ referred (wordToPtr (s.words b))

/-! ## cells in pages -/

section mature

variable {params : HeapParams} {s : Heap} {cells : Nat → List Nat} {ages gns gns' : List Nat}
  {p q a b gn gn' pn : Nat}

theorem mem_cellsIn : p ∈ s.cellsIn cells gns ↔
    ∃ gn ∈ gns, ∃ pn ∈ s.gens.page gn, p ∈ cells pn := by
  simp [cellsIn]

theorem mem_cellsIn_singleton :
    p ∈ s.cellsIn cells [gn] ↔ ∃ pn ∈ s.gens.page gn, p ∈ cells pn := by
  simp [cellsIn]

theorem mem_cellsIn_append :
    p ∈ s.cellsIn cells (gns ++ gns') ↔ p ∈ s.cellsIn cells gns ∨ p ∈ s.cellsIn cells gns' := by
  simp [cellsIn]

theorem cellsIn_subset (h : gns ⊆ gns') (hp : p ∈ s.cellsIn cells gns) :
    p ∈ s.cellsIn cells gns' := by
  obtain ⟨gn, hgn, hp⟩ := mem_cellsIn.mp hp
  exact mem_cellsIn.mpr ⟨gn, h hgn, hp⟩

theorem cellsIn_of_mem (hgn : gn ∈ gns) (hp : p ∈ s.cellsIn cells [gn]) : p ∈ s.cellsIn cells gns :=
  cellsIn_subset (by simpa using hgn) hp

theorem mem_single (hp : p ∈ s.cellsIn cells gns) :
    ∃ gn ∈ gns, p ∈ s.cellsIn cells [gn] := by
  obtain ⟨gn, hgn, hp⟩ := mem_cellsIn.mp hp
  exact ⟨gn, hgn, mem_cellsIn_singleton.mpr hp⟩

namespace MatureSound

/-- Where a cell lies. -/
theorem bounds (h : MatureSound params s cells ages) (hgn : gn ∈ ages) (hpn : pn ∈ s.gens.page gn)
    (hp : p ∈ cells pn) : params.pageNumberToPagePtr pn + 2 ≤ p ∧
      p + cellGetNumberOfWords s.words p ≤ params.pageNumberToPagePtr pn + params.wordsPerPage := by
  obtain ⟨used, hle, -, htiled⟩ := h.page hgn hpn
  obtain ⟨hstart, hend⟩ := htiled.bounds hp
  exact ⟨hstart, by simp only [id] at hend; omega⟩

theorem pageNumber (h : MatureSound params s cells ages) (hgn : gn ∈ ages)
    (hpn : pn ∈ s.gens.page gn) (hp : p ∈ cells pn) (ha : InsideCell s.words p a) :
    params.ptrToPageNumber a = pn := by
  obtain ⟨hstart, hend⟩ := h.bounds hgn hpn hp
  obtain ⟨hle, hlt⟩ := ha
  exact ptrToPageNumber_eq (by omega) (by omega)

theorem self_inside (h : MatureSound params s cells ages) (hp : p ∈ s.cellsIn cells ages) :
    InsideCell s.words p p := by
  have := (h.ok hp).two_le
  exact ⟨Nat.le_refl p, by omega⟩

theorem allocated (h : MatureSound params s cells ages) (hgn : gn ∈ ages)
    (hpn : pn ∈ s.gens.page gn) :
    pn < params.numberOfPages ∧ s.gens.pageGeneration pn = s.gens.address gn := by
  obtain ⟨_, _, _, hgens⟩ := h.gens
  obtain ⟨hallocated, hgeneration⟩ := hgens.pages.allocated trivial (h.live gn hgn) hpn
  exact ⟨(hgens.pages.refers hallocated).1, hgeneration⟩

/-- A page belongs to one generation. -/
theorem page_unique (h : MatureSound params s cells ages) (hgn : gn ∈ ages) (hgn' : gn' ∈ ages)
    (hpn : pn ∈ s.gens.page gn) (hpn' : pn ∈ s.gens.page gn') : gn = gn' :=
  Generations.address_injective _
    ((h.allocated hgn hpn).2.symm.trans (h.allocated hgn' hpn').2)

/-- The cells in a page are all different. -/
theorem cells_nodup (h : MatureSound params s cells ages) (hgn : gn ∈ ages)
    (hpn : pn ∈ s.gens.page gn) : (cells pn).Nodup := by
  obtain ⟨used, -, -, htiled⟩ := h.page hgn hpn
  refine htiled.nodup fun x hx => ?_
  have := (h.ok (mem_cellsIn.mpr ⟨gn, hgn, pn, hpn, hx⟩)).two_le
  omega

/-- Cells with a word in common are the same, and so are their generations. -/
theorem apart (h : MatureSound params s cells ages) (hgn : gn ∈ ages) (hgn' : gn' ∈ ages)
    (hp : p ∈ s.cellsIn cells [gn]) (hq : q ∈ s.cellsIn cells [gn']) (ha : InsideCell s.words p a)
    (ha' : InsideCell s.words q a) : p = q ∧ gn = gn' := by
  obtain ⟨pn, hpn, hmem⟩ := mem_cellsIn_singleton.mp hp
  obtain ⟨pn', hpn', hmem'⟩ := mem_cellsIn_singleton.mp hq
  obtain rfl := (h.pageNumber hgn hpn hmem ha).symm.trans (h.pageNumber hgn' hpn' hmem' ha')
  refine ⟨?_, h.page_unique hgn hgn' hpn hpn'⟩
  by_contra hne
  obtain ⟨used, -, -, htiled⟩ := h.page hgn hpn
  have hapart := htiled.apart (h.cells_nodup hgn hpn) hmem hmem' hne
  obtain ⟨hle, hlt⟩ := ha
  obtain ⟨hle', hlt'⟩ := ha'
  simp only [id] at hapart
  omega

theorem eq_of_inside (h : MatureSound params s cells ages) (hp : p ∈ s.cellsIn cells ages)
    (hq : q ∈ s.cellsIn cells ages) (ha : InsideCell s.words p a) (ha' : InsideCell s.words q a) :
    p = q := by
  obtain ⟨gn, hgn, hp⟩ := mem_single hp
  obtain ⟨gn', hgn', hq⟩ := mem_single hq
  exact (h.apart hgn hgn' hp hq ha ha').1

/-- Cells are below the first generation. -/
theorem lt_end (h : MatureSound params s cells ages) (hp : p ∈ s.cellsIn cells ages)
    (ha : InsideCell s.words p a) : a < params.firstGenerationEnd := by
  obtain ⟨gn, hgn, pn, hpn, hp⟩ := mem_cellsIn.mp hp
  have hlt := (h.allocated hgn hpn).1
  rw [← h.pageNumber hgn hpn hp ha] at hlt
  exact Nat.not_le.mp fun hle => Nat.not_lt.mpr (numberOfPages_le hle) hlt

theorem size_le (h : MatureSound params s cells ages) (hp : p ∈ s.cellsIn cells ages) :
    cellGetNumberOfWords s.words p ≤ params.wordsPerPage - 2 := by
  obtain ⟨gn, hgn, pn, hpn, hp⟩ := mem_cellsIn.mp hp
  have := h.bounds hgn hpn hp
  omega

theorem two_le (h : MatureSound params s cells ages) (hp : p ∈ s.cellsIn cells ages) : 2 ≤ p := by
  obtain ⟨gn, hgn, pn, hpn, hp⟩ := mem_cellsIn.mp hp
  have := h.bounds hgn hpn hp
  omega

/-- The address is not in a page that is copied to. -/
theorem elsewhere (h : MatureSound params s cells ages) (hto : s.gens.toGn ∉ ages)
    (hp : p ∈ s.cellsIn cells ages) (ha : InsideCell s.words p a) : s.Elsewhere params a := by
  obtain ⟨gn, hgn, pn, hpn, hp⟩ := mem_cellsIn.mp hp
  exact .inr ⟨gn, fun heq => hto (heq ▸ hgn), h.live gn hgn,
    (h.pageNumber hgn hpn hp ha).symm ▸ hpn⟩

theorem inStatus (h : MatureSound params s cells ages) (hto : s.gens.toGn ∉ ages)
    {status : GenerationStatus} (hgns : ∀ gn ∈ gns, gn ∈ ages ∧ s.gens.status gn = status)
    (hp : p ∈ s.cellsIn cells gns) : s.InStatus params status p := by
  obtain ⟨gn, hgn, pn, hpn, hp⟩ := mem_cellsIn.mp hp
  obtain ⟨hages, hstatus⟩ := hgns gn hgn
  have hall : p ∈ s.cellsIn cells ages := mem_cellsIn.mpr ⟨gn, hages, pn, hpn, hp⟩
  have hself := h.self_inside hall
  refine ⟨h.lt_end hall hself, gn, fun heq => hto (heq ▸ hages), hstatus, ?_⟩
  exact (h.pageNumber hages hpn hp hself).symm ▸ hpn

variable {t : Heap}

/-- Cells stay where they are if no word below the first generation changes. -/
theorem relocated_id (h : MatureSound params s cells ages)
    (hwords : ∀ a < params.firstGenerationEnd, t.words a = s.words a) :
    Relocated id s.words t.words (· ∈ s.cellsIn cells ages) := by
  refine .of_words h.ok (fun hp hb => h.closed (List.nil_append _).symm hp hb) (fun {p} hp => ?_)
    fun {p i} hp hi => hwords _ (h.lt_end hp ⟨Nat.le_add_right p i, Nat.add_lt_add_left hi p⟩)
  have := h.two_le hp
  rw [nullPtr]
  omega

theorem slots_congr (h : MatureSound params s cells ages)
    (hwords : ∀ a < params.firstGenerationEnd, t.words a = s.words a)
    (hp : p ∈ s.cellsIn cells ages) : slots t.words p = slots s.words p ∧
      ∀ b ∈ slots s.words p, t.words b = s.words b := by
  have hslots := (h.relocated_id hwords).slots_eq hp
  have hle : ∀ b ∈ slots s.words p, id p + (b - p) = b := fun b hb =>
    Nat.add_sub_cancel' (Nat.le_of_lt ((h.ok hp).slot_bounds hb).1)
  rw [List.map_congr_left hle, List.map_id'] at hslots
  refine ⟨hslots, fun b hb => hwords b ?_⟩
  obtain ⟨hlt, hlt'⟩ := (h.ok hp).slot_bounds hb
  exact h.lt_end hp ⟨Nat.le_of_lt hlt, hlt'⟩

/-- The words of the pages and which generation has them are all that matters. -/
theorem congr (h : MatureSound params s cells ages)
    (hwords : ∀ a < params.firstGenerationEnd, t.words a = s.words a)
    (hpage : ∀ gn ∈ ages, t.gens.page gn = s.gens.page gn)
    (hgens : ∃ ages froms twice, t.gens.Sound params.numberOfPages True ages froms twice)
    (hlive : ∀ gn ∈ ages, (t.gens.status gn).IsLive) : MatureSound params t cells ages := by
  have hcells : ∀ {gns}, gns ⊆ ages → t.cellsIn cells gns = s.cellsIn cells gns :=
    fun hgns => List.flatMap_congr fun gn hgn => by rw [hpage gn (hgns hgn)]
  have hsize : ∀ {p}, p ∈ s.cellsIn cells ages →
      cellGetNumberOfWords t.words p = cellGetNumberOfWords s.words p := fun hp =>
    ((h.relocated_id hwords).moved hp).numberOfWords
  refine ⟨hgens, hlive, fun {gn pn} hgn hpn => ?_, fun {p} hp => ?_, fun {p} hp => ?_,
    fun {younger older} hages {p b} hp hb => ?_, fun gn hgn => ?_⟩
  · rw [hpage gn hgn] at hpn
    obtain ⟨used, hle, hword, htiled⟩ := h.page hgn hpn
    refine ⟨used, hle, ?_, htiled.congr (fun _ _ => rfl) fun p hp => ?_⟩
    · rw [← hword]
      refine hwords _ (Nat.not_le.mp fun hle => ?_)
      have hlt := (h.allocated hgn hpn).1
      have hpage := numberOfPages_le hle
      rw [ptrToPageNumber_succ] at hpage
      exact Nat.not_lt.mpr hpage hlt
    · exact hsize (mem_cellsIn.mpr ⟨gn, hgn, pn, hpn, hp⟩)
  · rw [hcells (List.Subset.refl _)] at hp
    exact (h.relocated_id hwords).cellOk hp
  · rw [hcells (List.Subset.refl _)] at hp
    exact (h.relocated_id hwords).decls hp ▸ h.declared hp
  · have hsub : older ⊆ ages := hages ▸ List.subset_append_right _ _
    rw [hcells hsub] at hp ⊢
    obtain ⟨hslots, hsame⟩ := h.slots_congr hwords (cellsIn_subset hsub hp)
    rw [hslots] at hb
    rw [hsame b hb]
    exact h.closed hages hp hb
  · have hsub : [gn] ⊆ ages := by simpa using hgn
    rw [hcells hsub]
    refine le_of_eq_of_le ?_ (h.fits gn hgn)
    rw [List.length_flatMap, List.length_flatMap]
    refine congrArg _ (List.map_congr_left fun p hp => ?_)
    rw [cellAddresses, cellAddresses, List.length_range', List.length_range',
      hsize (cellsIn_subset hsub hp)]

/-- And for what is remembered. -/
theorem remembered_congr (h : MatureSound params s cells ages) {pre marked : List Nat}
    (hr : Remembered s cells pre marked) (hpre : pre ⊆ ages) (hmarked : marked ⊆ ages)
    (hwords : ∀ a < params.firstGenerationEnd, t.words a = s.words a)
    (hpage : ∀ gn ∈ ages, t.gens.page gn = s.gens.page gn) (hset : t.remSets = s.remSets) :
    Remembered t cells pre marked := by
  have hcells : ∀ {gns}, gns ⊆ ages → t.cellsIn cells gns = s.cellsIn cells gns :=
    fun hgns => List.flatMap_congr fun gn hgn => by rw [hpage gn (hgns hgn)]
  refine ⟨fun gn => hset ▸ hr.nodup gn, fun {gn} hgn {b} => ?_, fun gn hgn => hset ▸ hr.none gn hgn⟩
  have hsub : [gn] ⊆ ages := by simpa using hmarked hgn
  rw [hset, hr.mem hgn, hcells hpre, hcells hsub, ← exists_and_right, ← exists_and_right]
  refine exists_congr fun p => ?_
  rw [and_assoc, and_assoc]
  refine and_congr_right fun hp => ?_
  obtain ⟨hslots, hsame⟩ := h.slots_congr hwords (cellsIn_subset hpre hp)
  rw [hslots]
  exact and_congr_right fun hb => by rw [hsame b hb]

end MatureSound

end mature

end Heap

end Shades
