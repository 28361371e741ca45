import Shades.Gc.Descriptions

/-!
# Shades.Gc.Preserved

What a collection preserves.

Cells move as a whole, different cells do not come to overlap, and their words stay the same
but for the pointers, which refer to where the cells have gone.  The slots of the root set
are the same ones and refer to the same cells.  So nothing that a program can read by
following pointers is changed.
-/

namespace Shades

namespace Heap

variable {params : HeapParams} {s t u w : Heap} {rooted referred : Nat → Prop}
  {B : Nat → Prop} {cells rems : Nat → List Nat}
  {ages pre gns rest roots marked post : List Nat} {c : CopyState} {move : Nat → Nat} {p q a b : Nat}

/-! ## cells -/

/-- The cells `L` are carried to other places, where they do not overlap. -/
structure Preserved (move words words' : Nat → Nat) (L : Nat → Prop) : Prop where
  relocated : Relocated move words words' L
  offset : ∀ {p a}, L p → InsideCell words p a → move a = move p + (a - p)
  injective : ∀ {p q a b}, L p → L q → InsideCell words p a → InsideCell words q b →
    move a = move b → a = b

namespace Preserved

variable {move move' words words' words'' : Nat → Nat} {L L' : Nat → Prop}

theorem mono (h : Preserved move words words' L) (hL : ∀ {p}, L' p → L p)
    (hclosed : ∀ {p b}, L' p → b ∈ slots words p → L' (wordToPtr (words b))) :
    Preserved move words words' L' where
  relocated := h.relocated.mono hL hclosed
  offset := fun hp => h.offset (hL hp)
  injective := fun hp hq => h.injective (hL hp) (hL hq)

/-- Where the words of a cell have gone. -/
theorem inside (h : Preserved move words words' L) (hp : L p) (ha : InsideCell words p a) :
    InsideCell words' (move p) (move a) := by
  obtain ⟨hle, hlt⟩ := ha
  rw [h.offset hp ⟨hle, hlt⟩, InsideCell, (h.relocated.moved hp).numberOfWords]
  omega

theorem trans (h : Preserved move words words' L) (h' : Preserved move' words' words'' L')
    (hL : ∀ {p}, L p → L' (move p)) : Preserved (move' ∘ move) words words'' L where
  relocated := h.relocated.trans h'.relocated hL
  offset := by
    intro p a hp ha
    have hoffset := h.offset hp ha
    rw [Function.comp_apply, Function.comp_apply, h'.offset (hL hp) (h.inside hp ha), hoffset,
      Nat.add_sub_cancel_left]
  injective := fun hp hq ha hb heq =>
    h.injective hp hq ha hb (h'.injective (hL hp) (hL hq) (h.inside hp ha) (h.inside hq hb) heq)

theorem of_id (h : Relocated id words words' L) : Preserved id words words' L where
  relocated := h
  offset := fun _ ha => (Nat.add_sub_cancel' ha.1).symm
  injective := fun _ _ _ _ => id

end Preserved

/-- Cells that are collected and those that are not stay apart. -/
theorem Replacing.preserved (h : Replacing params s cells B roots pre gns rest)
    (hc : Collected params s B roots rems c t) :
    Preserved c.move s.words t.words (Replacing.Live s cells B pre rest) where
  relocated := h.relocated hc
  offset := by
    rintro p a (hp | hp) ha
    · exact hc.move_eq ((h.visited_iff hc).mpr hp) ha
    · rw [h.move_eq_self hc hp ha, h.move_self hc hp, Nat.add_sub_cancel' ha.1]
  injective := by
    have hm := h.matureSound hc
    have hmixed : ∀ {p q a b}, B p → q ∈ s.cellsIn cells (pre ++ rest) → InsideCell s.words p a →
        InsideCell s.words q b → c.move a ≠ c.move b := by
      intro p q a b hp hq ha hb heq
      have hcopy := (h.mem_toGn hc).mpr ⟨p, hp, rfl⟩
      have hq' := hq
      rw [← h.cellsIn_eq hc (List.Subset.refl _)] at hq'
      obtain ⟨g, hg, hq'⟩ := mem_single hq'
      have hinside : ∀ {p a}, Replacing.Live s cells B pre rest p → InsideCell s.words p a →
          c.move a = c.move p + (a - p) → InsideCell t.words (c.move p) (c.move a) := by
        rintro p a hp ⟨hle, hlt⟩ hoffset
        rw [hoffset, InsideCell, ((h.relocated hc).moved hp).numberOfWords]
        omega
      have ha' := hinside (.inl hp) ha (hc.move_eq ((h.visited_iff hc).mpr hp) ha)
      have hb' := hinside (.inr hq) hb (by
        rw [h.move_eq_self hc hq hb, h.move_self hc hq, Nat.add_sub_cancel' hb.1])
      rw [h.move_self hc hq, ← heq] at hb'
      have hgages : g ∈ pre ++ t.gens.toGn :: rest := by
        simp only [List.mem_append, List.mem_cons] at hg ⊢
        exact hg.imp_right .inr
      exact h.ne_toGn hc hg (hm.apart hgages (by simp) hq' hcopy hb' ha').2
    rintro p q a b (hp | hp) (hq | hq) ha hb heq
    · exact (h.copy_inj hc hp hq ha hb heq).2
    · exact absurd heq (hmixed hp hq ha hb)
    · exact absurd heq.symm (hmixed hq hp hb ha)
    · rwa [h.move_eq_self hc hp ha, h.move_eq_self hc hq hb] at heq

/-! ## the root set -/

/-- The root set is the same, and the cells that it refers to have moved. -/
structure RootsMoved (params : HeapParams) (s t : Heap) (move : Nat → Nat) : Prop where
  slots : t.rootSlots params = s.rootSlots params
  null : ∀ b ∈ s.rootSlots params, s.words b = nullWord → t.words b = nullWord
  live : ∀ b ∈ s.liveRoots params, t.words b = ptrToWord (move (wordToPtr (s.words b)))

theorem RootsMoved.mem_liveRoots (h : RootsMoved params s t move) (hb : b ∈ t.liveRoots params) :
    b ∈ s.liveRoots params := by
  obtain ⟨hmem, hne⟩ := Heap.mem_liveRoots.mp hb
  rw [h.slots] at hmem
  exact Heap.mem_liveRoots.mpr ⟨hmem, mt (h.null b hmem) hne⟩

/-- Whether `suspended_accu` belongs to the root set. -/
theorem rootSlots_congr
    (htype : t.words (params.rootSlot .suspendedAccuType) =
      s.words (params.rootSlot .suspendedAccuType))
    (haccu : t.words (params.rootSlot .suspendedAccu) = s.words (params.rootSlot .suspendedAccu) ∨
      s.accuIsPtr params = true ∧ ∃ r, t.words (params.rootSlot .suspendedAccu) = ptrToWord r)
    (hsmart : t.smartPtrs = s.smartPtrs) : t.rootSlots params = s.rootSlots params := by
  have haccuIsPtr : t.accuIsPtr params = s.accuIsPtr params := by
    rcases haccu with haccu | ⟨hptr, r, haccu⟩
    · unfold accuIsPtr
      rw [htype, haccu]
    · rw [hptr]
      unfold accuIsPtr at hptr ⊢
      rw [htype, haccu, taggedIsPtr_ptrToWord]
      split at hptr <;> simp_all
  unfold rootSlots
  rw [haccuIsPtr, hsmart]

/-- `suspended_accu_type` is not a pointer. -/
theorem accuType_notMem (h : SmartPtrsOk params s.smartPtrs) :
    params.rootSlot .suspendedAccuType ∉ s.rootSlots params := by
  rw [mem_rootSlots]
  rintro (⟨-, heq⟩ | hb | hb)
  · exact absurd (RootIx.ix_injective (Nat.add_left_cancel heq)) (by decide)
  · obtain ⟨i, -, hi, heq⟩ := mem_rootPtrSlots.mp hb
    obtain rfl := Nat.add_left_cancel heq
    exact absurd hi (by decide)
  · have hb := (h.2 _ hb).2
    have hlt := RootIx.ix_lt .suspendedAccuType
    simp only [HeapParams.rootSlot, numberOfRootIxs, numberOfRootBlockItems] at hb hlt
    omega

theorem mem_rootSlots_accu (h : SmartPtrsOk params s.smartPtrs)
    (hb : params.rootSlot .suspendedAccu ∈ s.rootSlots params) : s.accuIsPtr params = true := by
  rcases mem_rootSlots.mp hb with ⟨hptr, -⟩ | hb | hb
  · exact hptr
  · obtain ⟨i, -, hi, heq⟩ := mem_rootPtrSlots.mp hb
    obtain rfl := Nat.add_left_cancel heq
    exact absurd hi (by decide)
  · have hb := (h.2 _ hb).2
    have hlt := RootIx.ix_lt .suspendedAccu
    simp only [HeapParams.rootSlot, numberOfRootIxs, numberOfRootBlockItems] at hb hlt
    omega

/-- A word above the first generation. -/
theorem Replacing.root_word (h : Replacing params s cells B roots pre gns rest)
    (hc : Collected params s B roots rems c t) (hb : params.firstGenerationStart ≤ b) :
    t.words b =
      if b ∈ roots then ptrToWord (c.move (wordToPtr (s.words b))) else s.words b := by
  split
  case isTrue hroot => exact hc.root hroot
  case isFalse hroot =>
    refine hc.other (.inl (Nat.le_trans (Nat.le_add_right _ _) hb)) hroot fun q hq hin => ?_
    exact Nat.not_lt.mpr hb (h.collects.inside (hc.cells q hq) hin)

/-- A slot of the root set is followed, or what it refers to stays where it is. -/
theorem Replacing.rootsMoved (h : Replacing params s cells B roots pre gns rest)
    (hc : Collected params s B roots rems c t) (hsmart : SmartPtrsOk params s.smartPtrs)
    (hroots : ∀ b ∈ roots, params.firstGenerationStart ≤ b → b ∈ s.rootSlots params)
    (hstay : ∀ b ∈ s.liveRoots params, b ∉ roots →
      ptrToWord (c.move (wordToPtr (s.words b))) = s.words b) :
    RootsMoved params s t c.move := by
  have hstart : ∀ r, params.firstGenerationStart ≤ params.rootSlot r := fun r =>
    Nat.le_trans params.root_ge (Nat.le_add_right _ _)
  have hword := fun {b} (hb : params.firstGenerationStart ≤ b) => h.root_word hc hb
  refine ⟨rootSlots_congr ?_ ?_ hc.smartPtrs, fun b hb hnull => ?_, fun b hb => ?_⟩
  · rw [hword (hstart _), if_neg]
    exact fun hroot => accuType_notMem hsmart (hroots _ hroot (hstart _))
  · rw [hword (hstart _)]
    split
    case isTrue hroot =>
      exact .inr ⟨mem_rootSlots_accu hsmart (hroots _ hroot (hstart _)), _, rfl⟩
    case isFalse => exact .inl rfl
  · rw [hword (rootSlots_ge hsmart hb), if_neg, hnull]
    exact fun hroot => (h.collects.rootsOk hroot).1 hnull
  · rw [hword (rootSlots_ge hsmart (mem_liveRoots.mp hb).1)]
    split
    case isTrue => rfl
    case isFalse hroot => exact (hstay b hb hroot).symm

/-! ## what a program holds -/

/-- The slots of the root set but for those that belong to the collector. -/
def userRoots (params : HeapParams) (s : Heap) : List Nat :=
  (s.rootSlots params).filter fun b => decide (b ≠ params.rootSlot .oidFreelist) &&
    decide (b ≠ params.rootSlot .generationPinfoList)

theorem mem_userRoots : b ∈ s.userRoots params ↔ b ∈ s.rootSlots params ∧
    b ≠ params.rootSlot .oidFreelist ∧ b ≠ params.rootSlot .generationPinfoList := by
  simp [userRoots]

/-- The cells that can be reached from these slots. -/
def Held (params : HeapParams) (s : Heap) (p : Nat) : Prop :=
  (cellGraph s.words fun _ => True).Reached
    ((s.userRoots params).filter fun b => s.words b != nullWord) p

theorem Held.root (hb : b ∈ s.userRoots params) (hne : s.words b ≠ nullWord) :
    Held params s (wordToPtr (s.words b)) :=
  EdgeGraph.Reached.root (b := b) (by simp [hb, hne]) (cellGraph_target.mpr ⟨trivial, rfl⟩)

theorem Held.edge (hp : Held params s p) (hb : b ∈ slots s.words p) :
    Held params s (wordToPtr (s.words b)) :=
  EdgeGraph.Reached.edge (b := b) hp hb (cellGraph_target.mpr ⟨trivial, rfl⟩)

/-- What the root set refers to, and what that refers to. -/
theorem Held.induct {P : Nat → Prop} (hp : Held params s p)
    (root : ∀ b ∈ s.userRoots params, s.words b ≠ nullWord → P (wordToPtr (s.words b)))
    (edge : ∀ {p}, Held params s p → P p → ∀ b ∈ slots s.words p, P (wordToPtr (s.words b))) :
    P p := by
  induction hp with
  | root hb ha =>
    obtain ⟨-, rfl⟩ := cellGraph_target.mp ha
    obtain ⟨hb, hne⟩ := List.mem_filter.mp hb
    exact root _ hb (by simpa using hne)
  | edge hp hb ha ih =>
    obtain ⟨-, rfl⟩ := cellGraph_target.mp ha
    exact edge hp ih _ hb

/-- The slots of the program refer to where the cells have gone. -/
structure UserMoved (params : HeapParams) (s t : Heap) (move : Nat → Nat) : Prop where
  slots : t.rootSlots params = s.rootSlots params
  null : ∀ b ∈ s.userRoots params, s.words b = nullWord → t.words b = nullWord
  live : ∀ b ∈ s.userRoots params, s.words b ≠ nullWord →
    t.words b = ptrToWord (move (wordToPtr (s.words b)))

theorem UserMoved.mem_userRoots (h : UserMoved params s t move) :
    b ∈ t.userRoots params ↔ b ∈ s.userRoots params := by
  rw [Heap.mem_userRoots, Heap.mem_userRoots, h.slots]

theorem RootsMoved.user (h : RootsMoved params s t move) : UserMoved params s t move where
  slots := h.slots
  null := fun b hb => h.null b (mem_userRoots.mp hb).1
  live := fun b hb hne => h.live b (Heap.mem_liveRoots.mpr ⟨(mem_userRoots.mp hb).1, hne⟩)

/-- What a program holds is kept. -/
structure Kept (params : HeapParams) (s t : Heap) (move : Nat → Nat) : Prop where
  cells : Preserved move s.words t.words (Held params s)
  roots : UserMoved params s t move

namespace Kept

variable {move' : Nat → Nat}

/-- Cells that are preserved are kept if the root set refers to them. -/
theorem of_preserved {L : Nat → Prop} (h : Preserved move s.words t.words L)
    (hroots : UserMoved params s t move)
    (hL : ∀ b ∈ s.userRoots params, s.words b ≠ nullWord → L (wordToPtr (s.words b))) :
    Kept params s t move :=
  ⟨h.mono (fun hp => hp.induct hL fun _ hp _ hb => h.relocated.closed hp hb) Held.edge, hroots⟩

theorem held (h : Kept params s t move) (hp : Held params s p) : Held params t (move p) := by
  refine hp.induct (P := fun p => Held params t (move p)) (fun b hb hne => ?_)
    fun {p} hp ih b hb => ?_
  · have hword := h.roots.live b hb hne
    have hheld := Held.root (h.roots.mem_userRoots.mpr hb) (by
      rw [hword]
      exact mt ptrToWord_eq_nullWord.mp (h.cells.relocated.ne_null (.root hb hne)))
    rwa [hword, wordToPtr_ptrToWord] at hheld
  · have hslot : move p + (b - p) ∈ Shades.slots t.words (move p) :=
      (h.cells.relocated.slots_eq hp).symm ▸ List.mem_map_of_mem hb
    have hheld := ih.edge hslot
    rwa [h.cells.relocated.target hp hb, wordToPtr_ptrToWord] at hheld

theorem trans (h : Kept params s t move) (h' : Kept params t u move') :
    Kept params s u (move' ∘ move) where
  cells := h.cells.trans h'.cells h.held
  roots := {
    slots := h'.roots.slots.trans h.roots.slots
    null := fun b hb hnull => h'.roots.null b (h.roots.mem_userRoots.mpr hb) (h.roots.null b hb hnull)
    live := by
      intro b hb hne
      have hword := h.roots.live b hb hne
      rw [h'.roots.live b (h.roots.mem_userRoots.mpr hb) (by
        rw [hword]
        exact mt ptrToWord_eq_nullWord.mp (h.cells.relocated.ne_null (.root hb hne))), hword,
        wordToPtr_ptrToWord]
      rfl }

/-- Only the words and the smart pointers matter. -/
theorem congr (h : Kept params s t move) (hwords : u.words = t.words)
    (hsmart : u.smartPtrs = t.smartPtrs) : Kept params s u move := by
  obtain ⟨hcells, hslots, hnull, hlive⟩ := h
  have hrootSlots : u.rootSlots params = t.rootSlots params := by
    unfold rootSlots accuIsPtr
    rw [hwords, hsmart]
  rw [← hwords] at hcells hnull hlive
  exact ⟨hcells, hrootSlots.trans hslots, hnull, hlive⟩

end Kept

/-- A program does not see that a description is written. -/
theorem Logged.kept (h : Logged params s t) (hm : MatureSound params s cells ages)
    (hallocated : s.allocationPtr ≤ params.firstGenerationStart)
    (hsmart : SmartPtrsOk params s.smartPtrs)
    (haligned : ∀ b ∈ s.userRoots params, s.words b ≠ nullWord →
      ptrToWord (wordToPtr (s.words b)) = s.words b)
    (huser : ∀ b ∈ s.userRoots params, s.words b ≠ nullWord →
      wordToPtr (s.words b) ∈ s.cellsIn cells ages) : Kept params s t id := by
  have hword : ∀ b ∈ s.userRoots params, t.words b = s.words b := by
    intro b hb
    obtain ⟨hslot, -, hne⟩ := mem_userRoots.mp hb
    exact h.root_word hne hallocated hsmart hslot
  refine .of_preserved (.of_id (hm.relocated_id fun a ha => h.word_eq ha)) ?_ huser
  refine ⟨h.rootSlots_eq hallocated, fun b hb hnull => (hword b hb).trans hnull, fun b hb hne => ?_⟩
  rw [hword b hb, id, haligned b hb hne]

/-! ## after a collection of the first generation -/

theorem Prepared.rootsMoved (h : Prepared params s u) (hroots : RootsMoved params u t move) :
    RootsMoved params s t move := by
  obtain ⟨hslots, hnull, hlive⟩ := hroots
  simp only [liveRoots, h.rootSlots_eq, h.words] at hslots hnull hlive
  exact ⟨hslots, hnull, hlive⟩

namespace FirstCollected

variable (h : FirstCollected params s cells pre marked post u c t)
include h

theorem preserved (hlive : ∀ gn ∈ Generations.phaseAges [] pre marked post,
    (s.gens.status gn).IsLive) :
    Preserved c.move s.words t.words
      (HeapCell params s cells (Generations.phaseAges [] pre marked post)) := by
  have hpreserved := h.replacing.preserved h.collected
  rw [h.prepared.words] at hpreserved
  have hlive : Replacing.Live u cells (FirstCell params s) []
      (Generations.phaseAges [] pre marked post) =
        HeapCell params s cells (Generations.phaseAges [] pre marked post) := by
    funext p
    rw [Replacing.Live, List.nil_append, h.prepared.cellsIn_eq hlive]
    rfl
  rwa [hlive] at hpreserved

theorem rootsMoved (hf : FirstSound params s rooted referred)
    (hlive : ∀ gn ∈ Generations.phaseAges [] pre marked post, (s.gens.status gn).IsLive)
    (hrooted : ∀ {p}, rooted p →
      p ∈ s.cellsIn cells (Generations.phaseAges [] pre marked post)) :
    RootsMoved params s t c.move := by
  refine h.prepared.rootsMoved (h.replacing.rootsMoved h.collected ?_ ?_ ?_)
  · rw [h.prepared.smartPtrs]
    exact hf.smartPtrs
  · intro b hb _
    rw [h.prepared.rootSlots_eq]
    exact (mem_firstRoots.mp hb).1
  · intro b hb hroot
    rw [liveRoots, h.prepared.rootSlots_eq, h.prepared.words] at hb
    have hb : b ∈ s.liveRoots params := hb
    rw [h.prepared.words]
    rcases hf.root_target hb with hfirst | ⟨-, hmature⟩
    · refine absurd (mem_firstRoots.mpr ?_) hroot
      exact ⟨(mem_liveRoots.mp hb).1, (mem_liveRoots.mp hb).2, hfirst.ge⟩
    · have hmem := hrooted hmature
      rw [← h.prepared.cellsIn_eq hlive] at hmem
      rw [h.replacing.move_self h.collected (by simpa using hmem), (hf.roots hb).1]

theorem kept (hf : FirstSound params s rooted referred)
    (hlive : ∀ gn ∈ Generations.phaseAges [] pre marked post, (s.gens.status gn).IsLive)
    (hrooted : ∀ {p}, rooted p →
      p ∈ s.cellsIn cells (Generations.phaseAges [] pre marked post)) :
    Kept params s t c.move := by
  refine .of_preserved (h.preserved hlive) (h.rootsMoved hf hlive hrooted).user fun b hb hne => ?_
  have hb := mem_liveRoots.mpr ⟨(mem_userRoots.mp hb).1, hne⟩
  exact (hf.root_target hb).imp_right fun htarget => hrooted htarget.2

end FirstCollected

end Heap

end Shades
