import Shades.Gc.MajorRoots

/-!
# Shades.Gc.Descriptions

The descriptions of generations, which are written to the first generation and to the root
block.

A description is a cell with a single slot, for the description before it.  It is the only
thing that the collector itself allocates.
-/

namespace Shades

namespace Heap

variable {params : HeapParams} {s t : Heap} {rooted referred : Nat → Prop}
  {cells : Nat → List Nat} {ages : List Nat} {p q a b i fromGns ptrs : Nat} {xs : List Nat}
  {aborts : Prop}

/-! ## words one after the other -/

theorem setWords_eq (p : Nat) (xs : List Nat) (s : Heap) :
    setWords p xs s = { s with words := (setWords p xs s).words } := by
  induction xs generalizing p s with
  | nil => rfl
  | cons x xs ih =>
    rw [setWords, ih]
    rfl

theorem setWords_outside (h : a < p ∨ p + xs.length ≤ a) :
    (setWords p xs s).words a = s.words a := by
  induction xs generalizing p s with
  | nil => rfl
  | cons x xs ih =>
    rw [List.length_cons] at h
    rw [setWords, ih (by omega)]
    exact Function.update_of_ne (by omega) _ _

theorem setWords_inside (hi : i < xs.length) : (setWords p xs s).words (p + i) = xs[i] := by
  induction xs generalizing p s i with
  | nil => simp at hi
  | cons x xs ih =>
    rw [setWords]
    cases i with
    | zero =>
      exact (setWords_outside (.inl (Nat.lt_succ_self p))).trans (Function.update_self ..)
    | succ i =>
      rw [List.getElem_cons_succ, ← ih (p := p + 1) (s := s.set p x) (by simpa using hi),
        Nat.add_right_comm, Nat.add_assoc]

/-! ## the first generation and the pages together -/

/-- The cells that are known to be well formed. -/
def HeapCell (params : HeapParams) (s : Heap) (cells : Nat → List Nat) (ages : List Nat) (p : Nat) :
    Prop :=
  FirstCell params s p ∨ p ∈ s.cellsIn cells ages

theorem FirstSound.ne_null (h : FirstSound params s rooted referred) (hp : FirstCell params s p) :
    p ≠ nullPtr := by
  have haligned : ∀ {b}, s.words b ≠ nullWord → ptrToWord (wordToPtr (s.words b)) = s.words b →
      wordToPtr (s.words b) ≠ nullPtr := by
    intro b hne haligned
    rwa [← haligned, ne_eq, ptrToWord_eq_nullWord] at hne
  cases hp with
  | root hb ha =>
    obtain ⟨-, rfl⟩ := cellGraph_target.mp ha
    exact haligned (mem_liveRoots.mp hb).2 (h.roots hb).1
  | edge hp hb ha =>
    obtain ⟨-, rfl⟩ := cellGraph_target.mp ha
    exact haligned (CellOk.slot_ne_null hb) ((h.ok hp).aligned _ hb)

/-- Cells stay where they are as long as no word of them changes. -/
theorem FirstSound.relocated_id (h : FirstSound params s rooted referred)
    (hm : MatureSound params s cells ages)
    (hreferred : ∀ {p}, referred p → p ∈ s.cellsIn cells ages)
    (hwords : ∀ {p a}, HeapCell params s cells ages p → InsideCell s.words p a →
      t.words a = s.words a) :
    Relocated id s.words t.words (HeapCell params s cells ages) := by
  refine .of_words (fun {p} hp => hp.elim h.ok hm.ok) (fun {p b} hp hb => ?_) (fun {p} hp => ?_)
    fun {p i} hp hi => hwords hp ⟨Nat.le_add_right p i, Nat.add_lt_add_left hi p⟩
  · rcases hp with hp | hp
    · exact (h.target hp hb).imp_right fun htarget => hreferred htarget.2
    · exact .inr (hm.closed (List.nil_append _).symm hp hb)
  · rcases hp with hp | hp
    · exact h.ne_null hp
    · have := hm.two_le hp
      rw [nullPtr]
      omega

/-! ## the description of a new generation -/

/-- The description of `to_gn` has been allocated. -/
structure Logged (params : HeapParams) (s t : Heap) : Prop where
  gens : t.gens = s.gens
  remSets : t.remSets = s.remSets
  smartPtrs : t.smartPtrs = s.smartPtrs
  allocated : params.firstGenerationEnd ≤ t.allocationPtr
  header : cellTypeOf (t.words t.allocationPtr) = some .generationPinfo
  end_eq : t.allocationPtr + cellGetNumberOfWords t.words t.allocationPtr = s.allocationPtr
  size_le : cellGetNumberOfWords t.words t.allocationPtr ≤ params.wordsPerPage - 2
  prev : t.words (t.allocationPtr + 1) = s.words (params.rootSlot .generationPinfoList)
  root : t.words (params.rootSlot .generationPinfoList) = ptrToWord t.allocationPtr
  other : ∀ {a}, a ≠ params.rootSlot .generationPinfoList →
    a < t.allocationPtr ∨ s.allocationPtr ≤ a → t.words a = s.words a

theorem length_pageWords (s : Heap) (gn : Nat) :
    (s.pageWords gn).length = 2 * s.gens.npages gn := by
  simp [pageWords, Nat.mul_comm]

theorem pinfo_header {npages : Nat} (hnpages : npages ≤ maxGenerationSize) (hfrom : fromGns ≤ 0xFFF) :
    cellTypeOf (CellType.generationPinfo.header ||| (npages ||| fromGns <<< 12)) =
        some .generationPinfo ∧
      (CellType.generationPinfo.header ||| (npages ||| fromGns <<< 12)) &&& 0xFFF = npages := by
  have hlt : npages < 2 ^ 12 := Nat.lt_of_le_of_lt hnpages (by decide)
  have hor : npages ||| fromGns <<< 12 = fromGns * 2 ^ 12 + npages := by
    rw [Nat.or_comm]
    exact or_of_lt _ _ _ hlt
  rw [hor]
  have hn : fromGns * 2 ^ 12 + npages < 2 ^ 24 := by omega
  refine ⟨cellTypeOf_eq_some.mpr (cellType_header_or _ hn), ?_⟩
  rw [header_or _ hn, show (0xFFF : Nat) = 2 ^ 12 - 1 from rfl, and_mask]
  omega

theorem logToGenerationPinfoList_spec (hallocated : s.allocationPtr ≤ params.firstGenerationStart)
    (hfrom : fromGns ≤ 0xFFF) :
    Ends (s.logToGenerationPinfoList params fromGns ptrs) (Logged params s)
      (HeapFailure.Excused aborts) := by
  unfold logToGenerationPinfoList
  refine ends_ite (fun hroom => ?_) fun _ => .inr (.inr rfl)
  obtain ⟨hmax, hroom, hsize⟩ := hroom
  obtain ⟨hheader, hcount⟩ := pinfo_header hmax hfrom
  -- the words of the description
  obtain ⟨xs, hxs⟩ : ∃ xs, xs =
    [CellType.generationPinfo.header ||| (s.gens.npages s.gens.toGn ||| fromGns <<< 12),
      s.words (params.rootSlot .generationPinfoList), s.gens.toGn, ptrs] ++
        s.pageWords s.gens.toGn := ⟨_, rfl⟩
  have hlength : xs.length = 4 + 2 * s.gens.npages s.gens.toGn := by
    rw [hxs, List.length_append, length_pageWords]
    rfl
  obtain ⟨p, hp⟩ : ∃ p, p = s.allocationPtr - (4 + 2 * s.gens.npages s.gens.toGn) := ⟨_, rfl⟩
  simp only [← hxs, ← hp]
  have hroot : s.allocationPtr ≤ params.rootSlot .generationPinfoList :=
    hallocated.trans (Nat.le_trans params.root_ge (Nat.le_add_right _ _))
  have hword : ∀ {i} (hi : i < xs.length), Function.update
      (setWords p xs { s with allocationPtr := p }).words
      (params.rootSlot .generationPinfoList) (ptrToWord p) (p + i) = xs[i] := by
    intro i hi
    rw [Function.update_of_ne (by omega)]
    exact setWords_inside hi
  have hother : ∀ {a}, a ≠ params.rootSlot .generationPinfoList → a < p ∨ s.allocationPtr ≤ a →
      Function.update (setWords p xs { s with allocationPtr := p }).words
        (params.rootSlot .generationPinfoList) (ptrToWord p) a = s.words a := by
    intro a hne ha
    rw [Function.update_of_ne hne]
    exact setWords_outside (by omega)
  have hself : Function.update (setWords p xs { s with allocationPtr := p }).words
      (params.rootSlot .generationPinfoList) (ptrToWord p)
        (params.rootSlot .generationPinfoList) = ptrToWord p := Function.update_self ..
  rw [setWords_eq, Heap.set, ends_ok]
  generalize Function.update (setWords p xs { s with allocationPtr := p }).words
    (params.rootSlot .generationPinfoList) (ptrToWord p) = words at hword hother hself ⊢
  have h0 := hword (i := 0) (by omega)
  have h1 := hword (i := 1) (by omega)
  simp only [hxs, List.cons_append, List.getElem_cons_zero, List.getElem_cons_succ,
    Nat.add_zero] at h0 h1
  have hcell : cellTypeOf (words p) = some .generationPinfo := by rw [h0, hheader]
  have hwords : cellGetNumberOfWords words p = 4 + 2 * s.gens.npages s.gens.toGn := by
    simp only [cellGetNumberOfWords, hcell]
    rw [h0, hcount]
  exact {
    gens := rfl
    remSets := rfl
    smartPtrs := rfl
    allocated := show params.firstGenerationEnd ≤ p by omega
    header := hcell
    end_eq := show p + cellGetNumberOfWords words p = s.allocationPtr by omega
    size_le := show cellGetNumberOfWords words p ≤ params.wordsPerPage - 2 by omega
    prev := h1
    root := hself
    other := hother }

namespace Logged

variable (h : Logged params s t)
include h

theorem mem_decls {type : WordType} (hmem : Decl.field type i ∈ cellDecls t.words t.allocationPtr) :
    i < cellGetNumberOfWords t.words t.allocationPtr ∧
      (type = .ptr ∧ i = 1 ∨ type = .word ∧ 2 ≤ i) := by
  simp only [cellGetNumberOfWords, h.header]
  simp only [cellDecls, h.header, List.cons_append, List.mem_cons, List.mem_append, mem_declare,
    Decl.field.injEq] at hmem
  rcases hmem with ⟨rfl, rfl⟩ | (⟨rfl, hle, hlt⟩ | ⟨rfl, hle, hlt⟩) | hmem
  · exact ⟨by omega, .inl ⟨rfl, rfl⟩⟩
  · exact ⟨by omega, .inr ⟨rfl, hle⟩⟩
  · exact ⟨by omega, .inr ⟨rfl, by omega⟩⟩
  · split at hmem <;> simp at hmem

/-- There is only one slot. -/
theorem slot (hb : b ∈ slots t.words t.allocationPtr) :
    b = t.allocationPtr + 1 ∧ s.words (params.rootSlot .generationPinfoList) ≠ nullWord ∧
      t.words b = s.words (params.rootSlot .generationPinfoList) := by
  obtain ⟨type, i, hmem, hrefers, rfl⟩ := mem_slots.mp hb
  rcases (h.mem_decls hmem).2 with ⟨rfl, rfl⟩ | ⟨rfl, -⟩
  · refine ⟨rfl, ?_, h.prev⟩
    rw [← h.prev]
    exact (WordType.refers_eq_true.mp hrefers).1
  · simp at hrefers

theorem cellOk (haligned : s.words (params.rootSlot .generationPinfoList) ≠ nullWord →
    ptrToWord (wordToPtr (s.words (params.rootSlot .generationPinfoList))) =
      s.words (params.rootSlot .generationPinfoList)) : CellOk t.words t.allocationPtr where
  two_le := by
    simp only [cellGetNumberOfWords, h.header]
    omega
  inside := fun hmem => (h.mem_decls hmem).1
  apart := by
    have hdecls : cellDecls t.words t.allocationPtr = .field .ptr 1 ::
        (cellDecls t.words t.allocationPtr).tail := by
      simp only [cellDecls, h.header]
      rfl
    have htail : ∀ {type i}, Decl.field type i ∈ (cellDecls t.words t.allocationPtr).tail →
        type = .word ∧ 2 ≤ i := by
      intro type i hmem
      simp only [cellDecls, h.header, List.cons_append, List.tail_cons, List.mem_append,
        mem_declare] at hmem
      rcases hmem with (⟨rfl, hle, -⟩ | ⟨rfl, hle, -⟩) | hmem
      · exact ⟨rfl, hle⟩
      · exact ⟨rfl, by omega⟩
      · split at hmem <;> simp at hmem
    rw [hdecls, List.pairwise_cons]
    refine ⟨?_, List.pairwise_of_forall_mem_list ?_⟩
    · rintro d hd type type' i heq rfl
      have := (htail hd).2
      obtain ⟨-, rfl⟩ := Decl.field.inj heq
      omega
    · rintro d hd d' hd' type type' i rfl rfl
      exact ⟨(htail hd).1, (htail hd').1⟩
  nonnull := by
    intro i hmem
    rcases (h.mem_decls hmem).2 with ⟨htype, -⟩ | ⟨htype, -⟩ <;> cases htype
  not_forward := by
    rw [cellTypeOf_eq_some.mp h.header]
    decide
  aligned := by
    intro b hb
    obtain ⟨-, hne, hword⟩ := h.slot hb
    rw [hword]
    exact haligned hne
  bcode := by
    rw [cellTypeOf_eq_some.mp h.header]
    intro hcont
    cases CellType.code_injective hcont

/-- The pages are as they were. -/
theorem word_eq (ha : a < params.firstGenerationEnd) : t.words a = s.words a := by
  have hallocated := h.allocated
  have hroot : params.firstGenerationEnd ≤ params.rootSlot .generationPinfoList :=
    Nat.le_trans (Nat.le_add_right _ _) (Nat.le_trans params.root_ge (Nat.le_add_right _ _))
  exact h.other (by omega) (.inl (by omega))

theorem cellsIn_eq : t.cellsIn cells ages = s.cellsIn cells ages := by
  unfold cellsIn
  rw [h.gens]

/-- The root set is as it was, but for the description. -/
theorem rootSlots_eq (hallocated : s.allocationPtr ≤ params.firstGenerationStart) :
    t.rootSlots params = s.rootSlots params := by
  have hix : ∀ r : RootIx, r ≠ .generationPinfoList →
      t.words (params.rootSlot r) = s.words (params.rootSlot r) := by
    intro r hr
    refine h.other (fun heq => hr (RootIx.ix_injective (Nat.add_left_cancel heq))) (.inr ?_)
    exact hallocated.trans (Nat.le_trans params.root_ge (Nat.le_add_right _ _))
  unfold rootSlots accuIsPtr
  rw [hix _ (by decide), hix _ (by decide), h.smartPtrs]

theorem root_word (hne : b ≠ params.rootSlot .generationPinfoList)
    (hallocated : s.allocationPtr ≤ params.firstGenerationStart)
    (hsmart : SmartPtrsOk params s.smartPtrs) (hb : b ∈ s.rootSlots params) :
    t.words b = s.words b :=
  h.other hne (.inr (hallocated.trans (rootSlots_ge hsmart hb)))

/-- The description is another cell of the first generation, and refers to the one before. -/
theorem firstSound (hm : MatureSound params s cells ages) (hf : FirstSound params s rooted referred)
    (hallocated : s.allocationPtr ≤ params.firstGenerationStart)
    (hrooted : ∀ {p}, rooted p → p ∈ s.cellsIn cells ages)
    (hreferred : ∀ {p}, referred p → p ∈ s.cellsIn cells ages)
    (hprev : s.words (params.rootSlot .generationPinfoList) ≠ nullWord →
      s.allocationPtr ≤ wordToPtr (s.words (params.rootSlot .generationPinfoList)) ∨
        referred (wordToPtr (s.words (params.rootSlot .generationPinfoList)))) :
    FirstSound params t rooted referred ∧
      ∀ {p}, FirstCell params t p → p = t.allocationPtr ∨ FirstCell params s p := by
  have hend := h.end_eq
  have hstart : params.firstGenerationStart ≤ params.rootSlot .generationPinfoList :=
    Nat.le_trans params.root_ge (Nat.le_add_right _ _)
  have hbelow : ∀ {p}, p ∈ s.cellsIn cells ages → p < t.allocationPtr := fun hp =>
    Nat.lt_of_lt_of_le (hm.lt_end hp (hm.self_inside hp)) h.allocated
  have hrel : Relocated id s.words t.words (HeapCell params s cells ages) := by
    refine hf.relocated_id hm hreferred fun {p a} hp ha => ?_
    rcases hp with hp | hp
    · have := hp.ge
      have := hf.inside hp
      obtain ⟨hle, hlt⟩ := ha
      exact h.other (by omega) (.inr (by omega))
    · exact h.word_eq (hm.lt_end hp ha)
  have hsize : ∀ {p}, FirstCell params s p →
      cellGetNumberOfWords t.words p = cellGetNumberOfWords s.words p := fun hp =>
    (hrel.moved (.inl hp)).numberOfWords
  have hroot : params.rootSlot .generationPinfoList ∈ s.rootSlots params := rootSlots_pinfo s
  refine FirstSound.of_closed (F := fun p => p = t.allocationPtr ∨ FirstCell params s p)
    h.allocated (h.smartPtrs ▸ hf.smartPtrs) ?_ ?_ ?_ ?_ ?_ ?_
  case refine_1 =>
    intro b hb
    by_cases hne : b = params.rootSlot .generationPinfoList
    · rw [hne, h.root, wordToPtr_ptrToWord]
      exact ⟨rfl, .inl (.inl rfl)⟩
    · obtain ⟨hslot, hlive⟩ := mem_liveRoots.mp hb
      rw [h.rootSlots_eq hallocated] at hslot
      rw [h.root_word hne hallocated hf.smartPtrs hslot] at hlive ⊢
      have hb := mem_liveRoots.mpr ⟨hslot, hlive⟩
      refine ⟨(hf.roots hb).1, (hf.root_target hb).imp .inr fun htarget => ?_⟩
      exact ⟨hbelow (hrooted htarget.2), htarget.2⟩
  case refine_2 =>
    rintro p (rfl | hp)
    · exact h.cellOk fun hne => (hf.roots (mem_liveRoots.mpr ⟨hroot, hne⟩)).1
    · exact hrel.cellOk (.inl hp)
  case refine_3 =>
    rintro p (rfl | hp)
    · exact h.size_le
    · exact hsize hp ▸ hf.size_le hp
  case refine_4 =>
    rintro p (rfl | hp)
    · exact ⟨le_rfl, by omega⟩
    · have := hp.ge
      have := hf.inside hp
      have := hsize hp
      omega
  case refine_5 =>
    rintro p q a hp hq ⟨hle, hlt⟩ ⟨hle', hlt'⟩
    rcases hp with rfl | hp
    · rcases hq with rfl | hq
      · rfl
      · have := hq.ge
        omega
    · rcases hq with rfl | hq
      · have := hp.ge
        omega
      · rw [hsize hp] at hlt
        rw [hsize hq] at hlt'
        exact hf.apart hp hq ⟨hle, hlt⟩ ⟨hle', hlt'⟩
  case refine_6 =>
    rintro p b (rfl | hp) hb
    · obtain ⟨-, hne, hword⟩ := h.slot hb
      rw [hword]
      rcases hprev hne with hge | htarget
      · exact .inl (.inr (.root (mem_liveRoots.mpr ⟨hroot, hne⟩)
          (cellGraph_target.mpr ⟨hge, rfl⟩)))
      · exact .inr ⟨hbelow (hreferred htarget), htarget⟩
    · obtain ⟨b', hb', rfl, htarget⟩ := (hrel.mem_slots_iff (.inl hp)).mp hb
      rw [htarget]
      refine (hf.target hp hb').imp .inr fun hreferred' => ?_
      exact ⟨hbelow (hreferred hreferred'.2), hreferred'.2⟩

end Logged

end Heap

end Shades
