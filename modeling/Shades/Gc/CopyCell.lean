import Shades.Gc.Copying

/-!
# Shades.Gc.CopyCell

What `copy_cell` does to the memory: a slot is followed, to a cell that has been copied
before or to a new one, whose slots are then pushed.
-/

namespace Shades

namespace Heap

section facts

variable {params : HeapParams} {s₀ s t : Heap} {B : Nat → Prop} {roots left : List Nat}
  {c : CopyState} {p q a b pn gn newP : Nat}

/-! ## a place for a copy -/

/-- Other words may change. -/
theorem Copying.frame (h : Copying params s₀ B roots c s) (h₀ : s₀.FromSpace params B roots)
    {words : Nat → Nat} (helse : ∀ a, s₀.Elsewhere params a → words a = s.words a)
    (hcopies : ∀ p ∈ c.visited, ∀ i < cellGetNumberOfWords s₀.words p,
      words (c.move p + i) = s.words (c.move p + i))
    (hused : ∀ pn ∈ s.gens.page s.gens.toGn, s.gens.toPn ≠ some pn →
      words (params.pageNumberToPagePtr pn + 1) = s.words (params.pageNumberToPagePtr pn + 1)) :
    Copying params s₀ B roots c { s with words := words } where
  traversed := h.traversed
  cells := h.cells
  declared := h.declared
  pushed := h.pushed
  copyStack := h.copyStack
  allocationPtr := h.allocationPtr
  smartPtrs := h.smartPtrs
  filled := h.filled
  sound := h.sound
  move_eq := h.move_eq
  move_of_not := h.move_of_not
  forward := by
    intro p hp
    have htwo := (h₀.ok (h.cells p hp)).two_le
    have hforward := h.forward p hp
    dsimp only
    rw [helse p (h₀.elsewhere (h.cells p hp) ⟨Nat.le_refl p, by omega⟩),
      helse (p + 1) (h₀.elsewhere (h.cells p hp) ⟨Nat.le_add_right p 1, by omega⟩)]
    exact hforward
  header := by
    intro p hp
    have htwo := (h₀.ok (h.cells p hp)).two_le
    have hword := hcopies p hp 0 (by omega)
    rw [Nat.add_zero] at hword
    exact hword.trans (h.header p hp)
  field := by
    intro p type i hp hmem
    exact (hcopies p hp i ((h₀.ok (h.cells p hp)).inside hmem)).trans (h.field hp hmem)
  other := fun ha hout => (helse _ ha).trans (h.other ha hout)
  laidOut := by
    have hnodup := h.page_nodup h₀
    refine ⟨?_, h.laidOut.current, h.laidOut.none, h.laidOut.visited⟩
    obtain ⟨full, hfull, hpages⟩ := h.laidOut.full
    refine ⟨full, hfull, fun pn hpn => ?_⟩
    obtain ⟨used, hle, hword, htiled⟩ := hpages pn hpn
    rw [hfull] at hused hnodup
    refine ⟨used, hle, (hused pn (List.mem_append_left _ hpn) fun hto => ?_).trans hword, htiled⟩
    exact (List.nodup_append.mp hnodup).2.2 pn hpn pn (by simp [hto]) rfl
  remSets := h.remSets

/-- The second word of a page is not in a copy. -/
theorem Copying.place_ne (h : Copying params s₀ B roots c s) (hp : p ∈ c.visited) {i : Nat}
    (hi : i < cellGetNumberOfWords s₀.words p) :
    c.move p + i ≠ params.pageNumberToPagePtr pn + 1 := by
  obtain ⟨pn', -, hle, hend, -⟩ := h.place hp
  have hgt := params.wordsPerPage_gt
  intro heq
  simp only [numberOfRootBlockItems] at hgt
  have hpage : params.ptrToPageNumber (c.move p + i) = pn' :=
    ptrToPageNumber_eq (by omega) (by omega)
  have hpage' : params.ptrToPageNumber (c.move p + i) = pn :=
    ptrToPageNumber_eq (by omega) (by omega)
  obtain rfl := hpage.symm.trans hpage'
  omega

theorem Copying.setNumberOfWordsInUse (h : Copying params s₀ B roots c s)
    (h₀ : s₀.FromSpace params B roots) :
    ∃ words, s.setNumberOfWordsInUse params = .ok { s with words := words } ∧
      Copying params s₀ B roots c { s with words := words } ∧
      ∀ pn, s.gens.toPn = some pn →
        words (params.pageNumberToPagePtr pn + 1) = s.toPtr - params.pageNumberToPagePtr pn := by
  unfold Heap.setNumberOfWordsInUse
  cases hto : s.gens.toPn with
  | none => exact ⟨s.words, rfl, h, nofun⟩
  | some pn =>
    obtain ⟨hptr, hend, htiled⟩ := h.laidOut.current pn hto
    have hle := htiled.le
    obtain ⟨full, hfull, -⟩ := h.laidOut.full
    have hpn : pn ∈ s.gens.page s.gens.toGn := by simp [hfull, hto]
    have hgt := params.wordsPerPage_gt
    dsimp only
    rw [if_pos ⟨by omega, by omega⟩]
    refine ⟨_, rfl, h.frame h₀ (fun a ha => ?_) (fun p hp i hi => ?_) (fun pn' _ hne => ?_), ?_⟩
    · refine Function.update_of_ne ?_ _ _
      rintro rfl
      refine (h.elsewhere h₀ ha).1 ?_
      rwa [ptrToPageNumber_succ]
    · exact Function.update_of_ne (h.place_ne hp hi) _ _
    · refine Function.update_of_ne ?_ _ _
      intro heq
      have hmul := Nat.add_right_cancel heq
      have hpos : 0 < params.wordsPerPage := Nat.lt_of_le_of_lt (Nat.zero_le _) hgt
      rw [HeapParams.pageNumberToPagePtr, HeapParams.pageNumberToPagePtr] at hmul
      exact hne (by rw [hto, Nat.eq_of_mul_eq_mul_right hpos hmul])
    · rintro _ ⟨⟩
      exact Function.update_self ..

theorem newToPage_eq {g : Generations} {rest : List Nat} (hfree : g.listOfFreePages = pn :: rest)
    (hpn : g.pageIsAllocated pn = false) (hrecovering : g.isRecovering = false) :
    g.newToPage = .ok { g with
      toPn := some pn
      npages := Function.update g.npages g.toGn (g.npages g.toGn + 1)
      page := Function.update g.page g.toGn (g.page g.toGn ++ [pn])
      listOfFreePages := rest
      pageIsAllocated := Function.update g.pageIsAllocated pn true
      numberOfFreePages := g.numberOfFreePages - 1
      pageGeneration := Function.update g.pageGeneration pn (g.address g.toGn) } := by
  simp only [Generations.newToPage, Generations.allocatePage, hfree, hpn, hrecovering]
  rfl

/-- No cell has been copied to a new page, and the page before it is full. -/
theorem LaidOut.newPage (h : LaidOut params s₀ c s) (hnotMem : pn ∉ s.gens.page s.gens.toGn)
    (hused : ∀ pn', s.gens.toPn = some pn' →
      s.words (params.pageNumberToPagePtr pn' + 1) = s.toPtr - params.pageNumberToPagePtr pn')
    (hwords : t.words = s.words)
    (hpage : t.gens.page t.gens.toGn = s.gens.page s.gens.toGn ++ [pn])
    (hto : t.gens.toPn = some pn) (hptr : t.toPtr = params.pageNumberToPagePtr pn + 2)
    (hend : t.toEnd = params.pageNumberToPagePtr pn + params.wordsPerPage) :
    LaidOut params s₀ { c with olds := Function.update c.olds pn [] } t := by
  have hgt := params.wordsPerPage_gt
  simp only [numberOfRootBlockItems] at hgt
  have holds : ∀ pn' ∈ s.gens.page s.gens.toGn,
      Function.update c.olds pn [] pn' = c.olds pn' := fun pn' hpn' =>
    Function.update_of_ne (ne_of_mem_of_not_mem hpn' hnotMem) _ _
  refine ⟨⟨s.gens.page s.gens.toGn, by rw [hpage, hto]; rfl, fun pn' hpn' => ?_⟩,
    fun pn' hto' => ?_, fun hnone => absurd (hto.symm.trans hnone) (Option.some_ne_none pn), ?_⟩
  · dsimp only
    rw [holds pn' hpn', hwords]
    obtain ⟨full, hfull, hpages⟩ := h.full
    rw [hfull, List.mem_append, Option.mem_toList] at hpn'
    rcases hpn' with hpn' | hlast
    · exact hpages pn' hpn'
    · obtain ⟨hle, hstop, htiled⟩ := h.current pn' hlast
      have hstart := htiled.le
      refine ⟨s.toPtr - params.pageNumberToPagePtr pn', by omega, hused pn' hlast, ?_⟩
      rwa [Nat.add_sub_cancel' (by omega)]
  · obtain rfl : pn = pn' := Option.some.inj (hto.symm.trans hto')
    refine ⟨by omega, hend, ?_⟩
    dsimp only
    rw [Function.update_self, hptr]
    rfl
  · dsimp only
    rw [hpage, List.flatMap_append, List.flatMap_singleton, Function.update_self,
      List.append_nil, List.flatMap_congr holds]
    exact h.visited

theorem Copying.newToPage (h : Copying params s₀ B roots c s) (h₀ : s₀.FromSpace params B roots) :
    Ends (s.newToPage params)
      (fun t => ∃ olds pn, Copying params s₀ B roots { c with olds := olds } t ∧
        t.gens.toPn = some pn ∧ t.toPtr = params.pageNumberToPagePtr pn + 2 ∧
        t.toEnd = params.pageNumberToPagePtr pn + params.wordsPerPage)
      (· = .generations .outOfMemory) := by
  obtain ⟨words, hrun, hwords, hused⟩ := h.setNumberOfWordsInUse h₀
  obtain ⟨ages, froms, twice, hsound⟩ := h₀.gens
  have hpages := (h.sound hsound).pages
  have hlive := h.isLive h₀
  have hrecovering : s.gens.isRecovering = false := by
    obtain ⟨_, _, _, _, _, _, hs, -⟩ := h.filled
    rw [hs]
    exact h₀.recovering
  unfold Heap.newToPage
  rw [hrun, ends_ok_bind]
  cases hfree : s.gens.listOfFreePages with
  | nil =>
    have hnew : s.gens.newToPage = .error .outOfMemory := by
      simp only [Generations.newToPage, Generations.allocatePage, hfree]
      rfl
    simp only [hnew, withGens]
    rfl
  | cons pn rest =>
    have hpn := hpages.notAllocated trivial pn (by simp [hfree])
    have hnew := newToPage_eq hfree hpn hrecovering
    have hstep := fun {ages froms twice}
      (hsound : s₀.gens.Sound params.numberOfPages True ages froms twice) =>
        ((h.sound hsound).newToPage hlive hrecovering).of_ok hnew
    simp only [hnew, withGens, ends_ok_bind, ends_ok]
    have hnotMem : pn ∉ s.gens.page s.gens.toGn := by
      intro hmem
      rw [(hpages.allocated trivial hlive hmem).1] at hpn
      exact Bool.false_ne_true hpn.symm
    refine ⟨Function.update c.olds pn [], pn, ?_, rfl, rfl, rfl⟩
    exact {
      traversed := hwords.traversed
      cells := hwords.cells
      declared := hwords.declared
      pushed := hwords.pushed
      copyStack := hwords.copyStack
      allocationPtr := hwords.allocationPtr
      smartPtrs := hwords.smartPtrs
      filled := hwords.filled.trans (hstep hsound).1
      sound := fun hsound => (hstep hsound).2
      move_eq := hwords.move_eq
      move_of_not := hwords.move_of_not
      forward := hwords.forward
      header := hwords.header
      field := hwords.field
      other := hwords.other
      laidOut := hwords.laidOut.newPage hnotMem hused rfl (Function.update_self ..) rfl rfl rfl
      remSets := hwords.remSets }

theorem Copying.reserve (h : Copying params s₀ B roots c s) (h₀ : s₀.FromSpace params B roots)
    {n : Nat} (hpos : 0 < n) (hn : n ≤ params.wordsPerPage - 2) :
    Ends (s.reserve params n)
      (fun r => ∃ olds pn t, Copying params s₀ B roots { c with olds := olds } t ∧
        t.gens.toPn = some pn ∧ t.toPtr + n ≤ t.toEnd ∧
        r = (t.toPtr, { t with toPtr := t.toPtr + n }))
      (· = .generations .outOfMemory) := by
  unfold Heap.reserve
  refine Ends.bind (P := fun t => ∃ olds pn, Copying params s₀ B roots { c with olds := olds } t ∧
    t.gens.toPn = some pn ∧ t.toPtr + n ≤ t.toEnd) ?_ ?_
  · refine ends_ite (fun _ => (h.newToPage h₀).imp ?_) fun hroom => ?_
    · rintro t ⟨olds, pn, ht, hto, hptr, hend⟩
      have hgt := params.wordsPerPage_gt
      refine ⟨olds, pn, ht, hto, ?_⟩
      omega
    · cases hto : s.gens.toPn with
      | none =>
        have hnull := h.laidOut.none hto
        rw [hnull.1, hnull.2] at hroom
        exact absurd hpos (by simp only [nullPtr] at hroom; omega)
      | some pn => exact ⟨c.olds, pn, h, hto, Nat.not_lt.mp hroom⟩
  · rintro t ⟨olds, pn, ht, hto, hroom⟩
    exact ⟨olds, pn, t, ht, hto, hroom, rfl⟩

/-! ## the words of a cell are copied -/

/-- The declared words of a cell are copied, and the slots among them are pushed. -/
theorem copyDecls_ends (decls : List Decl) {s : Heap}
    (hnonnull : ∀ {i}, Decl.field .nonnullPtr i ∈ decls → s.words (p + i) ≠ nullWord)
    (hapart : ∀ {type type' i j}, Decl.field type i ∈ decls → Decl.field type' j ∈ decls →
      p + i ≠ newP + j) :
    Ends (decls.foldlM (copyField p newP) s)
      (fun t => ∃ words, t = { s with
          words := words
          copyStack := ((decls.filterMap (declSlot s.words p)).map
            fun b => newP + (b - p)).reverse ++ s.copyStack } ∧
        Decl.abort ∉ decls ∧
        (∀ {type i}, Decl.field type i ∈ decls → words (newP + i) = s.words (p + i)) ∧
        ∀ a, (∀ {type i}, Decl.field type i ∈ decls → a ≠ newP + i) → words a = s.words a)
      (fun failure => failure = .abort ∧ Decl.abort ∈ decls) := by
  induction decls generalizing s with
  | nil => exact ⟨s.words, rfl, List.not_mem_nil, nofun, fun _ _ => rfl⟩
  | cons d decls ih =>
    rw [List.foldlM_cons]
    cases d with
    | abort => exact ⟨rfl, List.mem_cons_self⟩
    | field type i =>
      have hmem : Decl.field type i ∈ Decl.field type i :: decls := List.mem_cons_self
      -- the word is copied, and pushed if it refers to a cell
      have hfield : copyField p newP s (.field type i) = .ok { s with
          words := Function.update s.words (newP + i) (s.words (p + i))
          copyStack := if type.refers (s.words (p + i)) then (newP + i) :: s.copyStack
            else s.copyStack } := by
        by_cases hnull : s.words (p + i) = nullWord
        · cases type with
          | nonnullPtr => exact absurd hnull (hnonnull hmem)
          | word | void | ptr | tagged => simp [copyField, set, hnull]
        · cases type with
          | tagged => cases htagged : taggedIsPtr (s.words (p + i)) <;>
              simp [copyField, set, push, hnull, htagged, WordType.refers]
          | word | void | ptr | nonnullPtr =>
            simp [copyField, set, push, hnull, WordType.refers]
      rw [hfield, ends_ok_bind]
      have hsame : ∀ {type' j}, Decl.field type' j ∈ decls →
          Function.update s.words (newP + i) (s.words (p + i)) (p + j) = s.words (p + j) :=
        fun hj => Function.update_of_ne (hapart (List.mem_cons_of_mem _ hj) hmem) _ _
      refine (ih (fun hj => ?_) fun hj hj' => ?_).mono ?_ ?_
      · dsimp only
        rw [hsame hj]
        exact hnonnull (List.mem_cons_of_mem _ hj)
      · exact hapart (List.mem_cons_of_mem _ hj) (List.mem_cons_of_mem _ hj')
      · rintro t ⟨words, rfl, hdeclared, hcopied, hother⟩
        refine ⟨words, ?_, by simpa using hdeclared, ?_, fun a ha => ?_⟩
        · have hslots : decls.filterMap (declSlot
              (Function.update s.words (newP + i) (s.words (p + i))) p) =
                decls.filterMap (declSlot s.words p) := by
            refine List.filterMap_congr fun d hd => ?_
            cases d with
            | abort => rfl
            | field type' j => rw [declSlot, declSlot, hsame hd]
          dsimp only
          rw [hslots]
          cases hrefers : type.refers (s.words (p + i)) <;> simp [declSlot, hrefers]
        · intro type' j hj
          by_cases hrest : ∃ type'', Decl.field type'' j ∈ decls
          · obtain ⟨type'', hrest⟩ := hrest
            exact (hcopied hrest).trans (hsame hrest)
          · rcases List.mem_cons.mp hj with heq | hj
            · obtain ⟨rfl, rfl⟩ := Decl.field.inj heq
              rw [hother (newP + j)]
              · exact Function.update_self ..
              rintro type'' k hk heq
              exact hrest ⟨type'', Nat.add_left_cancel heq ▸ hk⟩
            · exact absurd ⟨type', hj⟩ hrest
        · rw [hother a fun hj => ha (List.mem_cons_of_mem _ hj)]
          exact Function.update_of_ne (ha hmem) _ _
      · rintro failure ⟨rfl, habort⟩
        exact ⟨rfl, List.mem_cons_of_mem _ habort⟩

/-! ## where the slots are -/

/-- No word of a copy is at such an address. -/
theorem Copying.copy_ne (h : Copying params s₀ B roots c s) (h₀ : s₀.FromSpace params B roots)
    (hq : q ∈ c.visited) {i : Nat} (hi : i < cellGetNumberOfWords s₀.words q)
    (ha : s₀.Elsewhere params a) : c.move q + i ≠ a := by
  obtain ⟨pn, hpn, hle, hend, -⟩ := h.place hq
  rintro rfl
  have hpage : params.ptrToPageNumber (c.move q + i) = pn :=
    ptrToPageNumber_eq (by omega) (by omega)
  exact (h.elsewhere h₀ ha).1 (hpage.symm ▸ hpn)

theorem Copying.toPn_mem (h : Copying params s₀ B roots c s) (hto : s.gens.toPn = some pn) :
    pn ∈ s.gens.page s.gens.toGn := by
  obtain ⟨full, hfull, -⟩ := h.laidOut.full
  simp [hfull, hto]

/-- Where the next copy will be. -/
theorem Copying.newPage (h : Copying params s₀ B roots c s) (hto : s.gens.toPn = some pn) {n : Nat}
    (hroom : s.toPtr + n ≤ s.toEnd) (hle : s.toPtr ≤ a) (hlt : a < s.toPtr + n) :
    params.ptrToPageNumber a = pn := by
  obtain ⟨hptr, hend, hcurrent⟩ := h.laidOut.current pn hto
  have hstart := hcurrent.le
  exact ptrToPageNumber_eq (by omega) (by omega)

/-- The next copy will not be at such an address. -/
theorem Copying.not_new (h : Copying params s₀ B roots c s) (h₀ : s₀.FromSpace params B roots)
    (hto : s.gens.toPn = some pn) {n : Nat} (hroom : s.toPtr + n ≤ s.toEnd)
    (ha : s₀.Elsewhere params a) : ¬ (s.toPtr ≤ a ∧ a < s.toPtr + n) := by
  rintro ⟨hle, hlt⟩
  exact (h.elsewhere h₀ ha).1 (h.newPage hto hroom hle hlt ▸ h.toPn_mem hto)

/-- A slot is the only one that is where it is. -/
theorem Copying.eq_slot (h : Copying params s₀ B roots c s) (h₀ : s₀.FromSpace params B roots)
    (hb : b ∈ c.done ++ (c.stack ++ c.left)) (hq : q ∈ c.visited) {i : Nat}
    (hi : i < cellGetNumberOfWords s₀.words q) (heq : c.move q + i = c.move b) :
    0 < i ∧ q + i = b := by
  rcases h.traversed.mem_or hb with hroot | ⟨q', hq', hb'⟩
  · obtain ⟨helse, hout⟩ := h₀.rootsOutside hroot
    rw [h.move_of_not fun p hp => hout p (h.cells p hp)] at heq
    exact absurd heq (h.copy_ne h₀ hq hi helse)
  · obtain ⟨hlt, hlt'⟩ := (h₀.ok (h.cells q' hq')).slot_bounds hb'
    rw [h.move_eq hq' ⟨Nat.le_of_lt hlt, hlt'⟩] at heq
    obtain ⟨rfl, rfl⟩ := h.move_inj hq hq' hi (by omega) heq
    omega

/-- Such a slot is one of the roots. -/
theorem Copying.eq_root (h : Copying params s₀ B roots c s) (h₀ : s₀.FromSpace params B roots)
    (hb : b ∈ c.done ++ (c.stack ++ c.left)) (ha : s₀.Elsewhere params a) (heq : a = c.move b) :
    a = b ∧ ∀ p, B p → ¬ InsideCell s₀.words p a := by
  rcases h.traversed.mem_or hb with hroot | ⟨q, hq, hb'⟩
  · obtain ⟨-, hout⟩ := h₀.rootsOutside hroot
    rw [h.move_of_not fun p hp => hout p (h.cells p hp)] at heq
    exact ⟨heq, heq ▸ hout⟩
  · obtain ⟨hle, hlt⟩ := h₀.slot_insideCell (h.cells q hq) hb'
    rw [h.move_eq hq ⟨hle, hlt⟩] at heq
    exact absurd heq.symm (h.copy_ne h₀ hq (by omega) ha)

/-- The second word of a page that is copied to. -/
theorem Copying.used_ne (h : Copying params s₀ B roots c s) (h₀ : s₀.FromSpace params B roots)
    (hpn : pn ∈ s.gens.page s.gens.toGn) :
    params.ptrToPageNumber (params.pageNumberToPagePtr pn + 1) = pn ∧
      (∀ a, s₀.Elsewhere params a → params.pageNumberToPagePtr pn + 1 ≠ a) ∧
      ∀ b ∈ c.done ++ (c.stack ++ c.left), params.pageNumberToPagePtr pn + 1 ≠ c.move b := by
  have hpage : params.ptrToPageNumber (params.pageNumberToPagePtr pn + 1) = pn :=
    ptrToPageNumber_succ pn
  have helse : ∀ a, s₀.Elsewhere params a → params.pageNumberToPagePtr pn + 1 ≠ a := by
    rintro _ ha rfl
    exact (h.elsewhere h₀ ha).1 (hpage.symm ▸ hpn)
  refine ⟨hpage, helse, fun b hb => ?_⟩
  rcases h.traversed.mem_or hb with hroot | ⟨q, hq, hb'⟩
  · obtain ⟨hroot, hout⟩ := h₀.rootsOutside hroot
    rw [h.move_of_not fun p hp => hout p (h.cells p hp)]
    exact helse b hroot
  · obtain ⟨hle, hlt⟩ := h₀.slot_insideCell (h.cells q hq) hb'
    rw [h.move_eq hq ⟨hle, hlt⟩]
    exact (h.place_ne hq (by omega)).symm

/-! ## a cell is copied -/

open Classical in
/-- The cell at `p` is copied to `newP`, in the page `pn`. -/
noncomputable def CopyState.enter (words : Nat → Nat) (c : CopyState) (p newP pn : Nat) :
    CopyState where
  visited := p :: c.visited
  stack := (slots words p).reverse ++ c.stack
  left := c.left
  done := c.done
  move a := if InsideCell words p a then newP + (a - p) else c.move a
  olds := Function.update c.olds pn (c.olds pn ++ [p])
  rems := c.rems

theorem enter_move {words : Nat → Nat} (ha : InsideCell words p a) :
    (c.enter words p newP pn).move a = newP + (a - p) := if_pos ha

theorem enter_move_of_not {words : Nat → Nat} (ha : ¬ InsideCell words p a) :
    (c.enter words p newP pn).move a = c.move a := if_neg ha

/-- What slots refer to is where it was. -/
theorem Copying.slotValue_enter (h : Copying params s₀ B roots c s)
    (h₀ : s₀.FromSpace params B roots) (hB : B p) (hnew : p ∉ c.visited) (b : Nat) :
    slotValue s₀.words (c.enter s₀.words p newP pn) b = slotValue s₀.words c b := by
  by_cases hdone : b ∈ c.done
  · have hdone' : b ∈ (c.enter s₀.words p newP pn).done := hdone
    rw [slotValue, slotValue, if_pos hdone, if_pos hdone', enter_move_of_not]
    obtain ⟨-, -, htarget⟩ := h₀.target h.traversed h.cells (List.mem_append_left _ hdone)
    rcases htarget with hr | ⟨-, hout⟩
    · have hvisited := h.traversed.closed b hdone _ (cellGraph_target.mpr ⟨hr, rfl⟩)
      have htwo := (h₀.ok hr).two_le
      intro hin
      exact hnew (h₀.apart hr hB ⟨Nat.le_refl _, by omega⟩ hin ▸ hvisited)
    · exact hout p hB
  · rw [slotValue, slotValue, if_neg hdone, if_neg (by exact hdone)]

/-- The cell at `p` has not been copied, and there is room for it in the page `pn`. -/
structure RoomFor (s₀ : Heap) (B : Nat → Prop) (c : CopyState) (t : Heap) (p pn : Nat) :
    Prop where
  cell : B p
  notVisited : p ∉ c.visited
  toPn : t.gens.toPn = some pn
  room : t.toPtr + cellGetNumberOfWords s₀.words p ≤ t.toEnd

/-- The words after it was copied to the end of the page, and a forward pointer was left. -/
structure CopiedWords (s₀ t : Heap) (p : Nat) (words : Nat → Nat) : Prop where
  header : words t.toPtr = s₀.words p
  field : ∀ {type i}, Decl.field type i ∈ cellDecls s₀.words p →
    words (t.toPtr + i) = s₀.words (p + i)
  forward : words p = CellType.forwardPointer.header ∧ words (p + 1) = ptrToWord t.toPtr
  other : ∀ a, ¬ (t.toPtr ≤ a ∧ a < t.toPtr + cellGetNumberOfWords s₀.words p) → a ≠ p →
    a ≠ p + 1 → words a = t.words a

section enter

variable {words : Nat → Nat}

theorem FromSpace.insideCell_self (h₀ : s₀.FromSpace params B roots) (hB : B p) :
    InsideCell s₀.words p p ∧ InsideCell s₀.words p (p + 1) := by
  have htwo := (h₀.ok hB).two_le
  exact ⟨⟨Nat.le_refl p, by omega⟩, ⟨Nat.le_add_right p 1, by omega⟩⟩

/-- What has been copied is not in the cell. -/
theorem RoomFor.outside (hr : RoomFor s₀ B c t p pn) (h : Copying params s₀ B roots c t)
    (h₀ : s₀.FromSpace params B roots) (hq : q ∈ c.visited) (ha : InsideCell s₀.words q a) :
    ¬ InsideCell s₀.words p a :=
  fun hin => hr.notVisited (h₀.apart (h.cells _ hq) hr.cell ha hin ▸ hq)

/-- The page is the last one. -/
theorem RoomFor.not_full (hr : RoomFor s₀ B c t p pn) (h : Copying params s₀ B roots c t)
    (h₀ : s₀.FromSpace params B roots) {full : List Nat}
    (hfull : t.gens.page t.gens.toGn = full ++ t.gens.toPn.toList) : pn ∉ full := by
  have hnodup := h.page_nodup h₀
  rw [hfull] at hnodup
  exact fun hpn => (List.nodup_append.mp hnodup).2.2 pn hpn pn (by simp [hr.toPn]) rfl

/-- The other cells and their copies stay as they are. -/
theorem CopiedWords.cell (hw : CopiedWords s₀ t p words) (hr : RoomFor s₀ B c t p pn)
    (h : Copying params s₀ B roots c t) (h₀ : s₀.FromSpace params B roots) (hq : q ∈ c.visited)
    (ha : InsideCell s₀.words q a) : words a = t.words a := by
  obtain ⟨hp0, hp1⟩ := h₀.insideCell_self hr.cell
  refine hw.other a (h.not_new h₀ hr.toPn hr.room (h₀.elsewhere (h.cells q hq) ha)) ?_ ?_
  · rintro rfl
    exact hr.outside h h₀ hq ha hp0
  · rintro rfl
    exact hr.outside h h₀ hq ha hp1

theorem CopiedWords.copy (hw : CopiedWords s₀ t p words) (hr : RoomFor s₀ B c t p pn)
    (h : Copying params s₀ B roots c t) (h₀ : s₀.FromSpace params B roots) (hq : q ∈ c.visited)
    {i : Nat} (hi : i < cellGetNumberOfWords s₀.words q) :
    words (c.move q + i) = t.words (c.move q + i) := by
  obtain ⟨hp0, hp1⟩ := h₀.insideCell_self hr.cell
  refine hw.other _ (fun hin => ?_) (h.copy_ne h₀ hq hi (h₀.elsewhere hr.cell hp0))
    (h.copy_ne h₀ hq hi (h₀.elsewhere hr.cell hp1))
  obtain ⟨pn', hpn', hle, hend, hbefore⟩ := h.place hq
  have hpage : params.ptrToPageNumber (c.move q + i) = pn' :=
    ptrToPageNumber_eq (by omega) (by omega)
  have hsame := (h.newPage hr.toPn hr.room hin.1 hin.2).symm.trans hpage
  have hlast := hbefore (hr.toPn.trans (congrArg some hsame))
  omega

/-- The cell is where its copy is, and the other copies are where they were. -/
theorem RoomFor.move_self (hr : RoomFor s₀ B c t p pn) (h₀ : s₀.FromSpace params B roots) :
    (c.enter s₀.words p t.toPtr pn).move p = t.toPtr := by
  rw [enter_move (h₀.insideCell_self hr.cell).1, Nat.sub_self, Nat.add_zero]

theorem RoomFor.move_visited (hr : RoomFor s₀ B c t p pn) (h : Copying params s₀ B roots c t)
    (h₀ : s₀.FromSpace params B roots) (hq : q ∈ c.visited) :
    (c.enter s₀.words p t.toPtr pn).move q = c.move q :=
  enter_move_of_not (hr.outside h h₀ hq (h₀.insideCell_self (h.cells q hq)).1)

/-- The slots of the copy are put on the copy stack. -/
theorem RoomFor.copyStack (hr : RoomFor s₀ B c t p pn) (h : Copying params s₀ B roots c t)
    (h₀ : s₀.FromSpace params B roots) :
    ((slots s₀.words p).map fun b => t.toPtr + (b - p)).reverse ++ t.copyStack =
      (c.enter s₀.words p t.toPtr pn).stack.map (c.enter s₀.words p t.toPtr pn).move := by
  have hnext : (slots s₀.words p).map (c.enter s₀.words p t.toPtr pn).move =
      (slots s₀.words p).map fun b => t.toPtr + (b - p) :=
    List.map_congr_left fun b' hb' => enter_move (h₀.slot_insideCell hr.cell hb')
  have hrest : c.stack.map (c.enter s₀.words p t.toPtr pn).move = c.stack.map c.move :=
    List.map_congr_left fun b' hb' => enter_move_of_not
      (h₀.outside h.traversed h.cells (by simp [hb']) hr.cell hr.notVisited)
  rw [h.copyStack, ← hnext, ← hrest, ← List.map_reverse, ← List.map_append]
  rfl

/-- The copy comes next in the page. -/
theorem Copying.laidOut_enter (h : Copying params s₀ B roots c t)
    (h₀ : s₀.FromSpace params B roots) (hr : RoomFor s₀ B c t p pn)
    (hw : CopiedWords s₀ t p words) (copyStack : List Nat) :
    LaidOut params s₀ (c.enter s₀.words p t.toPtr pn) { t with
      words := words
      toPtr := t.toPtr + cellGetNumberOfWords s₀.words p
      copyStack := copyStack } := by
  obtain ⟨hp0, hp1⟩ := h₀.insideCell_self hr.cell
  obtain ⟨hptr, hend, hcurrent⟩ := h.laidOut.current pn hr.toPn
  obtain ⟨full, hfull, hused⟩ := h.laidOut.full
  have hpn := h.toPn_mem hr.toPn
  have hnotFull := hr.not_full h h₀ hfull
  have holds : ∀ {pn' q}, pn' ∈ t.gens.page t.gens.toGn → q ∈ c.olds pn' → q ∈ c.visited :=
    fun hpn' hq => h.laidOut.visited.mem_iff.mp (List.mem_flatMap.mpr ⟨_, hpn', hq⟩)
  refine ⟨⟨full, hfull, fun pn' hpn' => ?_⟩, fun pn' hto' => ?_,
    fun hnone => absurd (hr.toPn.symm.trans hnone) (Option.some_ne_none pn), ?_⟩
  · obtain ⟨used, hle, hword, htiled⟩ := hused pn' hpn'
    have hmem : pn' ∈ t.gens.page t.gens.toGn := by simp [hfull, hpn']
    have hne : pn' ≠ pn := ne_of_mem_of_not_mem hpn' hnotFull
    obtain ⟨hpage, helse, -⟩ := h.used_ne h₀ hmem
    refine ⟨used, hle, (hw.other _ (fun hin => ?_) (helse p (h₀.elsewhere hr.cell hp0))
      (helse (p + 1) (h₀.elsewhere hr.cell hp1))).trans hword, ?_⟩
    · exact hne (hpage.symm.trans (h.newPage hr.toPn hr.room hin.1 hin.2))
    · dsimp only [CopyState.enter]
      rw [Function.update_of_ne hne]
      exact htiled.congr (fun q hq => hr.move_visited h h₀ (holds hmem hq)) fun _ _ => rfl
  · obtain rfl : pn = pn' := Option.some.inj (hr.toPn.symm.trans hto')
    refine ⟨hr.room, hend, ?_⟩
    dsimp only [CopyState.enter]
    rw [Function.update_self]
    exact (hcurrent.congr (fun q hq => hr.move_visited h h₀ (holds hpn hq)) fun _ _ => rfl).snoc
      (hr.move_self h₀)
  · have hperm := h.laidOut.visited
    dsimp only
    rw [hfull, hr.toPn, Option.toList_some, List.flatMap_append, List.flatMap_singleton]
      at hperm ⊢
    have hsame : full.flatMap (Function.update c.olds pn (c.olds pn ++ [p])) =
        full.flatMap c.olds := List.flatMap_congr fun pn' hpn' =>
      Function.update_of_ne (ne_of_mem_of_not_mem hpn' hnotFull) _ _
    dsimp only [CopyState.enter]
    rw [hsame, Function.update_self, ← List.append_assoc]
    exact (List.perm_append_singleton _ _).trans (hperm.cons p)

/-- A slot refers to a cell that is copied now. -/
theorem Copying.enter (h : Copying params s₀ B roots c t) (h₀ : s₀.FromSpace params B roots)
    (hr : RoomFor s₀ B c t p pn) (hb : b ∈ c.stack ++ c.left)
    (htarget : wordToPtr (s₀.words b) = p) (hdeclared : Decl.abort ∉ cellDecls s₀.words p)
    (hw : CopiedWords s₀ t p words) :
    Copying params s₀ B roots (c.enter s₀.words p t.toPtr pn) { t with
      words := words
      toPtr := t.toPtr + cellGetNumberOfWords s₀.words p
      copyStack := ((slots s₀.words p).map fun b => t.toPtr + (b - p)).reverse ++ t.copyStack } := by
  have hok := h₀.ok hr.cell
  obtain ⟨hp0, hp1⟩ := h₀.insideCell_self hr.cell
  have hmoveP := hr.move_self h₀
  have hmove : ∀ {q}, q ∈ c.visited → (c.enter s₀.words p t.toPtr pn).move q = c.move q :=
    hr.move_visited h h₀
  -- what is known is not in the cell
  have hknown : ∀ {b'}, b' ∈ c.done ++ (c.stack ++ c.left) → ¬ InsideCell s₀.words p b' :=
    fun hb' => h₀.outside h.traversed h.cells hb' hr.cell hr.notVisited
  exact {
    traversed := by
      refine h.traversed.enter (List.mem_append_right _ hb)
        (cellGraph_target.mpr ⟨htarget.symm ▸ hr.cell, htarget.symm⟩) hr.notVisited ?_
      simp only [CopyState.enter, List.append_assoc]
      exact (List.reverse_perm _).append_right _
    cells := List.forall_mem_cons.mpr ⟨hr.cell, h.cells⟩
    declared := List.forall_mem_cons.mpr ⟨hdeclared, h.declared⟩
    pushed := by
      intro b' hb'
      rcases List.mem_append.mp hb' with hb' | hb'
      · exact ⟨p, List.mem_cons_self, List.mem_reverse.mp hb'⟩
      · obtain ⟨q, hq, hslot⟩ := h.pushed b' hb'
        exact ⟨q, List.mem_cons_of_mem p hq, hslot⟩
    copyStack := hr.copyStack h h₀
    allocationPtr := h.allocationPtr
    smartPtrs := h.smartPtrs
    filled := h.filled
    sound := h.sound
    move_eq := by
      intro q a hq ha
      rcases List.mem_cons.mp hq with rfl | hq
      · rw [hmoveP, enter_move ha]
      · rw [hmove hq, enter_move_of_not (hr.outside h h₀ hq ha), h.move_eq hq ha]
    move_of_not := by
      intro a ha
      obtain ⟨hp, ha⟩ := List.forall_mem_cons.mp ha
      rw [enter_move_of_not hp, h.move_of_not ha]
    forward := by
      refine List.forall_mem_cons.mpr ⟨hmoveP.symm ▸ hw.forward, fun q hq => ?_⟩
      obtain ⟨hq0, hq1⟩ := h₀.insideCell_self (h.cells q hq)
      dsimp only
      rw [hmove hq, hw.cell hr h h₀ hq hq0, hw.cell hr h h₀ hq hq1]
      exact h.forward q hq
    header := by
      refine List.forall_mem_cons.mpr ⟨hmoveP.symm ▸ hw.header, fun q hq => ?_⟩
      have hqtwo := (h₀.ok (h.cells q hq)).two_le
      have hword := hw.copy hr h h₀ hq (i := 0) (by omega)
      dsimp only
      rw [hmove hq, ← h.header q hq]
      rwa [Nat.add_zero] at hword
    field := by
      intro q type i hq hmem
      rw [h.slotValue_enter h₀ hr.cell hr.notVisited]
      rcases List.mem_cons.mp hq with rfl | hq
      · have hin : InsideCell s₀.words q (q + i) :=
          ⟨Nat.le_add_right q i, Nat.add_lt_add_left (hok.inside hmem) q⟩
        dsimp only
        rw [hmoveP, hw.field hmem, slotValue, if_neg]
        exact fun hdone => hknown (List.mem_append_left _ hdone) hin
      · dsimp only
        rw [hmove hq, hw.copy hr h h₀ hq ((h₀.ok (h.cells q hq)).inside hmem), h.field hq hmem]
    other := by
      intro a ha hout
      obtain ⟨hnot, hcells⟩ := List.forall_mem_cons.mp hout
      dsimp only
      rw [hw.other a (h.not_new h₀ hr.toPn hr.room ha) (fun h => hnot (h ▸ hp0))
        (fun h => hnot (h ▸ hp1)), h.other ha hcells,
        h.slotValue_enter h₀ hr.cell hr.notVisited]
    laidOut := h.laidOut_enter h₀ hr hw _
    remSets := by
      intro gn
      dsimp only
      rw [h.remSets gn]
      congr 1
      refine List.map_congr_left fun b' hb' => ?_
      exact (enter_move_of_not (hknown (List.mem_append_left _ (List.mem_filter.mp hb').1))).symm }

end enter

/-! ## a slot is followed -/

/-- A cell that is collected is in no generation that is to be collected later. -/
theorem FromSpace.not_refersTo (h₀ : s₀.FromSpace params B roots)
    (hB : B (wordToPtr (s₀.words b))) : s₀.refersTo params gn b = false := by
  obtain ⟨ages, froms, twice, hsound⟩ := h₀.gens
  rw [refersTo, decide_eq_false_iff_not]
  rintro ⟨hstatus, hpn⟩
  have hlive : (s₀.gens.status gn).IsLive := hstatus ▸ isLive_toBeCollected
  obtain ⟨hallocated, hgeneration⟩ := hsound.pages.allocated trivial hlive hpn
  rcases h₀.collected hB with hle | ⟨-, gn', -, hstatus', hpn'⟩
  · have hge := numberOfPages_le (Nat.le_trans h₀.allocated hle)
    exact absurd (hsound.pages.refers hallocated).1 (Nat.not_lt.mpr hge)
  · have hgeneration' := (hsound.pages.allocated trivial (hstatus' ▸ isLive_beingCollected) hpn').2
    obtain rfl := Generations.address_injective _ (hgeneration.symm.trans hgeneration')
    rw [hstatus] at hstatus'
    cases hstatus'

/-- A slot is followed to a cell that has been copied. -/
theorem Copying.follow (h : Copying params s₀ B roots c s) (h₀ : s₀.FromSpace params B roots)
    (hleft : c.left = b :: left) (hp : wordToPtr (s₀.words b) ∈ c.visited) :
    Copying params s₀ B roots { c with left := left, done := b :: c.done }
      (s.set (c.move b) (ptrToWord (c.move (wordToPtr (s₀.words b))))) := by
  have hb : b ∈ c.done ++ (c.stack ++ c.left) := by simp [hleft]
  have hvalue : ∀ b', slotValue s₀.words { c with left := left, done := b :: c.done } b' =
      if b' = b then ptrToWord (c.move (wordToPtr (s₀.words b))) else slotValue s₀.words c b' := by
    intro b'
    by_cases heq : b' = b
    · subst heq
      simp [slotValue]
    · simp [slotValue, heq]
  have hcopy : ∀ {q i}, q ∈ c.visited → i < cellGetNumberOfWords s₀.words q → q + i ≠ b →
      (s.set (c.move b) (ptrToWord (c.move (wordToPtr (s₀.words b))))).words (c.move q + i) =
        s.words (c.move q + i) := fun hq hi hne =>
    Function.update_of_ne (fun heq => hne (h.eq_slot h₀ hb hq hi heq).2) _ _
  exact {
    traversed := by
      refine h.traversed.follow (by rw [hleft]; exact List.perm_middle) fun q hq => ?_
      obtain ⟨-, rfl⟩ := cellGraph_target.mp hq
      exact hp
    cells := h.cells
    declared := h.declared
    pushed := h.pushed
    copyStack := h.copyStack
    allocationPtr := h.allocationPtr
    smartPtrs := h.smartPtrs
    filled := h.filled
    sound := h.sound
    move_eq := h.move_eq
    move_of_not := h.move_of_not
    forward := by
      intro q hq
      have hqtwo := (h₀.ok (h.cells q hq)).two_le
      have hsame : ∀ {a}, InsideCell s₀.words q a → a ≠ c.move b := fun ha heq =>
        (h.eq_root h₀ hb (h₀.elsewhere (h.cells q hq) ha) heq).2 q (h.cells q hq) ha
      dsimp only [set]
      rw [Function.update_of_ne (hsame ⟨Nat.le_refl q, by omega⟩),
        Function.update_of_ne (hsame ⟨Nat.le_add_right q 1, by omega⟩)]
      exact h.forward q hq
    header := by
      intro q hq
      have hqtwo := (h₀.ok (h.cells q hq)).two_le
      dsimp only [set]
      rw [Function.update_of_ne, h.header q hq]
      intro heq
      exact absurd (h.eq_slot h₀ hb hq (i := 0) (by omega) heq).1 (Nat.lt_irrefl 0)
    field := by
      intro q type i hq hmem
      have hi := (h₀.ok (h.cells q hq)).inside hmem
      rw [hvalue]
      split
      case isTrue heq =>
        subst heq
        rw [h.move_eq hq ⟨Nat.le_add_right q i, Nat.add_lt_add_left hi q⟩,
          Nat.add_sub_cancel_left]
        exact Function.update_self ..
      case isFalse hne => rw [hcopy hq hi hne, h.field hq hmem]
    other := by
      intro a ha hout
      rw [hvalue]
      split
      case isTrue heq =>
        subst heq
        rw [h.move_of_not hout]
        exact Function.update_self ..
      case isFalse hne =>
        rw [← h.other ha hout]
        exact Function.update_of_ne (fun heq => hne (h.eq_root h₀ hb ha heq).1) _ _
    laidOut := by
      refine ⟨?_, h.laidOut.current, h.laidOut.none, h.laidOut.visited⟩
      obtain ⟨full, hfull, hused⟩ := h.laidOut.full
      refine ⟨full, hfull, fun pn hpn => ?_⟩
      obtain ⟨used, hle, hword, htiled⟩ := hused pn hpn
      have hmem : pn ∈ s.gens.page s.gens.toGn := by simp [hfull, hpn]
      refine ⟨used, hle, Eq.trans ?_ hword, htiled⟩
      exact Function.update_of_ne ((h.used_ne h₀ hmem).2.2 b hb) _ _
    remSets := by
      intro gn
      rw [List.filter_cons, h₀.not_refersTo (h.cells _ hp)]
      exact h.remSets gn }

/-- Why a cell is not copied: there is no free page, or the declarations of a cell that is
collected do not allow it. -/
def CopyFailure (words : Nat → Nat) (B : Nat → Prop) (failure : HeapFailure) : Prop :=
  failure = .generations .outOfMemory ∨
    failure = .abort ∧ ∃ p, B p ∧ Decl.abort ∈ cellDecls words p

/-- The words of a cell that has not been copied are copied to where there is room. -/
theorem Copying.copyFields (h : Copying params s₀ B roots c s) (h₀ : s₀.FromSpace params B roots)
    (hB : B p) (hnew : p ∉ c.visited) :
    Ends (s.copyFields params p)
      (fun r => ∃ olds pn t words, Copying params s₀ B roots { c with olds := olds } t ∧
        t.gens.toPn = some pn ∧ t.toPtr + cellGetNumberOfWords s₀.words p ≤ t.toEnd ∧
        r = (t.toPtr, { t with
          words := words
          toPtr := t.toPtr + cellGetNumberOfWords s₀.words p
          copyStack := ((slots s₀.words p).map fun b => t.toPtr + (b - p)).reverse ++
            t.copyStack }) ∧
        Decl.abort ∉ cellDecls s₀.words p ∧
        words t.toPtr = s₀.words p ∧
        (∀ {type i}, Decl.field type i ∈ cellDecls s₀.words p →
          words (t.toPtr + i) = s₀.words (p + i)) ∧
        ∀ a, ¬ (t.toPtr ≤ a ∧ a < t.toPtr + cellGetNumberOfWords s₀.words p) →
          words a = t.words a)
      (CopyFailure s₀.words B) := by
  have hok := h₀.ok hB
  have htwo := hok.two_le
  have hin : ∀ {type i}, Decl.field type i ∈ cellDecls s₀.words p → InsideCell s₀.words p (p + i) :=
    fun hi => ⟨Nat.le_add_right p _, Nat.add_lt_add_left (hok.inside hi) p⟩
  have hsize : cellGetNumberOfWords s.words p = cellGetNumberOfWords s₀.words p :=
    cellGetNumberOfWords_congr (h.unvisited h₀ hB hnew ⟨Nat.le_refl p, by omega⟩) fun i hi =>
      h.unvisited h₀ hB hnew (hin hi)
  unfold Heap.copyFields
  rw [h.decls h₀ hB hnew, hsize]
  refine Ends.bind ((h.reserve h₀ (by omega) (h₀.size_le hB)).mono (fun _ => id) fun _ => .inl) ?_
  rintro _ ⟨olds, pn, t, ht, hto, hroom, rfl⟩
  -- the words of the cell are not where the copy is
  have hapart : ∀ {a j}, InsideCell s₀.words p a → j < cellGetNumberOfWords s₀.words p →
      a ≠ t.toPtr + j := by
    rintro _ j ha hj rfl
    exact ht.not_new h₀ hto hroom (h₀.elsewhere hB ha)
      ⟨Nat.le_add_right _ j, Nat.add_lt_add_left hj _⟩
  have hsame : ∀ {a}, InsideCell s₀.words p a →
      Function.update t.words t.toPtr (t.words p) a = s₀.words a := by
    intro a ha
    refine (Function.update_of_ne ?_ _ _).trans (ht.unvisited h₀ hB hnew ha)
    exact hapart ha (Nat.lt_of_lt_of_le Nat.zero_lt_two htwo)
  have hp0 : t.words p = s₀.words p := ht.unvisited h₀ hB hnew ⟨Nat.le_refl p, by omega⟩
  have hfold := copyDecls_ends (cellDecls s₀.words p)
    (s := ({ t with toPtr := t.toPtr + cellGetNumberOfWords s₀.words p }.set t.toPtr (t.words p)))
    (fun hi => by
      dsimp only [set]
      rw [hsame (hin hi)]
      exact hok.nonnull hi)
    fun hi hj => hapart (hin hi) (hok.inside hj)
  refine Ends.bind (hfold.mono (fun _ => id) ?_) ?_
  · rintro failure ⟨rfl, habort⟩
    exact .inr ⟨rfl, p, hB, habort⟩
  · rintro _ ⟨words, rfl, hdeclared, hcopied, hother⟩
    dsimp only [set] at hcopied hother ⊢
    refine ⟨olds, pn, t, words, ht, hto, hroom, ?_, hdeclared, ?_, fun hi => ?_, fun a ha => ?_⟩
    · have hslots : (cellDecls s₀.words p).filterMap
          (declSlot (Function.update t.words t.toPtr (t.words p)) p) = slots s₀.words p := by
        refine List.filterMap_congr fun d hd => ?_
        cases d with
        | abort => rfl
        | field type i => rw [declSlot, declSlot, hsame (hin hd)]
      rw [hslots]
    · rw [hother t.toPtr fun hi => ?_, Function.update_self, hp0]
      have := cellDecls_pos hi
      omega
    · rw [hcopied hi, hsame (hin hi)]
    · rw [hother a fun hi heq => ?_, Function.update_of_ne]
      · rintro rfl
        exact ha ⟨Nat.le_refl _, by omega⟩
      · exact ha ⟨by omega, by have := hok.inside hi; omega⟩

/-- The first slot that is left is followed, and the cell is copied before if it has not been. -/
theorem Copying.copyCell (h : Copying params s₀ B roots c s) (h₀ : s₀.FromSpace params B roots)
    (hleft : c.left = b :: left) (hB : B (wordToPtr (s₀.words b))) :
    Ends (s.copyCell params (c.move b))
      (fun t => ∃ c', Copying params s₀ B roots c' t ∧ c'.left = left ∧ c'.done = b :: c.done ∧
        c'.rems = c.rems)
      (CopyFailure s₀.words B) := by
  have hb : b ∈ c.stack ++ c.left := by simp [hleft]
  have hword := h.pending h₀ hb
  obtain ⟨hne, -, -⟩ := h₀.target h.traversed h.cells (List.mem_append_right _ hb)
  generalize hp : wordToPtr (s₀.words b) = p at hB
  have hok := h₀.ok hB
  have htwo := hok.two_le
  unfold Heap.copyCell
  rw [hword, if_neg hne, hp]
  by_cases hvisited : p ∈ c.visited
  · obtain ⟨hforward, hplace⟩ := h.forward p hvisited
    have htype : cellType (s.words p) = CellType.forwardPointer.code := by
      rw [hforward]
      decide
    rw [if_pos htype, hplace]
    have hfollowed := h.follow h₀ hleft (hp.symm ▸ hvisited)
    rw [hp] at hfollowed
    exact ⟨_, hfollowed, rfl, rfl, rfl⟩
  · have hp0 : s.words p = s₀.words p := h.unvisited h₀ hB hvisited ⟨Nat.le_refl p, by omega⟩
    rw [if_neg (by rw [hp0]; exact hok.not_forward)]
    refine Ends.bind (h.copyFields h₀ hB hvisited) ?_
    rintro _ ⟨olds, pn, t, words, ht, hto, hroom, rfl, hdeclared, hheader, hfield, hother⟩
    have hp0 : InsideCell s₀.words p p := ⟨Nat.le_refl p, by omega⟩
    have hp1 : InsideCell s₀.words p (p + 1) := ⟨Nat.le_add_right p 1, by omega⟩
    have hcopy : ∀ {i}, i < cellGetNumberOfWords s₀.words p →
        t.toPtr + i ≠ p ∧ t.toPtr + i ≠ p + 1 := by
      intro i hi
      constructor
      · exact fun heq => ht.not_new h₀ hto hroom (h₀.elsewhere hB hp0) (by omega)
      · exact fun heq => ht.not_new h₀ hto hroom (h₀.elsewhere hB hp1) (by omega)
    have hcopied : CopiedWords s₀ t p (Function.update (Function.update words p
        CellType.forwardPointer.header) (p + 1) (ptrToWord t.toPtr)) := by
      refine ⟨?_, ?_, ?_, ?_⟩
      · have h0 := hcopy (i := 0) (by omega)
        rw [Nat.add_zero] at h0
        rw [Function.update_of_ne h0.2, Function.update_of_ne h0.1, hheader]
      · intro type i hi
        obtain ⟨hne0, hne1⟩ := hcopy (hok.inside hi)
        rw [Function.update_of_ne hne1, Function.update_of_ne hne0, hfield hi]
      · rw [Function.update_of_ne (by omega), Function.update_self, Function.update_self]
        exact ⟨rfl, rfl⟩
      · intro a ha hne0 hne1
        rw [Function.update_of_ne hne1, Function.update_of_ne hne0, hother a ha]
    have hentered := ht.enter h₀ ⟨hB, hvisited, hto, hroom⟩ hb hp hdeclared hcopied
    have hfollowed := hentered.follow h₀ hleft (by rw [hp]; exact List.mem_cons_self)
    have houtside := h₀.outside h.traversed h.cells (List.mem_append_right _ hb) hB hvisited
    rw [hp, enter_move hp0, enter_move_of_not houtside, Nat.sub_self, Nat.add_zero] at hfollowed
    have hroom := hfollowed.length_lt h₀ List.mem_cons_self
    have hlength := congrArg List.length hfollowed.copyStack
    rw [List.length_map] at hlength
    dsimp only [set] at hlength hfollowed ⊢
    rw [if_pos (hlength ▸ hroom)]
    exact ⟨_, hfollowed, rfl, rfl, rfl⟩

end facts

end Heap

end Shades
