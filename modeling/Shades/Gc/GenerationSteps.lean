import Mathlib.Order.Interval.Finset.Nat
import Shades.Ends
import Shades.Gc.GenerationInvariant

/-!
# Shades.Gc.GenerationSteps

What the functions on the table of generations do to what holds of it.

Each function has one theorem, which says what becomes of the lists and which
fields it leaves alone.  A function only fails when there is no memory, or when
two generations of a recovered database have the same page.
-/

namespace Shades

/-- The failures that are not excluded: there is no memory, or pages are not known to be
owned. -/
def GcFailure.Excused (owned : Prop) (e : GcFailure) : Prop :=
  e = .outOfMemory ∨ ¬ owned ∧ e = .pageAssertion

section setIfValid

variable {field : Nat → Nat} {o : Option Nat} {value g : Nat}

/-- The link of a generation at the end of a part of a list is set. -/
theorem setIfValid_of_mem (hg : g ≠ invalidGenerationNumber) (h : g ∈ o) :
    setIfValid field (o.getD invalidGenerationNumber) value g = value := by
  obtain rfl := h
  rw [Option.getD_some, setIfValid, if_pos hg, Function.update_self]

/-- The links of others are not, if there is nothing in that part either. -/
theorem setIfValid_of_notMem (hg : g ≠ invalidGenerationNumber) (h : g ∉ o) :
    setIfValid field (o.getD invalidGenerationNumber) value g = field g := by
  unfold setIfValid
  split
  · refine Function.update_of_ne (fun heq => ?_) _ _
    cases o with
    | none => exact hg heq
    | some b => exact h (heq ▸ rfl)
  · rfl

end setIfValid

theorem elements_eq {xs : List Nat} {n : Nat} (h : xs.length = n) : elements xs n = .ok xs := by
  simp [elements, ← h]

namespace Generations

variable {params : GenerationParams} {owned : Prop} {s : Generations} {ages twice as bs cs : List Nat}
  {froms : Nat → List Nat} {gn : Nat} {except : Option Nat}

/-! ## growing the table -/

/-- Another table, and pages that refer to it. -/
def Grown (s t : Generations) : Prop :=
  ∃ generationInfo numberOfGenerations count pageGeneration, t = { s with
    generationInfo := generationInfo
    numberOfGenerations := numberOfGenerations
    numberOfNonexistentGenerations := count
    pageGeneration := pageGeneration }

theorem count_grow {status : Nat → GenerationStatus} {n m : Nat} (hle : n ≤ m)
    (hinside : ∀ {gn}, status gn ≠ .nonexistent → gn < n) :
    {gn ∈ Finset.range m | status gn = .nonexistent}.card =
      {gn ∈ Finset.range n | status gn = .nonexistent}.card + (m - n) := by
  have hdisjoint : Disjoint {gn ∈ Finset.range n | status gn = .nonexistent} (Finset.Ico n m) := by
    rw [Finset.disjoint_left]
    intro gn hgn
    simp only [Finset.mem_filter, Finset.mem_range] at hgn
    simp only [Finset.mem_Ico]
    omega
  rw [← Nat.card_Ico n m, ← Finset.card_union_of_disjoint hdisjoint]
  congr 1
  ext gn
  simp only [Finset.mem_filter, Finset.mem_range, Finset.mem_union, Finset.mem_Ico]
  by_cases hgn : gn < n
  · simp [hgn, Nat.lt_of_lt_of_le hgn hle, Nat.not_le_of_lt hgn]
  · have hnone : status gn = .nonexistent := by
      by_contra hne
      exact hgn (hinside hne)
    simp [hgn, hnone, Nat.not_lt.mp hgn]

/-- A page refers to the same entry after the table was moved. -/
theorem address_grow (base base' gn : Nat) :
    base' + (base + gn * sizeofGenerationInfo - base) / sizeofGenerationInfo *
      sizeofGenerationInfo = base' + gn * sizeofGenerationInfo := by
  rw [Nat.add_sub_cancel_left, Nat.mul_div_cancel _ (by decide)]

theorem Sound.grow (h : s.Sound params.numberOfPages owned ages froms twice) (new : Nat) :
    Ends (generationInfoGrow params new s)
      (fun t => s.Grown t ∧ t.Sound params.numberOfPages owned ages froms twice ∧
        new ≤ t.numberOfGenerations)
      (GcFailure.Excused owned) := by
  unfold generationInfoGrow
  refine ends_ite (fun hle => ⟨⟨_, _, _, _, rfl⟩, h, hle⟩) fun hlt => ?_
  rw [Nat.not_le] at hlt
  cases hrealloc : params.realloc (new * sizeofGenerationInfo) with
  | none => exact .inl rfl
  | some base =>
    have hsize := params.realloc_lt hrealloc
    -- the new entries are marked, but nothing was there before
    have hstatus : (fun gn => if s.numberOfGenerations ≤ gn ∧ gn < new then .nonexistent
        else s.status gn) = s.status := by
      funext gn
      by_cases hgn : s.status gn = .nonexistent
      · simp [hgn]
      · rw [if_neg fun hin => Nat.not_lt.mpr hin.1 (h.table.inside hgn)]
    have haddress : ∀ {pn}, s.pageIsAllocated pn → ∀ {gn}, s.pageGeneration pn = s.address gn →
        (if pn < params.numberOfPages ∧ s.pageIsAllocated pn then
          base + (s.pageGeneration pn - s.generationInfo) / sizeofGenerationInfo *
            sizeofGenerationInfo
        else s.pageGeneration pn) = base + gn * sizeofGenerationInfo := by
      intro pn hpn gn hgn
      rw [if_pos ⟨(h.pages.refers hpn).1, hpn⟩, hgn]
      exact address_grow _ _ _
    simp only [ends_ok, hstatus]
    refine ⟨⟨_, _, _, _, rfl⟩, ?_, le_rfl⟩
    exact {
      table := {
        pos := Nat.lt_trans h.table.pos hlt
        le := by simp only [sizeofGenerationInfo, invalidGenerationNumber] at *; omega
        cursor_lt := Nat.lt_trans h.table.cursor_lt hlt
        inside := fun hgn => Nat.lt_trans (h.table.inside hgn) hlt
        count := by
          rw [count_grow hlt.le h.table.inside, ← h.table.count] }
      ages := h.ages
      froms := h.froms
      twice := h.twice
      pages := {
        refers := by
          intro pn hpn
          obtain ⟨hlt', gn, hlive, hmem, hgn⟩ := h.pages.refers hpn
          exact ⟨hlt', gn, hlive, hmem, haddress hpn hgn⟩
        free := h.pages.free
        allocated := by
          intro ho gn pn hlive hmem
          obtain ⟨hpn, hgn⟩ := h.pages.allocated ho hlive hmem
          exact ⟨hpn, haddress hpn hgn⟩
        nodup := h.pages.nodup
        freeNodup := h.pages.freeNodup
        notAllocated := h.pages.notAllocated }
      history := h.history }

/-! ## taking a number -/

/-- A free entry is found, however far it is away. -/
theorem searchNonexistent_spec {turns k : Nat} (hlt : k < turns)
    (hgn : gn < s.numberOfGenerations)
    (hk : s.status ((gn + k) % s.numberOfGenerations) = .nonexistent) :
    ∃ g < s.numberOfGenerations, s.searchNonexistent turns gn = some g ∧
      s.status g = .nonexistent := by
  induction turns generalizing gn k with
  | zero => cases hlt
  | succ turns ih =>
    unfold searchNonexistent
    by_cases hnone : s.status gn = .nonexistent
    · exact ⟨gn, hgn, if_pos hnone, hnone⟩
    · rw [if_neg hnone]
      cases k with
      | zero =>
        rw [Nat.add_zero, Nat.mod_eq_of_lt hgn] at hk
        exact absurd hk hnone
      | succ k =>
        refine ih (Nat.lt_of_succ_lt_succ hlt)
          (Nat.mod_lt _ (Nat.lt_of_le_of_lt (Nat.zero_le _) hgn)) ?_
        rwa [Nat.mod_add_mod, Nat.add_assoc, Nat.add_comm 1 k]

theorem Sound.search (h : s.Sound params.numberOfPages owned ages froms twice)
    (hcount : 0 < s.numberOfNonexistentGenerations) :
    ∃ g < s.numberOfGenerations,
      s.searchNonexistent s.numberOfGenerations s.allocateGn = some g ∧
        s.status g = .nonexistent := by
  rw [h.table.count, Finset.card_pos] at hcount
  obtain ⟨g, hg⟩ := hcount
  simp only [Finset.mem_filter, Finset.mem_range] at hg
  have hcursor := h.table.cursor_lt
  -- the distance from the cursor, around the end of the table
  refine searchNonexistent_spec
    (k := (g + s.numberOfGenerations - s.allocateGn) % s.numberOfGenerations)
    (Nat.mod_lt _ h.table.pos) hcursor ?_
  rw [Nat.add_mod_mod, ← Nat.add_sub_assoc (by omega), Nat.add_sub_cancel_left,
    Nat.add_mod_right, Nat.mod_eq_of_lt hg.1]
  exact hg.2

theorem Sound.take (h : s.Sound params.numberOfPages owned ages froms twice)
    (hidle : ∀ g, s.status g ≠ .beingCollected) (hgn : s.status gn = .nonexistent)
    (hlt : gn < s.numberOfGenerations) (npages : Nat) :
    (s.takeGeneration gn npages).Sound params.numberOfPages owned ages
      (Function.update froms gn []) twice := by
  have hages : gn ∉ ages := fun hmem => (h.ages.live gn hmem).ne_nonexistent hgn
  have hold : ∀ {g}, g ≠ gn → (Function.update s.status gn .normal g).IsLive →
      (s.status g).IsLive := by
    intro g hg hlive
    rwa [Function.update_of_ne hg] at hlive
  have hnew : ∀ {g}, (s.status g).IsLive → g ≠ gn := by
    rintro g hg rfl
    exact hg.ne_nonexistent hgn
  have hfroms : ∀ {g x}, (s.status g).IsLive → x ∈ froms g → x ≠ gn := by
    rintro g x hg hx rfl
    exact h.froms.ne_nonexistent hg hx hgn
  have htwice : ∀ g ∈ twice, g ≠ gn := by
    rintro g hg rfl
    simp [h.twice.collected g hg] at hgn
  have hchange : AgesSound s.older s.younger (Function.update s.status gn .normal) ages :=
    h.ages.change_outside hages (by decide)
  exact {
    table := h.table.take hlt hgn (by decide)
    ages := hchange.congr
      (fun g hg => Function.update_of_ne (ne_of_mem_of_not_mem hg hages) _ _)
      (fun g hg => Function.update_of_ne (ne_of_mem_of_not_mem hg hages) _ _)
      hchange.live fun _ => hchange.marked
    froms := {
      linked := by
        intro g hg
        by_cases heq : g = gn
        · subst heq
          simp [takeGeneration]
        · rw [Function.update_of_ne heq]
          simp only [takeGeneration, Function.update_of_ne heq]
          exact (h.froms.linked (hold heq hg)).congr fun x hx =>
            Function.update_of_ne (hfroms (hold heq hg) hx) _ _
      collected := by
        intro g x hg hx
        by_cases heq : g = gn
        · subst heq
          simp at hx
        · rw [Function.update_of_ne heq] at hx
          simp only [takeGeneration, setStatus, Function.update_of_ne (hfroms (hold heq hg) hx)]
          exact .inl ((h.froms.collected (hold heq hg) hx).resolve_right fun hx =>
            hidle x hx.2)
      unique := by
        intro g g' x hg hg' hx hx'
        by_cases heq : g = gn
        · subst heq
          simp at hx
        · by_cases heq' : g' = gn
          · subst heq'
            simp at hx'
          · rw [Function.update_of_ne heq] at hx
            rw [Function.update_of_ne heq'] at hx'
            exact h.froms.unique (hold heq hg) (hold heq' hg') hx hx' }
    twice := {
      linked := h.twice.linked.congr fun g hg => Function.update_of_ne (htwice g hg) _ _
      collected := fun g hg => by
        simp only [takeGeneration, setStatus, Function.update_of_ne (htwice g hg)]
        exact h.twice.collected g hg }
    pages := {
      refers := by
        intro pn hpn
        obtain ⟨hlt', g, hlive, hmem, haddress⟩ := h.pages.refers hpn
        have hne := hnew hlive
        refine ⟨hlt', g, ?_, ?_, haddress⟩
        · simpa only [takeGeneration, setStatus, Function.update_of_ne hne] using hlive
        · simpa only [takeGeneration, Function.update_of_ne hne] using hmem
      free := h.pages.free
      allocated := by
        intro ho g pn hg hmem
        by_cases heq : g = gn
        · subst heq
          simp [takeGeneration] at hmem
        · simp only [takeGeneration, Function.update_of_ne heq] at hmem
          exact h.pages.allocated ho (hold heq hg) hmem
      nodup := by
        intro ho g hg
        by_cases heq : g = gn
        · subst heq
          simp [takeGeneration]
        · simp only [takeGeneration, Function.update_of_ne heq]
          exact h.pages.nodup ho (hold heq hg)
      freeNodup := h.pages.freeNodup
      notAllocated := h.pages.notAllocated }
    history := h.history.take hgn }

/-- There is a new generation, `to_gn`, with so many pages. -/
structure Taken (s t : Generations) (npages : Nat) : Prop where
  free : s.status t.toGn = .nonexistent
  status : t.status = Function.update s.status t.toGn .normal
  npages : t.npages = Function.update s.npages t.toGn npages
  page : t.page = Function.update s.page t.toGn []
  diskPage : t.diskPage = Function.update s.diskPage t.toGn []
  toPn : t.toPn = s.toPn
  youngestGn : t.youngestGn = s.youngestGn
  prevToGn : t.prevToGn = s.prevToGn
  isCollecting : t.isCollecting = s.isCollecting
  isRecovering : t.isRecovering = s.isRecovering
  majorGcWasStarted : t.majorGcWasStarted = s.majorGcWasStarted

theorem Taken.normal {t : Generations} {n : Nat} (h : s.Taken t n) :
    t.status t.toGn = .normal := by
  rw [h.status, Function.update_self]

theorem Taken.keep {t : Generations} {n : Nat} (h : s.Taken t n) (hgn : s.status gn ≠ .nonexistent) :
    t.status gn = s.status gn := by
  rw [h.status]
  refine Function.update_of_ne ?_ _ _
  rintro rfl
  exact hgn h.free

theorem Taken.idle {t : Generations} {n : Nat} (h : s.Taken t n)
    (hidle : ∀ g, s.status g ≠ .beingCollected) (g : Nat) : t.status g ≠ .beingCollected := by
  rw [h.status]
  by_cases heq : g = t.toGn
  · simp [heq]
  · rw [Function.update_of_ne heq]
    exact hidle g

theorem Taken.arrays {t : Generations} (h : s.Taken t 0) (ha : s.ArraysSound except) :
    t.ArraysSound except where
  page := by
    intro g hg hexcept
    rw [h.status] at hg
    rw [h.page, h.npages]
    by_cases heq : g = t.toGn
    · simp [heq]
    · rw [Function.update_of_ne heq] at hg ⊢
      rw [Function.update_of_ne heq]
      exact ha.page hg hexcept
  diskPage := by
    intro g hg hexcept
    rw [h.status] at hg
    rw [h.diskPage, h.npages]
    by_cases heq : g = t.toGn
    · simp [heq]
    · rw [Function.update_of_ne heq] at hg ⊢
      rw [Function.update_of_ne heq]
      exact ha.diskPage hg hexcept

theorem Sound.growIfFew (h : s.Sound params.numberOfPages owned ages froms twice) :
    Ends (growIfFew params s)
      (fun t => s.Grown t ∧ t.Sound params.numberOfPages owned ages froms twice ∧
        0 < t.numberOfNonexistentGenerations)
      (GcFailure.Excused owned) := by
  have hpos := h.table.pos
  refine ends_ite (fun _ => ?_) fun hmany => ⟨⟨_, _, _, _, rfl⟩, h, by omega⟩
  refine (h.grow _).imp fun t ht => ⟨ht.1, ht.2.1, ?_⟩
  obtain ⟨⟨base, n, count, pageGeneration, rfl⟩, htsound, hle⟩ := ht
  -- the second half of the table is free
  rw [htsound.table.count, Finset.card_pos]
  refine ⟨s.numberOfGenerations, ?_⟩
  simp only [Finset.mem_filter, Finset.mem_range] at hle ⊢
  refine ⟨by omega, ?_⟩
  by_contra hne
  exact Nat.lt_irrefl _ (h.table.inside hne)

/-- A number is always found, once the table has grown if it has to. -/
theorem Sound.allocate (h : s.Sound params.numberOfPages owned ages froms twice)
    (hidle : ∀ g, s.status g ≠ .beingCollected) :
    Ends (allocateGeneration params s)
      (fun t => s.Taken t 0 ∧
        t.Sound params.numberOfPages owned ages (Function.update froms t.toGn []) twice)
      (GcFailure.Excused owned) := by
  unfold allocateGeneration
  refine h.growIfFew.bind fun u ⟨hu, husound, hcount⟩ => ?_
  obtain ⟨gn, hlt, hsearch, hgn⟩ := husound.search hcount
  rw [hsearch]
  obtain ⟨base, n, count, pageGeneration, rfl⟩ := hu
  refine ⟨⟨hgn, rfl, rfl, rfl, rfl, rfl, rfl, rfl, rfl, rfl, rfl⟩, ?_⟩
  have hcursor : Sound params.numberOfPages owned
      { s with
        generationInfo := base
        numberOfGenerations := n
        numberOfNonexistentGenerations := count
        pageGeneration := pageGeneration
        allocateGn := gn } ages froms twice :=
    { husound with table := { husound.table with cursor_lt := hlt } }
  exact hcursor.take hidle hgn hlt 0

/-! ## the list by age -/

/-- `to_gn` comes between two parts of the list. -/
theorem Sound.insert (h : s.Sound params.numberOfPages owned (as ++ bs) froms twice)
    (hto : s.toGn ∉ as ++ bs) (hnormal : s.status s.toGn = .normal)
    (hyoungest : as = [] → s.youngestGn = bs.headD invalidGenerationNumber) :
    ∃ younger older, s.insertGenerationAfter (as.getLastD invalidGenerationNumber) = { s with
        younger := younger
        older := older
        youngestGn := if as = [] then s.toGn else s.youngestGn } ∧
      Sound params.numberOfPages owned
        { s with
          younger := younger
          older := older
          youngestGn := if as = [] then s.toGn else s.youngestGn }
        (as ++ s.toGn :: bs) froms twice := by
  have hne : s.toGn ≠ invalidGenerationNumber := h.table.ne_invalid (by simp [hnormal])
  have hlinked := h.ages.linked
  -- the links, whichever branch sets them
  suffices hlinks : ∃ younger older,
      s.insertGenerationAfter (as.getLastD invalidGenerationNumber) = { s with
        younger := younger
        older := older
        youngestGn := if as = [] then s.toGn else s.youngestGn } ∧
      DoublyLinked older younger invalidGenerationNumber invalidGenerationNumber
        ((as ++ s.toGn :: bs).headD invalidGenerationNumber) (as ++ s.toGn :: bs)
        invalidGenerationNumber by
    obtain ⟨younger, older, hs, hlinks⟩ := hlinks
    refine ⟨younger, older, hs, { h with ages := ?_ }⟩
    exact {
      linked := hlinks
      live := by
        intro g hg
        rcases List.mem_append.mp hg with hg | hg
        · exact h.ages.live g (List.mem_append_left _ hg)
        · rcases List.mem_cons.mp hg with rfl | hg
          · simp [hnormal]
          · exact h.ages.live g (List.mem_append_right _ hg)
      marked := by
        intro g hg
        have := h.ages.marked hg
        simp only [List.mem_append, List.mem_cons] at this ⊢
        tauto }
  have hmem : ∀ {b}, b ∈ as ++ bs → b ≠ s.toGn := fun hb => ne_of_mem_of_not_mem hb hto
  have hvalid : ∀ {b}, b ∈ as ++ bs → b ≠ invalidGenerationNumber := fun hb => hlinked.ne_stop hb
  have hhead : s.toGn ∉ bs.head? := fun hhead =>
    hto (List.mem_append_right _ (List.mem_of_mem_head? hhead))
  rcases List.eq_nil_or_concat as with rfl | ⟨as, c, rfl⟩
  · have hyoungest := hyoungest rfl
    rw [List.headD_eq_head?_getD] at hyoungest
    refine ⟨_, _, by simp only [insertGenerationAfter, List.getLastD_nil, if_true]; rfl, ?_⟩
    rw [hyoungest]
    refine hlinked.insert hne (fun b hb _ => ?_) (fun b hb hnot => ?_) (by simp)
      (fun b hb => ?_) ?_ ?_
    · exact Function.update_of_ne (hmem hb) _ _
    · rw [setIfValid_of_notMem (hvalid hb) hnot, Function.update_of_ne (hmem hb)]
    · exact setIfValid_of_mem (hvalid (List.mem_of_mem_head? hb)) hb
    · rw [Function.update_self, List.headD_eq_head?_getD]
    · rw [setIfValid_of_notMem hne hhead, Function.update_self]
      rfl
  · have hc : c ≠ invalidGenerationNumber := hvalid (by simp)
    have hcto : c ≠ s.toGn := hmem (by simp)
    have holder : s.older c = bs.headD invalidGenerationNumber := by
      rw [List.concat_eq_append, List.append_assoc, List.singleton_append] at hlinked
      exact hlinked.next_eq
    rw [List.headD_eq_head?_getD] at holder
    refine ⟨_, _, by
      simp only [insertGenerationAfter, List.concat_eq_append, List.getLastD_concat, if_neg hc,
        List.append_eq_nil_iff, List.cons_ne_nil, and_false, if_false]
      rfl, ?_⟩
    rw [holder]
    refine hlinked.insert hne (fun b hb hnot => ?_) (fun b hb hnot => ?_) (fun b hb => ?_)
      (fun b hb => ?_) ?_ ?_
    · have hbc : b ≠ c := by
        rintro rfl
        exact hnot (by simp)
      rw [Function.update_of_ne hbc, Function.update_of_ne (hmem hb)]
    · rw [setIfValid_of_notMem (hvalid hb) hnot, Function.update_of_ne (hmem hb)]
    · obtain rfl : c = b := by simpa using hb
      exact Function.update_self ..
    · exact setIfValid_of_mem (hvalid (List.mem_append_right _ (List.mem_of_mem_head? hb))) hb
    · rw [Function.update_of_ne (Ne.symm hcto), Function.update_self, List.headD_eq_head?_getD]
    · rw [setIfValid_of_notMem hne hhead, Function.update_self]
      simp

/-! ## new pages -/

/-- More pages of `to_gn`. -/
def Filled (s t : Generations) : Prop :=
  ∃ toPn pns pageIsAllocated pageGeneration listOfFreePages numberOfFreePages, t = { s with
      toPn := toPn
      npages := Function.update s.npages s.toGn (s.npages s.toGn + pns.length)
      page := Function.update s.page s.toGn (s.page s.toGn ++ pns)
      pageIsAllocated := pageIsAllocated
      pageGeneration := pageGeneration
      listOfFreePages := listOfFreePages
      numberOfFreePages := numberOfFreePages } ∧
    (toPn = none → s.toPn = none ∧ pns = [])

theorem Filled.refl (s : Generations) : s.Filled s :=
  ⟨s.toPn, [], s.pageIsAllocated, s.pageGeneration, s.listOfFreePages, s.numberOfFreePages,
    by simp, fun h => ⟨h, rfl⟩⟩

theorem Filled.trans {t u : Generations} (h : s.Filled t) (h' : t.Filled u) : s.Filled u := by
  obtain ⟨_, pns, _, _, _, _, rfl, hnone⟩ := h
  obtain ⟨toPn, pns', isAllocated, generation, free, count, rfl, hnone'⟩ := h'
  refine ⟨toPn, pns ++ pns', isAllocated, generation, free, count, by simp [Nat.add_assoc],
    fun hto => ?_⟩
  obtain ⟨hfirst, rfl⟩ := hnone' hto
  obtain ⟨hstart, rfl⟩ := hnone hfirst
  exact ⟨hstart, rfl⟩

theorem Sound.newToPage (h : s.Sound params.numberOfPages owned ages froms twice)
    (hlive : (s.status s.toGn).IsLive) (hrecovering : s.isRecovering = false) :
    Ends s.newToPage
      (fun t => s.Filled t ∧ t.Sound params.numberOfPages owned ages froms twice)
      (GcFailure.Excused owned) := by
  have hpages := h.pages
  unfold Generations.newToPage allocatePage
  cases hfree : s.listOfFreePages with
  | nil => exact .inl rfl
  | cons pn rest =>
    rw [hfree] at hpages
    by_cases hpn : s.pageIsAllocated pn
    · simp only [if_pos hpn]
      exact .inr ⟨fun ho => by simp [hpages.notAllocated ho pn List.mem_cons_self] at hpn, rfl⟩
    · have hnot : ¬ s.isRecovering = true := by simp [hrecovering]
      simp only [if_neg hpn, if_neg hnot]
      refine ⟨⟨some pn, [pn], _, _, _, _, rfl, by simp⟩, ?_⟩
      exact { h with pages := hpages.add hlive (by simpa using hpn) }

theorem Sound.newToPages (h : s.Sound params.numberOfPages owned ages froms twice)
    (hlive : (s.status s.toGn).IsLive) (hrecovering : s.isRecovering = false) (n : Nat) :
    Ends (newToPages n s)
      (fun t => s.Filled t ∧ t.Sound params.numberOfPages owned ages froms twice)
      (GcFailure.Excused owned) := by
  induction n generalizing s with
  | zero => exact ⟨.refl s, h⟩
  | succ n ih =>
    refine (h.newToPage hlive hrecovering).bind fun t ⟨hfilled, ht⟩ => ?_
    have hrest : (t.status t.toGn).IsLive ∧ t.isRecovering = false := by
      obtain ⟨_, _, _, _, _, _, rfl, -⟩ := hfilled
      exact ⟨hlive, hrecovering⟩
    exact (ih ht hrest.1 hrest.2).imp fun u hu => ⟨hfilled.trans hu.1, hu.2⟩

/-- All elements of `disk_page` are set. -/
theorem Sound.setDiskPages (h : s.Sound params.numberOfPages owned ages froms twice)
    (hgn : s.status gn ≠ .nonexistent) (hempty : s.diskPage gn = []) (dpns : List Nat) :
    (s.setDiskPages gn dpns).Sound params.numberOfPages owned ages froms twice :=
  { h with history := h.history.set hgn hempty }

theorem ArraysSound.setDiskPages (h : s.ArraysSound (some gn))
    (hpage : (s.page gn).length = s.npages gn) {dpns : List Nat}
    (hdpns : dpns.length = s.npages gn) : (s.setDiskPages gn dpns).ArraysSound none where
  page := by
    intro g hg _
    by_cases heq : g = gn
    · subst heq
      exact hpage
    · exact h.page hg (by simp [Ne.symm heq])
  diskPage := by
    intro g hg _
    by_cases heq : g = gn
    · subst heq
      simpa [Generations.setDiskPages] using hdpns
    · simp only [Generations.setDiskPages, Function.update_of_ne heq]
      exact h.diskPage hg (by simp [Ne.symm heq])

/-- `to_gn` and its pages, after copying. -/
theorem Filled.finishGc {t : Generations} (hfilled : s.Filled t)
    (ht : t.Sound params.numberOfPages owned ages froms twice) (ha : s.ArraysSound none)
    (hlive : (s.status s.toGn).IsLive) (hempty : s.diskPage s.toGn = [])
    (diskPages : Nat → Nat) :
    ∃ diskPage history, t.finishGc diskPages =
        { t with diskPage := diskPage, history := history } ∧
      Sound params.numberOfPages owned { t with diskPage := diskPage, history := history }
        ages froms twice ∧
      ArraysSound { t with diskPage := diskPage, history := history } none := by
  obtain ⟨toPn, pns, _, _, _, _, rfl, hnone⟩ := hfilled
  unfold Generations.finishGc
  cases toPn with
  | none =>
    obtain ⟨-, rfl⟩ := hnone rfl
    refine ⟨_, _, rfl, ht, ?_⟩
    simp only [List.append_nil, List.length_nil, Nat.add_zero, Function.update_eq_self]
    exact { page := ha.page, diskPage := ha.diskPage }
  | some pn =>
    refine ⟨_, _, rfl, ht.setDiskPages hlive.ne_nonexistent hempty _, ?_⟩
    refine ArraysSound.setDiskPages ?_ (by simp [ha.page hlive]) (by simp)
    constructor
    · intro g hg hne
      have hne : g ≠ s.toGn := fun heq => hne (heq ▸ rfl)
      simp only [Function.update_of_ne hne]
      exact ha.page hg (by simp)
    · intro g hg hne
      have hne : g ≠ s.toGn := fun heq => hne (heq ▸ rfl)
      simp only [Function.update_of_ne hne]
      exact ha.diskPage hg (by simp)

/-! ## the beginning and the end of being collected -/

/-- The fields that say how far the collector is. -/
structure SameCourse (s t : Generations) : Prop where
  toGn : t.toGn = s.toGn
  youngestGn : t.youngestGn = s.youngestGn
  prevToGn : t.prevToGn = s.prevToGn
  isCollecting : t.isCollecting = s.isCollecting
  isRecovering : t.isRecovering = s.isRecovering
  majorGcWasStarted : t.majorGcWasStarted = s.majorGcWasStarted

theorem SameCourse.refl (s : Generations) : s.SameCourse s := ⟨rfl, rfl, rfl, rfl, rfl, rfl⟩

theorem SameCourse.trans {t u : Generations} (h : s.SameCourse t) (h' : t.SameCourse u) :
    s.SameCourse u where
  toGn := h'.toGn.trans h.toGn
  youngestGn := h'.youngestGn.trans h.youngestGn
  prevToGn := h'.prevToGn.trans h.prevToGn
  isCollecting := h'.isCollecting.trans h.isCollecting
  isRecovering := h'.isRecovering.trans h.isRecovering
  majorGcWasStarted := h'.majorGcWasStarted.trans h.majorGcWasStarted

theorem Sound.statusOf_eq (h : s.Sound params.numberOfPages owned ages froms twice)
    (hgn : s.status gn ≠ .nonexistent) : s.statusOf gn = .ok (s.status gn) :=
  if_pos (h.table.inside hgn)

/-- The generation is on the from-list of `to_gn`. -/
theorem Sound.beginCollecting (h : s.Sound params.numberOfPages owned ages froms twice)
    (hto : s.status s.toGn = .normal) (hgn : s.status gn = .toBeCollected) :
    ∃ nextFrom fromGn history, s.beginCollecting gn = .ok { s with
        status := Function.update s.status gn .beingCollected
        nextFrom := nextFrom
        fromGn := fromGn
        history := history } ∧
      Sound params.numberOfPages owned
        { s with
          status := Function.update s.status gn .beingCollected
          nextFrom := nextFrom
          fromGn := fromGn
          history := history }
        ages (Function.update froms s.toGn (gn :: froms s.toGn)) twice := by
  have hlive : (s.status gn).IsLive := by simp [hgn]
  have hne : s.status gn ≠ .nonexistent := hlive.ne_nonexistent
  refine ⟨_, _, _, by simp [Generations.beginCollecting, h.statusOf_eq hne, hgn]; rfl, ?_⟩
  exact {
    table := h.table.change hne (by decide)
    ages := h.ages.change (h.ages.marked hgn) isLive_beingCollected
    froms := h.froms.begin (by simp [hto]) hgn (h.table.ne_invalid hne)
    twice := h.twice.change (by simp [hgn]) _
    pages := h.pages.congr fun _ _ => isLive_update hlive isLive_beingCollected
    history := h.history.change (.inl (by rw [hgn]; rfl)) hne (by decide) }

theorem address_injective (s : Generations) : Function.Injective s.address := by
  intro gn gn' h
  simp only [address, sizeofGenerationInfo] at h
  omega

/-- The pages of a generation are freed, one after the other. -/
theorem freePages_spec {status : Nat → GenerationStatus} {page : Nat → List Nat} {pns : List Nat}
    {numberOfPages : Nat}
    (h : PagesSound numberOfPages owned status (Function.update page gn pns) s.address
      s.pageIsAllocated s.pageGeneration s.listOfFreePages) (hlive : (status gn).IsLive) :
    Ends (pns.foldlM freePage s)
      (fun t => ∃ pageIsAllocated pageGeneration listOfFreePages numberOfFreePages, t = { s with
          pageIsAllocated := pageIsAllocated
          pageGeneration := pageGeneration
          listOfFreePages := listOfFreePages
          numberOfFreePages := numberOfFreePages } ∧
        PagesSound numberOfPages owned status (Function.update page gn []) s.address
          pageIsAllocated pageGeneration listOfFreePages)
      (GcFailure.Excused owned) := by
  induction pns generalizing s with
  | nil => exact ⟨_, _, _, _, rfl, h⟩
  | cons pn pns ih =>
    rw [List.foldlM_cons]
    by_cases hpn : s.pageIsAllocated pn
    · have hnext := h.remove s.address_injective hlive (Function.update_self ..) hpn s.isRecovering
      rw [Function.update_idem] at hnext
      simp only [freePage, if_pos hpn]
      exact ih (s := { s with
        pageIsAllocated := Function.update s.pageIsAllocated pn false
        pageGeneration := Function.update s.pageGeneration pn 0
        listOfFreePages := if s.isRecovering then s.listOfFreePages else pn :: s.listOfFreePages
        numberOfFreePages := s.numberOfFreePages + 1 }) hnext
    · simp only [freePage, if_neg hpn]
      exact .inr ⟨fun ho => hpn (h.allocated ho hlive (by simp)).1, rfl⟩

/-- The generation is unlinked, if there is a younger one. -/
theorem unlinkGeneration_spec (h : DoublyLinked s.older s.younger invalidGenerationNumber
      invalidGenerationNumber ((as ++ gn :: bs).headD invalidGenerationNumber) (as ++ gn :: bs)
      invalidGenerationNumber) (has : as ≠ []) :
    ∃ younger older, s.unlinkGeneration gn = .ok { s with younger := younger, older := older } ∧
      DoublyLinked older younger invalidGenerationNumber invalidGenerationNumber
        ((as ++ bs).headD invalidGenerationNumber) (as ++ bs) invalidGenerationNumber := by
  obtain ⟨as, c, rfl⟩ := (List.eq_nil_or_concat as).resolve_left has
  rw [List.concat_eq_append] at *
  have hvalid : ∀ {b}, b ∈ (as ++ [c]) ++ bs → b ≠ invalidGenerationNumber := fun hb =>
    h.ne_stop (by simp only [List.mem_append, List.mem_cons] at hb ⊢; tauto)
  have hyounger : s.younger gn = c := by simpa using h.prev_eq
  have holder := h.next_eq
  rw [List.headD_eq_head?_getD] at holder
  have hc : c ≠ invalidGenerationNumber := hvalid (by simp)
  -- the link that is set first does not matter for what is read next
  have hsame : setIfValid s.younger (s.older gn) (s.younger gn) gn = c := by
    unfold setIfValid
    split
    · by_cases hgn : gn = s.older gn
      · rw [← hgn, Function.update_self, hyounger]
      · rw [Function.update_of_ne hgn, hyounger]
    · exact hyounger
  refine ⟨setIfValid s.younger (s.older gn) (s.younger gn), Function.update s.older c (s.older gn),
    ?_, ?_⟩
  · simp only [unlinkGeneration, hsame, if_pos hc]
  · refine h.remove (fun b hb hnot => ?_) (fun b hb hnot => ?_) (fun b hb => ?_) fun b hb => ?_
    · refine Function.update_of_ne ?_ _ _
      rintro rfl
      exact hnot (by simp)
    · rw [holder]
      exact setIfValid_of_notMem (hvalid hb) hnot
    · obtain rfl : c = b := by simpa using hb
      exact Function.update_self ..
    · rw [holder]
      exact setIfValid_of_mem (hvalid (List.mem_append_right _ (List.mem_of_mem_head? hb))) hb

/-- The generations of a from-list are collected twice. -/
theorem Sound.markFrom (h : s.Sound params.numberOfPages owned ages froms twice) {p turns : Nat}
    {xs : List Nat} (hlinked : Linked s.nextFrom invalidGenerationNumber p xs)
    (honce : ∀ x ∈ xs, s.status x = .collectedOnce)
    (hfroms : ∀ x ∈ xs, ∀ {g}, (s.status g).IsLive → x ∉ froms g) (hturns : xs.length < turns) :
    ∃ status nextCollectedTwice head history, markFromGenerations turns p s = .ok { s with
        status := status
        nextCollectedTwice := nextCollectedTwice
        generationsCollectedTwice := head
        history := history } ∧
      Sound params.numberOfPages owned
        { s with
          status := status
          nextCollectedTwice := nextCollectedTwice
          generationsCollectedTwice := head
          history := history }
        ages froms (xs.reverse ++ twice) ∧
      (∀ g ∈ xs, status g = .collectedTwice) ∧ ∀ g ∉ xs, status g = s.status g := by
  induction xs generalizing s p turns twice with
  | nil =>
    obtain ⟨turns, rfl⟩ : ∃ n, turns = n + 1 := ⟨turns - 1, by simp at hturns; omega⟩
    refine ⟨_, _, _, _, if_pos hlinked, h, by simp, fun _ _ => rfl⟩
  | cons x xs ih =>
    obtain ⟨turns, rfl⟩ : ∃ n, turns = n + 1 := ⟨turns - 1, by simp at hturns; omega⟩
    have hnodup := hlinked.nodup
    obtain ⟨rfl, hp, hrest⟩ := hlinked
    have hstatus := honce p List.mem_cons_self
    have hne : s.status p ≠ .nonexistent := by simp [hstatus]
    have hlive : ¬ (s.status p).IsLive := by simp [hstatus]
    have htwice : p ∉ twice := fun hmem => by simp [h.twice.collected p hmem] at hstatus
    have hmark : (s.markGenerationCollectedTwice p).Sound params.numberOfPages owned ages froms
        (p :: twice) := {
      table := h.table.change hne (by decide)
      ages := h.ages.change_outside (fun hmem => hlive (h.ages.live p hmem)) (by decide)
      froms := h.froms.change_outside (by decide) (hfroms p List.mem_cons_self)
      twice := {
        linked := h.twice.linked.push hp htwice
        collected := by
          intro g hg
          rcases List.mem_cons.mp hg with rfl | hg
          · exact Function.update_self ..
          · exact (h.twice.change (by simp [hstatus]) _).collected g hg }
      pages := h.pages.congr fun g _ => by
        rw [markGenerationCollectedTwice, setStatus,
          isLive_update_of_not not_isLive_collectedTwice]
        exact and_iff_right_of_imp fun hg heq => hlive (heq ▸ hg)
      history := h.history.change (.inl (by rw [hstatus]; rfl)) hne (by decide) }
    have hother : ∀ x ∈ xs, (s.markGenerationCollectedTwice p).status x = s.status x :=
      fun x hx => Function.update_of_ne (ne_of_mem_of_not_mem hx (List.nodup_cons.mp hnodup).1) _ _
    obtain ⟨status, next, head, history, hrun, hsound, hin, hout⟩ := ih hmark hrest
      (fun x hx => (hother x hx).trans (honce x (List.mem_cons_of_mem _ hx)))
      (fun x hx g hg => hfroms x (List.mem_cons_of_mem _ hx)
        ((isLive_update_of_not not_isLive_collectedTwice).mp hg).2)
      (Nat.lt_of_succ_lt_succ hturns)
    refine ⟨status, next, head, history, (if_neg hp).trans hrun, ?_, ?_, ?_⟩
    · rwa [List.reverse_cons, List.append_assoc]
    · intro g hg
      rcases List.mem_cons.mp hg with rfl | hg
      · rw [hout g (List.nodup_cons.mp hnodup).1]
        exact Function.update_self ..
      · exact hin g hg
    · intro g hg
      rw [List.mem_cons, not_or] at hg
      rw [hout g hg.2]
      exact Function.update_of_ne hg.1 _ _

/-- Live generations other than these stay as they are, and none but these stops being
collected. -/
structure CollectedOnce (s t : Generations) (gns : List Nat) : Prop where
  course : s.SameCourse t
  same : ∀ {g}, s.status g ≠ .collectedOnce → g ∉ gns → t.status g = s.status g
  being : ∀ {g}, t.status g = .beingCollected → s.status g = .beingCollected ∧ g ∉ gns
  live : ∀ {g}, (t.status g).IsLive → (s.status g).IsLive
  npages : t.npages = s.npages
  page : ∀ {g}, g ∉ gns → t.page g = s.page g

theorem CollectedOnce.trans {t u : Generations} {gns : List Nat} (h : s.CollectedOnce t [gn])
    (h' : t.CollectedOnce u gns) : s.CollectedOnce u (gn :: gns) where
  course := h.course.trans h'.course
  same := by
    intro g hg hmem
    rw [List.mem_cons, not_or] at hmem
    have hsame := h.same hg (by simpa using hmem.1)
    rw [h'.same (by rwa [hsame]) hmem.2, hsame]
  being := by
    intro g hg
    obtain ⟨ht, hmem⟩ := h'.being hg
    obtain ⟨hs, hne⟩ := h.being ht
    exact ⟨hs, by simp_all⟩
  live := fun hg => h.live (h'.live hg)
  npages := h'.npages.trans h.npages
  page := by
    intro g hmem
    rw [List.mem_cons, not_or] at hmem
    rw [h'.page hmem.2, h.page (by simpa using hmem.1)]

/-- The generation is out of the list by age, and those that it was collected from are
collected twice. -/
theorem Sound.collectOnce (h : s.Sound params.numberOfPages owned (as ++ gn :: bs) froms twice)
    (ha : s.ArraysSound none) (has : as ≠ []) (hgn : s.status gn = .beingCollected)
    (hto : gn ≠ s.toGn) :
    Ends (s.markGenerationCollectedOnce gn)
      (fun t => s.CollectedOnce t [gn] ∧ t.ArraysSound none ∧
        ∃ twice', t.Sound params.numberOfPages owned (as ++ bs) froms twice')
      (GcFailure.Excused owned) := by
  have hlive : (s.status gn).IsLive := by simp [hgn]
  have hne : s.status gn ≠ .nonexistent := hlive.ne_nonexistent
  have hnodup := h.ages.nodup
  have hmem : ∀ {g}, g ∈ as ++ bs → g ≠ gn := by
    rintro g hg rfl
    exact (List.nodup_cons.mp (List.nodup_middle.mp hnodup)).1 hg
  have hdead : ∀ {g}, (Function.update s.status gn .collectedOnce g).IsLive ↔
      g ≠ gn ∧ (s.status g).IsLive := isLive_update_of_not not_isLive_collectedOnce
  have honce : ∀ x ∈ froms gn, s.status x = .collectedOnce := fun x hx =>
    (h.froms.collected hlive hx).resolve_right fun hx => hto hx.1
  have hpns : elements ((s.setStatus gn .collectedOnce).page gn)
      ((s.setStatus gn .collectedOnce).npages gn) = .ok (s.page gn) :=
    elements_eq (ha.page hlive (by simp))
  simp only [markGenerationCollectedOnce, hpns, ends_ok_bind]
  have hpages : PagesSound params.numberOfPages owned s.status
      (Function.update s.page gn (s.page gn)) s.address s.pageIsAllocated s.pageGeneration
      s.listOfFreePages := by
    rw [Function.update_eq_self]
    exact h.pages
  refine (freePages_spec (s := s.setStatus gn .collectedOnce) hpages hlive).bind ?_
  rintro t ⟨isAllocated, generation, free, count, ht, hpages⟩
  have hchain : DoublyLinked t.older t.younger invalidGenerationNumber invalidGenerationNumber
      ((as ++ gn :: bs).headD invalidGenerationNumber) (as ++ gn :: bs)
      invalidGenerationNumber := by
    subst ht
    exact h.ages.linked
  obtain ⟨younger, older, hunlink, hlinked⟩ := unlinkGeneration_spec
    (s := { t with page := Function.update t.page gn [] }) hchain has
  rw [hunlink, ends_ok_bind]
  -- the state before the last loop
  have hsound : Sound params.numberOfPages owned
      { t with
        page := Function.update t.page gn []
        younger := younger
        older := older } (as ++ bs) froms twice := by
    subst ht
    exact {
      table := h.table.change hne (by decide)
      ages := {
        linked := hlinked
        live := fun g hg => hdead.mpr ⟨hmem hg, h.ages.live g (by
          simp only [List.mem_append, List.mem_cons] at hg ⊢
          tauto)⟩
        marked := by
          intro g hg
          have hggn : g ≠ gn := by
            rintro rfl
            simp [setStatus] at hg
          have hold : g ∈ as ++ gn :: bs := h.ages.marked (by
            simpa only [setStatus, Function.update_of_ne hggn] using hg)
          simp only [List.mem_append, List.mem_cons] at hold ⊢
          tauto }
      froms := h.froms.finish hgn
      twice := h.twice.change (by simp [hgn]) _
      pages := hpages.congr fun g hg => by
        have hggn : g ≠ gn := by
          rintro rfl
          simp at hg
        rw [setStatus, hdead]
        exact and_iff_right hggn
      history := h.history.change (.inl (by rw [hgn]; rfl)) hne (by decide) }
  have hfrom : Linked t.nextFrom invalidGenerationNumber (s.fromGn gn) (froms gn) := by
    subst ht
    exact h.froms.linked hlive
  have hturns : (froms gn).length < s.numberOfGenerations + 1 := by
    have hsub : (froms gn).toFinset ⊆ Finset.range s.numberOfGenerations := by
      intro x hx
      have hinside : x < s.numberOfGenerations :=
        h.table.inside (by simp [honce x (List.mem_toFinset.mp hx)])
      simpa using hinside
    have hcard := Finset.card_le_card hsub
    rw [List.toFinset_card_of_nodup (h.froms.linked hlive).nodup, Finset.card_range] at hcard
    exact Nat.lt_succ_of_le hcard
  have hmarks := hsound.markFrom hfrom
    (fun x hx => by
      subst ht
      have hxgn : x ≠ gn := by
        rintro rfl
        simp [honce x hx] at hgn
      simpa only [setStatus, Function.update_of_ne hxgn] using honce x hx)
    (fun x hx g hg hxg => by
      subst ht
      obtain ⟨hggn, hg⟩ := hdead.mp hg
      exact hggn (h.froms.unique hg hlive hxg hx))
    hturns
  obtain ⟨status, next, head, history, hrun, hfinal, hin, hout⟩ := hmarks
  subst ht
  simp only [setStatus] at hout
  have hcases : ∀ g, g ∈ froms gn ∧ s.status g = .collectedOnce ∧ status g = .collectedTwice ∨
      g = gn ∧ status g = .collectedOnce ∨ g ≠ gn ∧ status g = s.status g := by
    intro g
    by_cases hg : g ∈ froms gn
    · exact .inl ⟨hg, honce g hg, hin g hg⟩
    · by_cases hggn : g = gn
      · subst hggn
        exact .inr (.inl ⟨rfl, by rw [hout g hg, Function.update_self]⟩)
      · exact .inr (.inr ⟨hggn, by rw [hout g hg, Function.update_of_ne hggn]⟩)
  have hlive' : ∀ g, (status g).IsLive → g ≠ gn ∧ (s.status g).IsLive := by
    intro g hg
    rcases hcases g with ⟨-, -, htwice⟩ | ⟨-, honce⟩ | ⟨hggn, hsame⟩
    · exact absurd (htwice ▸ hg) (by decide)
    · exact absurd (honce ▸ hg) (by decide)
    · exact ⟨hggn, hsame ▸ hg⟩
  have hbeing : ∀ g, status g = .beingCollected → s.status g = .beingCollected ∧ g ∉ [gn] := by
    intro g hg
    rcases hcases g with ⟨-, -, htwice⟩ | ⟨-, honce⟩ | ⟨hggn, hsame⟩
    · simp [htwice] at hg
    · simp [honce] at hg
    · exact ⟨hsame ▸ hg, by simpa using hggn⟩
  have hsame : ∀ g, s.status g ≠ .collectedOnce → g ∉ [gn] → status g = s.status g := by
    intro g hg hmem
    rcases hcases g with ⟨-, honce, -⟩ | ⟨rfl, -⟩ | ⟨-, hsame⟩
    · exact absurd honce hg
    · simp at hmem
    · exact hsame
  have hexists : ∀ g, status g ≠ .nonexistent → s.status g ≠ .nonexistent := by
    intro g hg
    rcases hcases g with ⟨-, honce, -⟩ | ⟨rfl, -⟩ | ⟨-, hsame⟩
    · simp [honce]
    · exact hne
    · exact hsame ▸ hg
  refine (congrArg (Ends · _ _) hrun).mpr ⟨?_, ?_, _, hfinal⟩
  · exact ⟨⟨rfl, rfl, rfl, rfl, rfl, rfl⟩, hsame _, hbeing _, fun hg => (hlive' _ hg).2, rfl,
      fun hg => Function.update_of_ne (by simpa using hg) _ _⟩
  · constructor
    case page =>
      intro g hg hnone
      obtain ⟨hggn, hg⟩ := hlive' g hg
      refine Eq.trans ?_ (ha.page hg hnone)
      exact congrArg List.length (Function.update_of_ne hggn _ _)
    case diskPage => exact fun hg hnone => ha.diskPage (hexists _ hg) hnone

theorem Sound.collectAllOnce {gns : List Nat}
    (h : s.Sound params.numberOfPages owned (as ++ (gns ++ bs)) froms twice)
    (ha : s.ArraysSound none) (has : as ≠ []) (hgns : ∀ g ∈ gns, s.status g = .beingCollected)
    (hto : s.toGn ∉ gns) :
    Ends (markCollectedOnce gns.length ((gns ++ bs).headD invalidGenerationNumber) s)
      (fun t => s.CollectedOnce t gns ∧ t.ArraysSound none ∧
        ∃ twice', t.Sound params.numberOfPages owned (as ++ bs) froms twice')
      (GcFailure.Excused owned) := by
  induction gns generalizing s twice with
  | nil =>
    exact ⟨⟨.refl s, fun _ _ => rfl, fun h => ⟨h, by simp⟩, id, rfl, fun _ => rfl⟩, ha, twice, h⟩
  | cons g gns ih =>
    rw [List.mem_cons, not_or] at hto
    have hnext : s.older g = (gns ++ bs).headD invalidGenerationNumber := h.ages.linked.next_eq
    have hnodup := (List.nodup_middle.mp h.ages.nodup)
    have hmem : g ∉ gns := fun hg => (List.nodup_cons.mp hnodup).1 (by simp [hg])
    simp only [List.length_cons, markCollectedOnce, List.cons_append, List.headD_cons, hnext]
    refine (h.collectOnce ha has (hgns g List.mem_cons_self) (Ne.symm hto.1)).bind
      fun t ⟨ht, hta, twice', htsound⟩ => ?_
    have hbeing : ∀ x ∈ gns, t.status x = .beingCollected := by
      intro x hx
      have hxs := hgns x (List.mem_cons_of_mem _ hx)
      have hxg : x ∉ [g] := mt List.mem_singleton.mp (ne_of_mem_of_not_mem hx hmem)
      rw [ht.same (by rw [hxs]; decide) hxg, hxs]
    exact (ih htsound hta hbeing (ht.course.toGn ▸ hto.2)).imp fun u hu =>
      ⟨ht.trans hu.1, hu.2⟩

/-- These generations, and no others, are being collected from now on. -/
def Begun (s t : Generations) (gns : List Nat) : Prop :=
  ∃ status nextFrom fromGn history, t = { s with
      status := status
      nextFrom := nextFrom
      fromGn := fromGn
      history := history } ∧
    (∀ g ∈ gns, s.status g = .toBeCollected ∧ status g = .beingCollected) ∧
    ∀ g ∉ gns, status g = s.status g

theorem Begun.cons {t u : Generations} {gns : List Nat} (h : s.Begun t [gn]) (h' : t.Begun u gns) :
    s.Begun u (gn :: gns) := by
  obtain ⟨_, _, _, _, rfl, hin, hout⟩ := h
  obtain ⟨status, nextFrom, fromGn, history, rfl, hin', hout'⟩ := h'
  obtain ⟨hgn, hgn'⟩ := hin gn (List.mem_singleton_self gn)
  have hmem : gn ∉ gns := fun hmem => absurd ((hin' gn hmem).1.symm.trans hgn') (by decide)
  refine ⟨status, nextFrom, fromGn, history, rfl, fun g hg => ?_, fun g hg => ?_⟩
  · rcases List.mem_cons.mp hg with rfl | hg
    · exact ⟨hgn, (hout' g hmem).trans hgn'⟩
    · have hne : g ≠ gn := ne_of_mem_of_not_mem hg hmem
      exact ⟨(hout g (by simpa using hne)) ▸ (hin' g hg).1, (hin' g hg).2⟩
  · rw [List.mem_cons, not_or] at hg
    exact (hout' g hg.2).trans (hout g (by simpa using hg.1))

theorem Begun.course {t : Generations} {gns : List Nat} (h : s.Begun t gns) :
    s.SameCourse t ∧ t.diskPage = s.diskPage := by
  obtain ⟨_, _, _, _, rfl, -, -⟩ := h
  exact ⟨⟨rfl, rfl, rfl, rfl, rfl, rfl⟩, rfl⟩

theorem Begun.toBeCollected {t : Generations} {gns : List Nat} (h : s.Begun t gns) {g : Nat}
    (hg : g ∈ gns) : s.status g = .toBeCollected := by
  obtain ⟨_, _, _, _, rfl, hin, -⟩ := h
  exact (hin g hg).1

theorem Begun.keep {t : Generations} {gns : List Nat} (h : s.Begun t gns) {g : Nat}
    (hg : g ∉ gns) : t.status g = s.status g := by
  obtain ⟨_, _, _, _, rfl, -, hout⟩ := h
  exact hout g hg

theorem Begun.being_iff {t : Generations} {gns : List Nat} (h : s.Begun t gns)
    (hidle : ∀ g, s.status g ≠ .beingCollected) (g : Nat) :
    t.status g = .beingCollected ↔ g ∈ gns := by
  constructor
  · intro hg
    by_contra hmem
    exact hidle g (h.keep hmem ▸ hg)
  · intro hg
    obtain ⟨_, _, _, _, rfl, hin, -⟩ := h
    exact (hin g hg).2

theorem Begun.arrays {t : Generations} {gns : List Nat} (h : s.Begun t gns)
    (ha : s.ArraysSound except) : t.ArraysSound except := by
  obtain ⟨status, _, _, _, rfl, hin, hout⟩ := h
  have hold : ∀ g, g ∈ gns → (s.status g).IsLive := fun g hg => by simp [(hin g hg).1]
  constructor
  · intro g hg hexcept
    refine ha.page ?_ hexcept
    by_cases hmem : g ∈ gns
    · exact hold g hmem
    · exact hout g hmem ▸ hg
  · intro g hg hexcept
    refine ha.diskPage ?_ hexcept
    by_cases hmem : g ∈ gns
    · exact (hold g hmem).ne_nonexistent
    · exact hout g hmem ▸ hg

theorem Sound.begun (h : s.Sound params.numberOfPages owned ages froms twice)
    (hto : s.status s.toGn = .normal) (hgn : s.status gn = .toBeCollected) :
    ∃ t froms', s.beginCollecting gn = .ok t ∧ s.Begun t [gn] ∧
      t.Sound params.numberOfPages owned ages froms' twice ∧ t.status t.toGn = .normal := by
  obtain ⟨nextFrom, fromGn, history, hrun, hsound⟩ := h.beginCollecting hto hgn
  refine ⟨_, _, hrun, ⟨_, _, _, _, rfl, by simp [hgn], fun g hg => ?_⟩, hsound, ?_⟩
  · exact Function.update_of_ne (by simpa using hg) _ _
  · have hne : s.toGn ≠ gn := by
      intro heq
      simp [heq, hgn] at hto
    exact (Function.update_of_ne hne _ _).trans hto

/-- The generations are chosen from the first one on, in the order of their ages.  Together
they are small enough, or there is only one. -/
theorem Sound.chooseGenerations (h : s.Sound params.numberOfPages owned (as ++ gn :: bs) froms twice)
    (hto : s.status s.toGn = .normal) (hgn : s.status gn = .toBeCollected)
    (more pages number : Nat) :
    ∃ gns rest t froms', gn :: bs = gns ++ rest ∧ gns ≠ [] ∧
      chooseGenerations params more gn pages number s = .ok (number + gns.length, t) ∧
      s.Begun t gns ∧
      t.Sound params.numberOfPages owned (as ++ gn :: bs) froms' twice ∧
      gns.length ≤ more + 1 ∧
      (gns.length = 1 ∨
        params.fitsMatureGeneration (gns.foldl (fun n g => n + s.npages g) pages) = true) := by
  induction more generalizing s gn as bs froms pages number with
  | zero =>
    obtain ⟨t, froms', hrun, hbegun, hsound, -⟩ := h.begun hto hgn
    refine ⟨[gn], bs, t, froms', rfl, by simp, ?_, hbegun, hsound, le_rfl, .inl rfl⟩
    rw [Generations.chooseGenerations, hrun]
    rfl
  | succ more ih =>
    obtain ⟨t, froms', hrun, hbegun, hsound, htto⟩ := h.begun hto hgn
    have hnext : t.older gn = bs.headD invalidGenerationNumber := hsound.ages.linked.next_eq
    have hnpages : t.npages = s.npages := by
      obtain ⟨_, _, _, _, rfl, -, -⟩ := hbegun
      rfl
    have hstep : Generations.chooseGenerations params (more + 1) gn pages number s =
        if t.older gn ≠ invalidGenerationNumber ∧ t.status (t.older gn) = .toBeCollected ∧
            params.fitsMatureGeneration (t.npages (t.older gn) + (pages + t.npages gn)) then
          Generations.chooseGenerations params more (t.older gn) (pages + t.npages gn)
            (number + 1) t
        else .ok (number + 1, t) := by
      rw [Generations.chooseGenerations, hrun]
      rfl
    by_cases hcond : t.older gn ≠ invalidGenerationNumber ∧
        t.status (t.older gn) = .toBeCollected ∧
        params.fitsMatureGeneration (t.npages (t.older gn) + (pages + t.npages gn))
    · rw [if_pos hcond] at hstep
      cases bs with
      | nil => exact absurd hnext hcond.1
      | cons g bs =>
        rw [List.headD_cons] at hnext
        rw [hnext] at hcond hstep
        rw [List.append_cons] at hsound
        obtain ⟨gns, rest, u, froms'', hsplit, hne, hrest, hbegun', hsound', hlength, hfits⟩ :=
          ih hsound htto hcond.2.1 (pages + t.npages gn) (number + 1)
        refine ⟨gn :: gns, rest, u, froms'', by rw [hsplit]; rfl, by simp, ?_,
          hbegun.cons hbegun', by simpa using hsound', Nat.succ_le_succ hlength, .inr ?_⟩
        · rw [hstep, hrest, List.length_cons]
          congr 2
          omega
        · rw [List.foldl_cons, ← hnpages]
          refine hfits.elim (fun hone => ?_) id
          -- the second one is the last
          obtain ⟨g', rfl⟩ := List.length_eq_one_iff.mp hone
          obtain rfl : g = g' := (List.cons.inj hsplit).1
          rw [List.foldl_cons, List.foldl_nil, Nat.add_comm]
          exact hcond.2.2
    · rw [if_neg hcond] at hstep
      exact ⟨[gn], bs, t, froms', rfl, by simp, hstep, hbegun, hsound, by simp, .inl rfl⟩

/-! ## the end of a round -/

/-- The generations that were collected twice are gone.  The loop does not look at the
head of the list. -/
theorem Sound.release {p turns : Nat} {xs : List Nat}
    (h : { s with generationsCollectedTwice := p }.Sound params.numberOfPages owned ages froms xs)
    (ha : s.ArraysSound none) (hturns : xs.length < turns) :
    ∃ status count history, markNonexistentFrom turns p s = .ok { s with
        status := status
        numberOfNonexistentGenerations := count
        history := history } ∧
      Sound params.numberOfPages owned
        { s with
          status := status
          numberOfNonexistentGenerations := count
          generationsCollectedTwice := invalidGenerationNumber
          history := history }
        ages froms [] ∧
      (∀ g ∈ xs, status g = .nonexistent) ∧ ∀ g ∉ xs, status g = s.status g := by
  induction xs generalizing s p turns with
  | nil =>
    obtain ⟨turns, rfl⟩ : ∃ n, turns = n + 1 := ⟨turns - 1, by simp at hturns; omega⟩
    have hp : p = invalidGenerationNumber := h.twice.linked
    subst hp
    exact ⟨_, _, _, if_pos rfl, h, by simp, fun _ _ => rfl⟩
  | cons x xs ih =>
    obtain ⟨turns, rfl⟩ : ∃ n, turns = n + 1 := ⟨turns - 1, by simp at hturns; omega⟩
    have hnodup := h.twice.linked.nodup
    obtain ⟨hpx, hp, hrest⟩ := h.twice.linked
    have hpx : p = x := hpx
    subst hpx
    have hstatus : s.status p = .collectedTwice := h.twice.collected p List.mem_cons_self
    have hne : s.status p ≠ .nonexistent := by simp [hstatus]
    have hlive : ¬ (s.status p).IsLive := by simp [hstatus]
    have hfroms : ∀ {g}, (s.status g).IsLive → p ∉ froms g := by
      intro g hg hmem
      have hcollected : s.status p = .collectedOnce ∨ g = s.toGn ∧ s.status p = .beingCollected :=
        h.froms.collected hg hmem
      simp [hstatus] at hcollected
    have hother : ∀ {g}, g ∈ xs → g ≠ p := fun hg =>
      ne_of_mem_of_not_mem hg (List.nodup_cons.mp hnodup).1
    have helements : elements (s.diskPage p) (s.npages p) = .ok (s.diskPage p) :=
      elements_eq (ha.diskPage hne (by simp))
    -- the state after one turn
    obtain ⟨t, ht⟩ : ∃ t, t = { s.setStatus p .nonexistent with
        numberOfNonexistentGenerations := s.numberOfNonexistentGenerations + 1 }.freeDiskPages p
          (s.diskPage p) := ⟨_, rfl⟩
    have hsound : Sound params.numberOfPages owned
        { t with generationsCollectedTwice := s.nextCollectedTwice p } ages froms xs := by
      subst ht
      exact {
        table := h.table.release hne
        ages := h.ages.change_outside (fun hmem => hlive (h.ages.live p hmem)) (by decide)
        froms := h.froms.change_outside (by decide) hfroms
        twice := {
          linked := hrest
          collected := fun g hg => (Function.update_of_ne (hother hg) _ _).trans
            (h.twice.collected g (List.mem_cons_of_mem _ hg)) }
        pages := h.pages.congr fun g _ => (isLive_update_of_not not_isLive_nonexistent).trans
          (and_iff_right_of_imp fun hg heq => hlive (heq ▸ hg))
        history := h.history.release hstatus }
    have hta : t.ArraysSound none := by
      subst ht
      constructor
      · exact fun hg => ha.page ((isLive_update_of_not not_isLive_nonexistent).mp hg).2
      · intro g hg
        have hggn : g ≠ p := by
          rintro rfl
          exact hg (Function.update_self ..)
        have hsame : Function.update s.status p .nonexistent g = s.status g :=
          Function.update_of_ne hggn _ _
        exact ha.diskPage (hsame ▸ hg)
    obtain ⟨status, count, history, hrun, hfinal, hin, hout⟩ :=
      ih hsound hta (Nat.lt_of_succ_lt_succ hturns)
    subst ht
    refine ⟨status, count, history, ?_, hfinal, ?_, ?_⟩
    · refine (if_neg hp).trans ?_
      rw [helements]
      exact hrun
    · intro g hg
      rcases List.mem_cons.mp hg with rfl | hg
      · rw [hout g (List.nodup_cons.mp hnodup).1]
        exact Function.update_self ..
      · exact hin g hg
    · intro g hg
      rw [List.mem_cons, not_or] at hg
      rw [hout g hg.2]
      exact Function.update_of_ne hg.1 _ _

/-! ## marking and looking for marked generations -/

/-- The generations are marked from some point of the list on, as far as the loop goes. -/
theorem Sound.mark (h : s.Sound params.numberOfPages owned (as ++ bs) froms twice)
    (stops : Nat → Nat → Bool) {turns pages : Nat} (hturns : bs.length < turns) :
    Ends (markGenerations stops turns (bs.headD invalidGenerationNumber) pages s)
      (fun t => ∃ marked rest status history, bs = marked ++ rest ∧
        t = { s with status := status, history := history } ∧
        t.Sound params.numberOfPages owned (as ++ bs) froms twice ∧
        (∀ g ∈ marked, s.status g = .normal ∧ status g = .toBeCollected) ∧
        (∀ g ∉ marked, status g = s.status g) ∧
        ∀ g ∈ rest.head?, ∃ n, stops n g = true ∧ (marked = [] → n = pages))
      (fun e => e = .assertion ∧ ∃ g ∈ bs, s.status g ≠ .normal) := by
  induction bs generalizing s as turns pages with
  | nil =>
    obtain ⟨turns, rfl⟩ : ∃ n, turns = n + 1 := ⟨turns - 1, by simp at hturns; omega⟩
    rw [List.headD_nil, markGenerations, if_pos rfl]
    exact ⟨[], [], _, _, rfl, rfl, h, by simp, fun _ _ => rfl, by simp⟩
  | cons g bs ih =>
    obtain ⟨turns, rfl⟩ : ∃ n, turns = n + 1 := ⟨turns - 1, by simp at hturns; omega⟩
    have hmem : g ∈ as ++ g :: bs := by simp
    have hg : g ≠ invalidGenerationNumber := h.ages.linked.ne_stop hmem
    rw [List.headD_cons, markGenerations, if_neg hg]
    refine ends_ite (fun hstops => ?_) fun _ => ends_ite (fun hnot => ?_) fun hnormal => ?_
    · exact ⟨[], g :: bs, _, _, rfl, rfl, h, by simp, fun _ _ => rfl,
        fun _ hx => ⟨pages, Option.some.inj hx ▸ hstops, fun _ => rfl⟩⟩
    · exact ⟨rfl, g, List.mem_cons_self, hnot⟩
    · rw [not_not] at hnormal
      have hlive : (s.status g).IsLive := by simp [hnormal]
      have hmark : (s.setStatus g .toBeCollected).Sound params.numberOfPages owned
          ((as ++ [g]) ++ bs) froms twice := by
        rw [List.append_assoc]
        exact {
          table := h.table.change hlive.ne_nonexistent (by decide)
          ages := h.ages.change hmem isLive_toBeCollected
          froms := h.froms.change hlive (by simp [hnormal]) isLive_toBeCollected
          twice := h.twice.change (by simp [hnormal]) _
          pages := h.pages.congr fun _ _ => isLive_update hlive isLive_toBeCollected
          history := h.history.change (.inl (by rw [hnormal]; rfl)) hlive.ne_nonexistent
            (by decide) }
      have hnext : s.older g = bs.headD invalidGenerationNumber := h.ages.linked.next_eq
      have hfresh : g ∉ bs := (List.nodup_cons.mp (List.nodup_append.mp h.ages.nodup).2.1).1
      have hother : ∀ {x}, x ≠ g → (s.setStatus g .toBeCollected).status x = s.status x :=
        fun hx => Function.update_of_ne hx _ _
      rw [hnext]
      refine (ih hmark (Nat.lt_of_succ_lt_succ hturns)).mono ?_ ?_
      · rintro t ⟨marked, rest, status, history, rfl, rfl, hsound, hin, hout, hstop⟩
        have hmarked : g ∉ marked := fun hmem => hfresh (List.mem_append_left _ hmem)
        refine ⟨g :: marked, rest, status, history, rfl, rfl, by simpa using hsound, ?_, ?_, ?_⟩
        · intro x hx
          rcases List.mem_cons.mp hx with rfl | hx
          · exact ⟨hnormal, (hout x hmarked).trans (Function.update_self ..)⟩
          · rw [← hother (ne_of_mem_of_not_mem hx hmarked)]
            exact hin x hx
        · intro x hx
          rw [List.mem_cons, not_or] at hx
          rw [hout x hx.2, hother hx.1]
        · intro x hx
          obtain ⟨n, hn, -⟩ := hstop x hx
          exact ⟨n, hn, by simp⟩
      · rintro e ⟨rfl, x, hx, hnot⟩
        rw [hother (ne_of_mem_of_not_mem hx hfresh)] at hnot
        exact ⟨rfl, x, List.mem_cons_of_mem _ hx, hnot⟩

theorem ArraysSound.mark {marked : List Nat} {status : Nat → GenerationStatus}
    {history : List GenerationEvent} (h : s.ArraysSound except)
    (hin : ∀ g ∈ marked, s.status g = .normal ∧ status g = .toBeCollected)
    (hout : ∀ g ∉ marked, status g = s.status g) :
    ArraysSound { s with status := status, history := history } except := by
  have hold : ∀ g ∈ marked, (s.status g).IsLive := fun g hg => by simp [(hin g hg).1]
  constructor
  · intro g hg hexcept
    refine h.page ?_ hexcept
    by_cases hmem : g ∈ marked
    · exact hold g hmem
    · exact hout g hmem ▸ hg
  · intro g hg hexcept
    refine h.diskPage ?_ hexcept
    by_cases hmem : g ∈ marked
    · exact (hold g hmem).ne_nonexistent
    · exact hout g hmem ▸ hg

/-- The loop goes past the generations that are not marked. -/
theorem Sound.skip (h : s.Sound params.numberOfPages owned (as ++ (bs ++ gn :: cs)) froms twice)
    (hbs : ∀ g ∈ bs, s.status g ≠ .toBeCollected) (hgn : s.status gn = .toBeCollected)
    {turns : Nat} (hturns : bs.length < turns) :
    skipToBeCollected turns ((bs ++ gn :: cs).headD invalidGenerationNumber) s = .ok gn := by
  induction bs generalizing as turns with
  | nil =>
    obtain ⟨turns, rfl⟩ : ∃ n, turns = n + 1 := ⟨turns - 1, by simp at hturns; omega⟩
    simp only [List.nil_append, List.headD_cons, skipToBeCollected]
    rw [h.statusOf_eq (by simp [hgn])]
    exact if_pos hgn
  | cons g bs ih =>
    obtain ⟨turns, rfl⟩ : ∃ n, turns = n + 1 := ⟨turns - 1, by simp at hturns; omega⟩
    have hlive : (s.status g).IsLive := h.ages.live g (by simp)
    have hnext : s.older g = (bs ++ gn :: cs).headD invalidGenerationNumber :=
      h.ages.linked.next_eq
    simp only [List.cons_append, List.headD_cons, skipToBeCollected]
    rw [h.statusOf_eq hlive.ne_nonexistent, hnext]
    refine (if_neg (hbs g List.mem_cons_self)).trans ?_
    rw [List.cons_append, List.append_cons] at h
    exact ih h
      (fun x hx => hbs x (List.mem_cons_of_mem _ hx)) (Nat.lt_of_succ_lt_succ hturns)

/-- It runs out of the table if there is no marked one. -/
theorem Sound.skip_none (h : s.Sound params.numberOfPages owned (as ++ bs) froms twice)
    (hbs : ∀ g ∈ bs, s.status g ≠ .toBeCollected) {turns : Nat} (hturns : bs.length < turns) :
    skipToBeCollected turns (bs.headD invalidGenerationNumber) s = .error .outside := by
  induction bs generalizing as turns with
  | nil =>
    obtain ⟨turns, rfl⟩ : ∃ n, turns = n + 1 := ⟨turns - 1, by simp at hturns; omega⟩
    have houtside : s.statusOf invalidGenerationNumber = .error .outside :=
      if_neg (Nat.not_lt.mpr h.table.le)
    rw [List.headD_nil, skipToBeCollected, houtside]
    rfl
  | cons g bs ih =>
    obtain ⟨turns, rfl⟩ : ∃ n, turns = n + 1 := ⟨turns - 1, by simp at hturns; omega⟩
    have hlive : (s.status g).IsLive := h.ages.live g (by simp)
    have hnext : s.older g = bs.headD invalidGenerationNumber := h.ages.linked.next_eq
    simp only [List.headD_cons, skipToBeCollected]
    rw [h.statusOf_eq hlive.ne_nonexistent, hnext]
    refine (if_neg (hbs g List.mem_cons_self)).trans ?_
    rw [List.append_cons] at h
    exact ih h
      (fun x hx => hbs x (List.mem_cons_of_mem _ hx)) (Nat.lt_of_succ_lt_succ hturns)

end Generations

end Shades
