import Shades.Gc.Recovery

/-!
# Shades.Gc.RecoverySteps

What recovery does to what holds of the table of generations.

On the way back along the lists nothing is marked or collected, and on the way
forth the generations of the lists are in some phase of a mature collection, as
they are in a database that was not recovered.  The generations from which
`rvy_batch` was called come before those, and it leaves them as they are.
-/

namespace Shades

theorem GcFailure.Excused.ne_endless {owned : Prop} {e : GcFailure} (h : e.Excused owned) :
    e ≠ .endless := by
  rintro rfl
  simp [GcFailure.Excused] at h

namespace Generations

variable {params : GenerationParams} {s : Generations} {froms : Nat → List Nat}
  {ages twice as bs above pre marked post : List Nat} {gn : Nat} {pages : List (Nat × Nat)}

/-! ## a number that is known -/

theorem Sound.rvyAllocate (h : s.Sound params.numberOfPages False ages froms twice)
    (hidle : ∀ g, s.status g = .nonexistent ∨ s.status g = .normal) (npages : Nat) :
    Ends (rvyAllocateGeneration params npages s)
      (fun t => t.toGn = s.toGn ∧ s.Taken t npages ∧
        t.Sound params.numberOfPages False ages (Function.update froms s.toGn []) twice)
      (· ≠ .endless) := by
  unfold rvyAllocateGeneration
  refine ((h.grow _).mono (fun t ht => ht) fun e he => he.ne_endless).bind
    fun t ⟨ht, htsound, _⟩ => ?_
  obtain ⟨base, n, count, pageGeneration, rfl⟩ := ht
  by_cases hlt : s.toGn < n
  · have hstatus : statusOf { s with
        generationInfo := base
        numberOfGenerations := n
        numberOfNonexistentGenerations := count
        pageGeneration := pageGeneration } s.toGn = .ok (s.status s.toGn) := if_pos hlt
    simp only [hstatus, ends_ok_bind]
    refine ends_ite (fun _ => by simp) fun hlive => ?_
    have hfree : s.status s.toGn = .nonexistent := (hidle s.toGn).resolve_right fun hnormal =>
      hlive (by simp [hnormal])
    refine ⟨rfl, ⟨hfree, rfl, rfl, rfl, rfl, rfl, rfl, rfl, rfl, rfl, rfl⟩, ?_⟩
    exact htsound.take (fun g hg => by rcases hidle g with hg' | hg' <;> simp_all) hfree hlt npages
  · have hstatus : statusOf { s with
        generationInfo := base
        numberOfGenerations := n
        numberOfNonexistentGenerations := count
        pageGeneration := pageGeneration } s.toGn = .error .outside := if_neg hlt
    simp only [hstatus]
    exact fun hcontra => by cases hcontra

/-! ## pages -/

/-- The arrays of a new generation. -/
theorem Sound.rvySetPages (h : s.Sound params.numberOfPages False ages froms twice)
    (hgn : s.status gn ≠ .nonexistent) (hpage : s.page gn = []) (hdiskPage : s.diskPage gn = []) :
    (s.rvySetPages gn pages).Sound params.numberOfPages False ages froms twice := by
  refine Sound.setDiskPages (s := { s with
    page := Function.update s.page gn (pages.map Prod.fst) }) ?_ hgn hdiskPage _
  refine {
    h with
    pages := {
      h.pages with
      refers := ?_
      allocated := False.elim
      nodup := False.elim } }
  intro pn hpn
  obtain ⟨hlt, g, hlive, hmem, haddress⟩ := h.pages.refers hpn
  refine ⟨hlt, g, hlive, ?_, haddress⟩
  have hne : g ≠ gn := by
    rintro rfl
    simp [hpage] at hmem
  simpa only [Function.update_of_ne hne] using hmem

/-- Pages were read from disk. -/
def Reread (s t : Generations) : Prop :=
  ∃ pageIsAllocated pageGeneration numberOfFreePages rvyDiskPage, t = { s with
    pageIsAllocated := pageIsAllocated
    pageGeneration := pageGeneration
    numberOfFreePages := numberOfFreePages
    rvyDiskPage := rvyDiskPage }

theorem Reread.trans {t u : Generations} (h : s.Reread t) (h' : t.Reread u) : s.Reread u := by
  obtain ⟨_, _, _, _, rfl⟩ := h
  obtain ⟨isAllocated, generation, count, rvyDiskPage, rfl⟩ := h'
  exact ⟨isAllocated, generation, count, rvyDiskPage, rfl⟩

theorem Sound.rvyReadPage (h : s.Sound params.numberOfPages False ages froms twice)
    (hlive : (s.status gn).IsLive) {page : Nat × Nat} (hpage : page.1 ∈ s.page gn) :
    Ends (rvyReadPage params gn s page)
      (fun t => s.Reread t ∧ t.Sound params.numberOfPages False ages froms twice)
      (· ≠ .endless) := by
  obtain ⟨pn, dpn⟩ := page
  unfold Generations.rvyReadPage
  refine ends_ite (fun hlt => ends_ite (fun _ => ?_) fun _ => ?_) fun _ => by simp
  · refine ⟨⟨_, _, _, _, rfl⟩, {
      h with
      pages := {
        h.pages with
        refers := ?_
        allocated := False.elim
        notAllocated := False.elim } }⟩
    intro p hp
    by_cases heq : p = pn
    · subst heq
      exact ⟨hlt, gn, hlive, hpage, Function.update_self ..⟩
    · simp only [rvyAllocatePage, Function.update_of_ne heq] at hp ⊢
      exact h.pages.refers hp
  · exact ⟨⟨_, _, _, _, rfl⟩, h⟩

theorem Sound.rvyReadGeneration (h : s.Sound params.numberOfPages False ages froms twice)
    (ha : s.ArraysSound none) (hlive : (s.status gn).IsLive) :
    Ends (rvyReadGeneration params gn s)
      (fun t => s.Reread t ∧ t.Sound params.numberOfPages False ages froms twice)
      (· ≠ .endless) := by
  unfold Generations.rvyReadGeneration
  rw [elements_eq (ha.page hlive (by simp)),
    elements_eq (ha.diskPage hlive.ne_nonexistent (by simp))]
  simp only [ends_ok_bind]
  refine Ends.imp (ends_foldlM (I := fun rest t => (∀ page ∈ rest, page.1 ∈ s.page gn) ∧
    s.Reread t ∧ t.Sound params.numberOfPages False ages froms twice) ?_ ?_) fun t ht => ht.2
  · rintro page rest t ⟨hmem, hreread, ht⟩
    have hsame : t.status = s.status ∧ t.page = s.page := by
      obtain ⟨_, _, _, _, rfl⟩ := hreread
      exact ⟨rfl, rfl⟩
    refine (ht.rvyReadPage (hsame.1 ▸ hlive)
      (hsame.2 ▸ hmem page List.mem_cons_self)).imp fun u hu => ?_
    exact ⟨fun p hp => hmem p (List.mem_cons_of_mem _ hp), hreread.trans hu.1, hu.2⟩
  · exact ⟨fun page hpage => (List.of_mem_zip hpage).1, ⟨_, _, _, _, rfl⟩, h⟩

/-! ## the cells are already there -/

theorem rvyNextToPages_spec (toPages : Nat) :
    Ends (rvyNextToPages toPages s) (fun t => ∃ toPn, t = { s with toPn := toPn })
      (· = .outside) := by
  cases toPages with
  | zero => exact ⟨s.toPn, rfl⟩
  | succ i =>
    rw [rvyNextToPages]
    cases (s.page s.toGn)[i]? with
    | none => exact rfl
    | some pn => exact ⟨some pn, rfl⟩

/-- In between `to_gn` is being collected, but not in the end. -/
theorem Sound.rvyCopyCells (h : s.Sound params.numberOfPages False ages froms twice)
    (hto : s.status s.toGn = .normal) (hrecovering : s.isRecovering = true) (toPages : Nat) :
    Ends (rvyCopyCells toPages s)
      (fun t => (∃ toPn history, t = { s with toPn := toPn, history := history }) ∧
        t.Sound params.numberOfPages False ages froms twice)
      (· ≠ .endless) := by
  have hne : s.status s.toGn ≠ .nonexistent := by simp [hto]
  unfold Generations.rvyCopyCells
  refine ((rvyNextToPages_spec toPages).mono (fun t ht => ht) fun e he => by simp [he]).bind
    fun t ht => ?_
  obtain ⟨toPn, rfl⟩ := ht
  unfold rvyFinishGc
  split
  · exact fun hcontra => by cases hcontra
  · simp only [ends_ok_bind, ends_ok]
    have hback : Function.update (Function.update s.status s.toGn .beingCollected) s.toGn
        .normal = s.status := by
      rw [Function.update_idem, ← hto, Function.update_eq_self]
    have hbeing : HistorySound False s.isRecovering
        (.status s.toGn .beingCollected s.isRecovering :: s.history)
        (Function.update s.status s.toGn .beingCollected) s.diskPage :=
      h.history.change (.inr ⟨hrecovering, .inl ⟨hto, rfl⟩⟩) hne (by decide)
    have hnormal : HistorySound False s.isRecovering
        (.status s.toGn .normal s.isRecovering ::
          .status s.toGn .beingCollected s.isRecovering :: s.history)
        (Function.update (Function.update s.status s.toGn .beingCollected) s.toGn .normal)
        s.diskPage :=
      hbeing.change (.inr ⟨hrecovering, .inr ⟨Function.update_self .., rfl⟩⟩) (by simp) (by decide)
    rw [hback] at hnormal
    simp only [setStatus, hback]
    exact ⟨⟨_, _, rfl⟩, { h with history := hnormal }⟩

theorem Begun.refl (s : Generations) : s.Begun s [] :=
  ⟨_, _, _, _, rfl, by simp, fun _ _ => rfl⟩

/-- The number of generations is known now, so one that is not to be collected fails. -/
theorem Sound.rvyBeginCollecting {n : Nat}
    (h : s.Sound params.numberOfPages False (as ++ bs) froms twice)
    (hto : s.status s.toGn = .normal) :
    Ends (rvyBeginCollecting n (bs.headD invalidGenerationNumber) s)
      (fun t => ∃ gns rest froms', bs = gns ++ rest ∧ gns.length = n ∧ s.Begun t gns ∧
        t.Sound params.numberOfPages False (as ++ bs) froms' twice ∧
        t.status t.toGn = .normal)
      (· ≠ .endless) := by
  induction n generalizing s as bs froms with
  | zero => exact ⟨[], bs, froms, rfl, rfl, .refl s, h, hto⟩
  | succ n ih =>
    cases bs with
    | nil =>
      have houtside : s.statusOf invalidGenerationNumber = .error .outside :=
        if_neg (Nat.not_lt.mpr h.table.le)
      simp only [List.headD_nil, Generations.rvyBeginCollecting, Generations.beginCollecting,
        houtside]
      exact fun hcontra => by cases hcontra
    | cons g bs =>
      have hlive : (s.status g).IsLive := h.ages.live g (by simp)
      rw [List.headD_cons, Generations.rvyBeginCollecting]
      by_cases hg : s.status g = .toBeCollected
      · obtain ⟨t, froms', hrun, hbegun, hsound, htto⟩ := h.begun hto hg
        rw [hrun, ends_ok_bind]
        have hnext : t.older g = bs.headD invalidGenerationNumber := hsound.ages.linked.next_eq
        have hages : as ++ g :: bs = (as ++ [g]) ++ bs := by simp
        rw [hages] at hsound ⊢
        rw [hnext]
        refine (ih hsound htto).imp ?_
        rintro u ⟨gns, rest, froms'', hsplit, hlength, hu⟩
        refine ⟨g :: gns, rest, froms'', by rw [hsplit]; rfl, by simp [hlength],
          hbegun.cons hu.1, hu.2⟩
      · have hnot : s.beginCollecting g = .error .assertion := by
          rw [Generations.beginCollecting, h.statusOf_eq hlive.ne_nonexistent]
          exact if_pos hg
        rw [hnot]
        exact fun hcontra => by cases hcontra

/-- A step of the mature collection is repeated.  The generation that it made has been
allocated, and now it takes its place in the list. -/
theorem Steady.rvyMajorGcStep (h : Steady params.numberOfPages False s above pre marked post)
    (hto : s.status s.toGn = .normal) (hfresh : s.toGn ∉ phaseAges above pre marked post)
    (hyoungest : s.youngestGn = (pre ++ (marked ++ post)).headD invalidGenerationNumber)
    (hpre : marked ≠ [] → pre ≠ []) (hrecovering : s.isRecovering = true) (n toPages : Nat) :
    Ends (rvyMajorGcStep n toPages s)
      (fun r => pre ≠ [] ∧ ∃ gns marked', marked = gns ++ marked' ∧
        Steady params.numberOfPages False (stopIfFinished r.1 r.2) above (pre ++ [s.toGn]) marked'
          post ∧
        (stopIfFinished r.1 r.2).youngestGn = s.youngestGn ∧
        (stopIfFinished r.1 r.2).isRecovering = true ∧
        ∀ g, s.status g = .normal → (stopIfFinished r.1 r.2).status g = .normal)
      (· ≠ .endless) := by
  obtain ⟨⟨froms, twice, hsound⟩, harrays, hphase⟩ := h
  unfold Generations.rvyMajorGcStep
  cases marked with
  | nil =>
    rw [hsound.firstFromGn_none hphase hyoungest]
    exact fun hcontra => by cases hcontra
  | cons m ms =>
    rw [hsound.firstFromGn_eq hphase hyoungest, ends_ok_bind]
    obtain ⟨p, ps, rfl⟩ := List.exists_cons_of_ne_nil (hpre (List.cons_ne_nil _ _))
    obtain ⟨hrelinked, husound, huyoungest⟩ := hsound.startGc.insertStep hfresh hto hyoungest
      fun hnil => by cases hnil
    -- the state before choosing
    obtain ⟨u, hu⟩ : ∃ u, u = s.rvyStartGc.insertGenerationAfter (s.younger m) := ⟨_, rfl⟩
    have hut : s.Relinked u := hu ▸ (relinked_startGc s).trans hrelinked
    have husound : u.Sound params.numberOfPages False
        ((above ++ (p :: ps ++ [s.toGn])) ++ (m :: ms ++ post)) froms twice := by
      rw [hu, List.append_assoc]
      exact husound
    have huyoungest : u.youngestGn = s.youngestGn := by
      rw [hu, hyoungest]
      exact huyoungest []
    simp only [← hu]
    clear hu
    have hunormal : ∀ g ∈ above ++ ((p :: ps ++ [s.toGn]) ++ post), u.status g = .normal := by
      intro g hg
      rw [hut.status]
      simp only [List.mem_append, List.mem_singleton] at hg
      by_cases heq : g = s.toGn
      · rw [heq, hto]
      · exact hphase.normal g (by simp only [List.mem_append]; tauto)
    have hbegin : Ends (rvyBeginCollecting n m u) _ _ :=
      husound.rvyBeginCollecting (by rw [hut.toGn, hut.status, hto])
    refine hbegin.bind
      fun v ⟨gns, rest, froms', hsplit, hlength, hbegun, hvsound, hvto⟩ => ?_
    obtain ⟨marked', hmarked, hvbeing, hvnormal, hvmarked⟩ :=
      hbegun.phase (hut.status ▸ hphase.idle) hunormal (hut.status ▸ hphase.toBeCollected)
        hsound.ages.nodup.of_append_right.of_append_right.of_append_left hsplit
    have hrest : rest = marked' ++ post := by
      rw [hmarked, List.append_assoc] at hsplit
      exact (List.append_cancel_left hsplit).symm
    subst hrest
    have hcourse := hbegun.course.1
    refine (hvsound.rvyCopyCells hvto
      (by rw [hcourse.isRecovering, hut.isRecovering, hrecovering]) toPages).bind
      fun w ⟨⟨toPn, history, hw⟩, hwsound⟩ => ?_
    subst hw
    have hvgn : v.toGn = s.toGn := hcourse.toGn.trans hut.toGn
    have hvarrays := hbegun.arrays (hut.arrays harrays)
    have hages : (above ++ (p :: ps ++ [s.toGn])) ++ (m :: ms ++ post) =
        phaseAges above (p :: ps ++ [v.toGn]) (gns ++ marked') post := by
      rw [hsplit, hvgn]
      simp [phaseAges]
    rw [hages] at hwsound
    have hstep := hwsound.finishStep { hvarrays with } hvbeing (by rwa [← hvgn] at hvnormal)
      hvmarked (by
        have := hphase.isCollecting.mpr (List.cons_ne_nil _ _)
        rw [← this, ← hut.isCollecting]
        exact hcourse.isCollecting)
    have hm : (gns ++ (marked' ++ post)).headD invalidGenerationNumber = m := by
      rw [← hsplit]
      rfl
    rw [hm, hlength] at hstep
    refine (hstep.mono (fun y hy => hy) fun e he => he.ne_endless).bind fun y hy => ?_
    obtain ⟨effortStep, z, hpeek, hsteady, hyoungest', hrecovering', hstay, -⟩ := hy 1 (by decide)
    rw [hpeek]
    refine ⟨List.cons_ne_nil _ _, gns, marked', hmarked, ?_, ?_, ?_, fun g hg => hstay g ?_⟩
    · rw [← hvgn]
      exact hsteady
    · rw [hyoungest', ← huyoungest, ← hcourse.youngestGn]
    · rw [hrecovering', ← hrecovering, ← hut.isRecovering, ← hcourse.isRecovering]
    · have hu : u.status g = .normal := by rw [hut.status, hg]
      exact (hbegun.keep fun hmem => by simp [hbegun.toBeCollected hmem] at hu).trans hu

/-- A mature collection begins with all older generations.  None of them can be marked
already. -/
theorem Steady.rvyMark
    (h : Steady params.numberOfPages False s (above ++ [gn]) pre marked post)
    (hne : pre ++ (marked ++ post) ≠ []) :
    Ends (rvyMarkMajorGcGenerations (s.older gn) s)
      (fun t => (∃ status history, t = { s with status := status, history := history }) ∧
        Steady params.numberOfPages False { t with isCollecting := true } above [gn]
          (pre ++ (marked ++ post)) [] ∧
        ∀ g ∉ pre ++ (marked ++ post), t.status g = s.status g)
      (· ≠ .endless) := by
  obtain ⟨⟨froms, twice, hsound⟩, harrays, hphase⟩ := h
  have hnext : s.older gn = (pre ++ (marked ++ post)).headD invalidGenerationNumber := by
    have hsound : s.Sound params.numberOfPages False (above ++ gn :: (pre ++ (marked ++ post)))
        froms twice := by
      rw [List.append_cons]
      exact hsound
    exact hsound.ages.linked.next_eq
  have hlength := hsound.ages.length_le hsound.table.inside
  rw [phaseAges, List.length_append] at hlength
  unfold rvyMarkMajorGcGenerations
  rw [hnext]
  have hsound : s.Sound params.numberOfPages False
      ((above ++ [gn]) ++ (pre ++ (marked ++ post))) froms twice := hsound
  refine (hsound.mark _ (by omega)).mono (fun t ht => ?_) fun e he => by simp [he.1]
  obtain ⟨ms, rest, status, history, hsplit, rfl, htsound, hin, hout, hstop⟩ := ht
  have hrest : rest = [] := by
    cases rest with
    | nil => rfl
    | cons g rest => simpa using hstop g rfl
  subst hrest
  rw [List.append_nil] at hsplit
  subst hsplit
  have hnil : marked = [] := by
    refine List.eq_nil_iff_forall_not_mem.mpr fun g hg => ?_
    have hnormal := (hin g (by simp [hg])).1
    simp [hphase.toBeCollected g hg] at hnormal
  subst hnil
  refine ⟨⟨_, _, rfl⟩, ⟨⟨froms, twice, ?_⟩, ?_, ?_⟩, hout⟩
  · have hages : phaseAges above [gn] (pre ++ ([] ++ post)) [] =
        (above ++ [gn]) ++ (pre ++ ([] ++ post)) := by simp [phaseAges]
    rw [hages]
    exact { htsound with }
  · have hmark : ArraysSound { s with status := status, history := history } none :=
      harrays.mark hin hout
    exact { hmark with }
  · exact {
      normal := by
        intro g hg
        have hg : g ∈ above ++ [gn] := by simpa using hg
        have hnodup := hsound.ages.nodup
        refine (hout g fun hmem => (List.nodup_append.mp hnodup).2.2 g hg g hmem rfl).trans ?_
        exact hphase.normal g (List.mem_append_left _ hg)
      toBeCollected := fun g hg => (hin g hg).2
      prevToGn := .inl (hphase.prevToGn.resolve_right fun hprev => hprev.1 rfl)
      isCollecting := by simpa using hne
      idle := fun g hg => by
        by_cases hmem : g ∈ pre ++ ([] ++ post)
        · simp [(hin g hmem).2] at hg
        · exact hphase.idle g (hout g hmem ▸ hg) }

/-! ## a generation of the lists -/

theorem Steady.setToGn (h : Steady params.numberOfPages False s above pre marked post) (gn : Nat) :
    Steady params.numberOfPages False { s with toGn := gn } above pre marked post := by
  obtain ⟨⟨froms, twice, hsound⟩, harrays, hphase⟩ := h
  refine ⟨⟨froms, twice, { hsound with froms := { hsound.froms with collected := ?_ } }⟩,
    { harrays with }, { hphase with }⟩
  intro g x hg hx
  exact .inl ((hsound.froms.collected hg hx).resolve_right fun hx => hphase.idle x hx.2)

theorem Steady.setYoungestGn (h : Steady params.numberOfPages False s above pre marked post)
    (gn : Nat) :
    Steady params.numberOfPages False { s with youngestGn := gn } above pre marked post := by
  obtain ⟨⟨froms, twice, hsound⟩, harrays, hphase⟩ := h
  exact ⟨⟨froms, twice, { hsound with }⟩, { harrays with }, { hphase with }⟩

theorem Steady.rvyRead (h : Steady params.numberOfPages False s above pre marked post)
    (hlive : (s.status gn).IsLive) :
    Ends (rvyReadGeneration params gn s)
      (fun t => s.Reread t ∧ Steady params.numberOfPages False t above pre marked post)
      (· ≠ .endless) := by
  obtain ⟨⟨froms, twice, hsound⟩, harrays, hphase⟩ := h
  refine (hsound.rvyReadGeneration harrays hlive).imp fun t ⟨hreread, ht⟩ => ⟨hreread, ?_⟩
  obtain ⟨_, _, _, _, rfl⟩ := hreread
  exact ⟨⟨froms, twice, ht⟩, { harrays with }, { hphase with }⟩

/-- Where the list is cut does not matter while nothing is marked. -/
theorem Steady.move {above' pre' : List Nat}
    (h : Steady params.numberOfPages False s above pre [] [])
    (heq : above ++ pre = above' ++ pre') :
    Steady params.numberOfPages False s above' pre' [] [] := by
  obtain ⟨⟨froms, twice, hsound⟩, harrays, hphase⟩ := h
  refine ⟨⟨froms, twice, ?_⟩, harrays, ?_⟩
  · simp only [phaseAges, List.append_nil] at hsound ⊢
    rwa [← heq]
  · exact {
      normal := by
        have := hphase.normal
        simp only [List.append_nil] at this ⊢
        rwa [← heq]
      toBeCollected := by simp
      prevToGn := .inl (hphase.prevToGn.resolve_right fun hprev => hprev.1 rfl)
      isCollecting := hphase.isCollecting
      idle := hphase.idle }

/-- There is a new generation, in the list or not. -/
structure Placed (s t : Generations) (gn : Nat) : Prop where
  free : s.status gn = .nonexistent
  status : t.status = Function.update s.status gn .normal
  isRecovering : t.isRecovering = s.isRecovering

theorem Placed.normal {t : Generations} (h : s.Placed t gn) {g : Nat}
    (hg : s.status g = .normal) : t.status g = .normal := by
  rw [h.status]
  by_cases heq : g = gn
  · simp [heq]
  · rwa [Function.update_of_ne heq]

theorem Placed.self {t : Generations} (h : s.Placed t gn) : t.status gn = .normal := by
  rw [h.status, Function.update_self]

theorem Placed.nonexistent {t : Generations} (h : s.Placed t gn) {g : Nat}
    (hg : t.status g = .nonexistent) : s.status g = .nonexistent := by
  rw [h.status] at hg
  by_cases heq : g = gn
  · simp [heq] at hg
  · rwa [Function.update_of_ne heq] at hg

theorem Placed.calm {t : Generations} (h : s.Placed t gn)
    (hcalm : ∀ g, s.status g = .nonexistent ∨ s.status g = .normal) (g : Nat) :
    t.status g = .nonexistent ∨ t.status g = .normal := by
  rw [h.status]
  by_cases heq : g = gn
  · simp [heq]
  · rw [Function.update_of_ne heq]
    exact hcalm g

theorem Placed.phase {t : Generations} (h : s.Placed t gn) (hphase : s.Phase as bs [] [])
    (hcalm : ∀ g, s.status g = .nonexistent ∨ s.status g = .normal)
    (hprev : t.prevToGn = s.prevToGn) (hcollecting : t.isCollecting = s.isCollecting)
    {bs' : List Nat} (hmem : ∀ g ∈ bs', g = gn ∨ g ∈ bs) : t.Phase as bs' [] [] where
  normal := by
    intro g hg
    by_cases heq : g = gn
    · rw [heq, h.self]
    · refine h.normal (hphase.normal g ?_)
      simp only [List.append_nil, List.mem_append] at hg ⊢
      exact hg.imp_right fun hg => (hmem g hg).resolve_left heq
  toBeCollected := by simp
  prevToGn := by
    rw [hprev]
    exact .inl (hphase.prevToGn.resolve_right fun hprev => hprev.1 rfl)
  isCollecting := by rw [hcollecting, hphase.isCollecting]
  idle := fun g hg => by rcases h.calm hcalm g with hg' | hg' <;> simp [hg'] at hg

theorem Taken.arraysExcept {t : Generations} {n : Nat} (h : s.Taken t n)
    (ha : s.ArraysSound none) : t.ArraysSound (some t.toGn) where
  page := by
    intro g hg hexcept
    have hne : g ≠ t.toGn := fun heq => hexcept (heq ▸ rfl)
    rw [h.status, Function.update_of_ne hne] at hg
    rw [h.page, h.npages, Function.update_of_ne hne, Function.update_of_ne hne]
    exact ha.page hg (by simp)
  diskPage := by
    intro g hg hexcept
    have hne : g ≠ t.toGn := fun heq => hexcept (heq ▸ rfl)
    rw [h.status, Function.update_of_ne hne] at hg
    rw [h.diskPage, h.npages, Function.update_of_ne hne, Function.update_of_ne hne]
    exact ha.diskPage hg (by simp)

theorem ArraysSound.rvySetPages (h : s.ArraysSound (some gn)) (hlength : s.npages gn = pages.length) :
    (s.rvySetPages gn pages).ArraysSound none := by
  refine ArraysSound.setDiskPages ?_ (by simp [hlength]) (by simp [hlength])
  refine { h with page := fun {g} hg hexcept => ?_ }
  have hne : g ≠ gn := fun heq => hexcept (heq ▸ rfl)
  simp only [Function.update_of_ne hne]
  exact h.page hg hexcept

/-- A number is allocated, and the generation gets its pages, before or after it takes its
place in the list. -/
theorem Steady.rvyPlace (h : Steady params.numberOfPages False s as bs [] [])
    (hcalm : ∀ g, s.status g = .nonexistent ∨ s.status g = .normal) (gn : Nat)
    (pages : List (Nat × Nat)) :
    Ends (rvyAllocateGeneration params pages.length { s with toGn := gn })
      (fun t =>
        (s.Placed (t.rvySetPages gn pages) gn ∧
          Steady params.numberOfPages False (t.rvySetPages gn pages) as bs [] []) ∧
        ((as = [] → s.youngestGn = bs.headD invalidGenerationNumber) →
          ∃ u, t.insertGenerationAfter (as.getLastD invalidGenerationNumber) = u ∧
            s.Placed (u.rvySetPages gn pages) gn ∧
            Steady params.numberOfPages False (u.rvySetPages gn pages) as (gn :: bs) [] [] ∧
            u.youngestGn = if as = [] then gn else s.youngestGn))
      (· ≠ .endless) := by
  obtain ⟨⟨froms, twice, hsound⟩, harrays, hphase⟩ := h.setToGn gn
  refine (hsound.rvyAllocate hcalm pages.length).imp fun t ⟨hto, htaken, htsound⟩ => ?_
  have hto : t.toGn = gn := hto
  subst hto
  have hne : t.status t.toGn ≠ .nonexistent := by simp [htaken.normal]
  have hpage : t.page t.toGn = [] := by rw [htaken.page, Function.update_self]
  have hdiskPage : t.diskPage t.toGn = [] := by rw [htaken.diskPage, Function.update_self]
  have hlength : t.npages t.toGn = pages.length := by rw [htaken.npages, Function.update_self]
  have harrays := htaken.arraysExcept harrays
  have hplaced : ∀ {u : Generations}, u.status = t.status → u.isRecovering = t.isRecovering →
      Placed { s with toGn := t.toGn } u t.toGn := fun hstatus hrecovering =>
    ⟨htaken.free, hstatus.trans htaken.status, hrecovering.trans htaken.isRecovering⟩
  refine ⟨⟨⟨htaken.free, htaken.status, htaken.isRecovering⟩, ⟨_, _, htsound.rvySetPages hne hpage
    hdiskPage⟩, harrays.rvySetPages hlength, ?_⟩, fun hyoungest => ?_⟩
  · exact (hplaced (u := t.rvySetPages t.toGn pages) rfl rfl).phase hphase hcalm htaken.prevToGn
      htaken.isCollecting fun g hg => .inr hg
  · have hfresh : t.toGn ∉ phaseAges as bs [] [] := fun hmem =>
      (hsound.ages.live _ hmem).ne_nonexistent htaken.free
    simp only [phaseAges, List.append_nil] at hfresh htsound
    obtain ⟨younger, older, hrun, husound⟩ := htsound.insert hfresh htaken.normal fun hnil =>
      htaken.youngestGn.trans (hyoungest hnil)
    refine ⟨_, hrun, ⟨htaken.free, htaken.status, htaken.isRecovering⟩,
      ⟨⟨Function.update froms t.toGn [], twice, ?_⟩, ?_, ?_⟩, ?_⟩
    · simp only [phaseAges, List.append_nil]
      exact husound.rvySetPages hne hpage hdiskPage
    · exact ArraysSound.rvySetPages { harrays with } hlength
    · refine (hplaced ?_ ?_).phase hphase hcalm ?_ ?_ fun g hg => List.mem_cons.mp hg
      · rfl
      · rfl
      · exact htaken.prevToGn
      · exact htaken.isCollecting
    · simp only [htaken.youngestGn]

/-! ## whole lists -/

/-- Nothing has been marked yet. -/
structure Descending (numberOfPages : Nat) (s : Generations) (as bs : List Nat) : Prop where
  steady : Steady numberOfPages False s as bs [] []
  calm : ∀ g, s.status g = .nonexistent ∨ s.status g = .normal
  isRecovering : s.isRecovering = true

theorem Descending.read (h : Descending params.numberOfPages s as bs)
    (hgn : s.status gn = .normal) :
    Ends (rvyReadGeneration params gn s)
      (fun t => s.Reread t ∧ Descending params.numberOfPages t as bs)
      (· ≠ .endless) := by
  refine (h.steady.rvyRead (by simp [hgn])).imp fun t ⟨hreread, hsteady⟩ => ⟨hreread, ?_⟩
  obtain ⟨_, _, _, _, rfl⟩ := hreread
  exact ⟨hsteady, h.calm, h.isRecovering⟩

/-- More generations are behind `as`, which were not there before. -/
def Listed (numberOfPages : Nat) (s t : Generations) (as bs : List Nat) (isSome : Prop) : Prop :=
  ∃ tail, Descending numberOfPages t as tail ∧
    (∀ g ∈ tail, g ∈ bs ∨ s.status g = .nonexistent) ∧
    (∀ g, s.status g = .normal → t.status g = .normal) ∧ (isSome → tail ≠ [])

/-- New generations go behind `as`, and those that were collected behind all of these. -/
theorem Descending.rvyBaseMajorGcRound (h : Descending params.numberOfPages s as bs)
    (has : as ≠ []) (oldestGn : Nat) (list : List GenerationPinfo) :
    Ends (rvyBaseMajorGcRound params (as.getLastD invalidGenerationNumber) oldestGn list s)
      (fun t => Listed params.numberOfPages s t as bs (list ≠ [] ∨ bs ≠ []))
      (· ≠ .endless) := by
  induction list generalizing s as bs oldestGn with
  | nil => exact ⟨bs, h, fun g hg => .inl hg, fun _ hg => hg, by simp⟩
  | cons p next ih =>
    have hyounger : as.getLastD invalidGenerationNumber ≠ invalidGenerationNumber := by
      obtain ⟨froms, twice, hsound⟩ := h.steady.sound
      obtain ⟨a, ha⟩ : ∃ a, as.getLast? = some a :=
        Option.ne_none_iff_exists'.mp (by simpa using has)
      rw [List.getLastD_eq_getLast?, ha]
      exact hsound.ages.linked.ne_stop (by simp [phaseAges, List.mem_of_getLast? ha])
    rw [Generations.rvyBaseMajorGcRound]
    refine (h.steady.rvyPlace h.calm p.gn p.pages).bind ?_
    rintro t ⟨-, ht⟩
    obtain ⟨u, hu, hplaced, hsteady, -⟩ := ht fun hnil => absurd hnil has
    have hdescending : Descending params.numberOfPages (u.rvySetPages p.gn p.pages) as
        (p.gn :: bs) := ⟨hsteady, hplaced.calm h.calm, hplaced.isRecovering.trans h.isRecovering⟩
    -- whether the generation is behind the new ones or one of them
    have hnext : ∀ as' bs' oldestGn', as' ≠ [] → as' ++ bs' = as ++ p.gn :: bs →
        Ends (rvyReadGeneration params p.gn (u.rvySetPages p.gn p.pages) >>=
            rvyBaseMajorGcRound params (as'.getLastD invalidGenerationNumber) oldestGn' next)
          (fun t => Listed params.numberOfPages s t as' bs' (next ≠ [] ∨ bs' ≠ []))
          (· ≠ .endless) := by
      intro as' bs' oldestGn' has' hages
      refine (hdescending.read hplaced.self).bind ?_
      rintro v ⟨hreread, hv⟩
      have hstatus : v.status = (u.rvySetPages p.gn p.pages).status := by
        obtain ⟨_, _, _, _, rfl⟩ := hreread
        rfl
      have hv : Descending params.numberOfPages v as' bs' :=
        ⟨hv.steady.move hages.symm, hv.calm, hv.isRecovering⟩
      refine (ih hv has' oldestGn').imp ?_
      rintro t ⟨tail, ht, hfresh, hstay, hne⟩
      refine ⟨tail, ht, fun g hg => (hfresh g hg).imp_right fun hg => ?_, fun g hg => ?_, hne⟩
      · exact hplaced.nonexistent (hstatus ▸ hg)
      · exact hstay g (hstatus ▸ hplaced.normal hg)
    by_cases hnew : p.numberOfFromGenerations = 0
    · have hrun := hnext (as ++ [p.gn]) bs oldestGn (by simp) (by simp)
      rw [List.getLastD_concat] at hrun
      simp only [if_pos hnew, hu, ends_ok_bind]
      refine hrun.imp ?_
      rintro t ⟨tail, ht, hfresh, hstay, -⟩
      refine ⟨p.gn :: tail, ⟨ht.steady.move (by simp), ht.calm, ht.isRecovering⟩, ?_, hstay,
        by simp⟩
      intro g hg
      rcases List.mem_cons.mp hg with rfl | hg
      · exact .inr hplaced.free
      · exact hfresh g hg
    · have hlisted : ∀ {t}, Listed params.numberOfPages s t as (p.gn :: bs)
          (next ≠ [] ∨ p.gn :: bs ≠ []) →
          Listed params.numberOfPages s t as bs (p :: next ≠ [] ∨ bs ≠ []) := by
        rintro t ⟨tail, ht, hfresh, hstay, hne⟩
        refine ⟨tail, ht, fun g hg => ?_, hstay, fun _ => hne (.inr (by simp))⟩
        rcases hfresh g hg with hg | hg
        · rcases List.mem_cons.mp hg with rfl | hg
          · exact .inr hplaced.free
          · exact .inl hg
        · exact .inr hg
      simp only [if_neg hnew, if_neg hyounger, hu]
      split
      · exact (hnext as (p.gn :: bs) p.gn has rfl).imp fun _ => hlisted
      · exact (hnext as (p.gn :: bs) oldestGn has rfl).imp fun _ => hlisted

/-- The generation before the others is one that the collection sees. -/
theorem Steady.extend (h : Steady params.numberOfPages False s (above ++ [gn]) pre marked post) :
    Steady params.numberOfPages False s above (gn :: pre) marked post := by
  obtain ⟨⟨froms, twice, hsound⟩, harrays, hphase⟩ := h
  refine ⟨⟨froms, twice, ?_⟩, harrays, ?_⟩
  · simpa [phaseAges] using hsound
  · exact {
      normal := fun g hg => hphase.normal g (by simpa using hg)
      toBeCollected := hphase.toBeCollected
      prevToGn := by
        rcases hphase.prevToGn with hnone | ⟨hne, pre', hpre⟩
        · exact .inl hnone
        · exact .inr ⟨hne, gn :: pre', by rw [hpre]; rfl⟩
      isCollecting := hphase.isCollecting
      idle := hphase.idle }

/-- A new generation is read again, and copied to if there is a mature collection. -/
theorem Steady.rvyNewGeneration
    (h : Steady params.numberOfPages False s above (gn :: pre) marked post) (hto : s.toGn = gn)
    (hrecovering : s.isRecovering = true) (toPages : Nat) :
    Ends (do
        let t ← rvyReadGeneration params gn s
        if t.isCollecting then rvyNewGeneration toPages t else .ok t)
      (fun t => Steady params.numberOfPages False t above (gn :: pre) marked post ∧
        t.status = s.status ∧ t.youngestGn = s.youngestGn ∧ t.isRecovering = true)
      (· ≠ .endless) := by
  have hnormal : s.status gn = .normal := h.phase.normal gn (by simp)
  refine (h.rvyRead (by simp [hnormal])).bind fun t ⟨hreread, ht⟩ => ?_
  obtain ⟨_, _, _, _, rfl⟩ := hreread
  refine ends_ite (fun _ => ?_) fun _ => ⟨ht, rfl, rfl, hrecovering⟩
  obtain ⟨⟨froms, twice, hsound⟩, harrays, hphase⟩ := ht
  refine (hsound.startGc.rvyCopyCells (by rw [← hto] at hnormal; exact hnormal) hrecovering
    toPages).imp fun u ⟨⟨toPn, history, hu⟩, husound⟩ => ?_
  subst hu
  exact ⟨⟨⟨froms, twice, husound⟩, { harrays with }, { hphase with }⟩, rfl, rfl, hrecovering⟩

/-- What was done to the generations of the lists has been done again.  The generations
`above` are not touched. -/
structure Replayed (numberOfPages : Nat) (s t : Generations) (above pre marked post : List Nat)
    (isSome isYoungest : Prop) : Prop where
  steady : Steady numberOfPages False t above pre marked post
  isRecovering : t.isRecovering = true
  fresh : ∀ g ∈ pre ++ (marked ++ post), s.status g = .nonexistent
  stay : ∀ g, s.status g = .normal → t.status g = .normal
  pre_ne : marked ≠ [] → pre ≠ []
  ne : isSome → pre ++ (marked ++ post) ≠ []
  youngestGn : isYoungest → t.youngestGn = (pre ++ (marked ++ post)).headD invalidGenerationNumber

theorem Descending.rvyBatch (h : Descending params.numberOfPages s above []) (habove : above ≠ [])
    (list prevList prevPrevList : List GenerationPinfo) :
    Ends (rvyBatch params (above.getLastD invalidGenerationNumber) list prevList prevPrevList s)
      (fun t => ∃ pre marked post,
        Replayed params.numberOfPages s t above pre marked post (list ≠ []) (prevList ≠ []))
      (· ≠ .endless) := by
  induction hn : list.length + prevList.length + prevPrevList.length using Nat.strong_induction_on
    generalizing s above list prevList prevPrevList with
  | _ n ih =>
  subst hn
  rw [Generations.rvyBatch.eq_def]
  refine ends_ite (fun hprev => ends_ite (fun _ => by simp) fun _ => ?_) fun hprev => ?_
  · refine (h.rvyBaseMajorGcRound habove _ list).imp fun t ⟨tail, ht, hfresh, hstay, hne⟩ => ?_
    refine ⟨tail, [], [], ht.steady, ht.isRecovering, fun g hg => ?_, hstay, by simp,
      fun hlist => by simpa using hne (.inl hlist), fun hcontra => absurd hprev hcontra⟩
    exact (hfresh g (by simpa using hg)).resolve_left (by simp)
  cases list with
  | nil => exact fun hcontra => by cases hcontra
  | cons p next =>
    refine (h.steady.rvyPlace h.calm p.gn p.pages).bind fun t ⟨⟨hplaced, hsteady⟩, ht⟩ => ?_
    refine ends_ite (fun hnew => ?_) fun hold => ends_ite (fun _ => by simp) fun hnext => ?_
    · obtain ⟨u, hu, hplaced, hsteady, -⟩ := ht fun hnil => absurd hnil habove
      have hdescending : Descending params.numberOfPages (u.rvySetPages p.gn p.pages)
          (above ++ [p.gn]) [] := ⟨hsteady.move (by simp), hplaced.calm h.calm,
        hplaced.isRecovering.trans h.isRecovering⟩
      have hlast : (above ++ [p.gn]).getLastD invalidGenerationNumber = p.gn :=
        List.getLastD_concat ..
      simp only [hu]
      refine (hdescending.read hplaced.self).bind fun v ⟨hreread, hv⟩ => ?_
      have hstatus : v.status = (u.rvySetPages p.gn p.pages).status := by
        obtain ⟨_, _, _, _, rfl⟩ := hreread
        rfl
      -- what comes after the older generations, in both cases
      have hfinish : ∀ w : Generations, w.toGn = p.gn → w.isRecovering = true →
          ∀ pre marked post, Steady params.numberOfPages False w above (p.gn :: pre) marked post →
          (∀ g ∈ pre ++ (marked ++ post), v.status g = .nonexistent) →
          (∀ g, v.status g = .normal → w.status g = .normal) →
          Ends (do
              let x ← rvyReadGeneration params p.gn { w with youngestGn := p.gn }
              if x.isCollecting then rvyNewGeneration p.toPages x else .ok x)
            (fun t => ∃ pre marked post, Replayed params.numberOfPages s t above pre marked post
              (p :: next ≠ []) (prevList ≠ [])) (· ≠ .endless) := by
        intro w hto hrecovering pre marked post hw hfresh hstay
        refine ((hw.setYoungestGn p.gn).rvyNewGeneration hto hrecovering p.toPages).imp
          fun x ⟨hx, hxstatus, hxyoungest, hxrecovering⟩ => ?_
        refine ⟨p.gn :: pre, marked, post, hx, hxrecovering, fun g hg => ?_, fun g hg => ?_,
          by simp, by simp, fun _ => hxyoungest⟩
        · rcases List.mem_cons.mp hg with rfl | hg
          · exact hplaced.free
          · exact hplaced.nonexistent (hstatus ▸ hfresh g hg)
        · rw [hxstatus]
          exact hstay g (hstatus ▸ hplaced.normal hg)
      refine ends_ite (fun hnext => ?_) fun hnext => ?_
      · subst hnext
        have hrun := ih _ (by simp) hv (by simp) prevList prevPrevList [] rfl
        rw [hlast] at hrun
        refine hrun.bind fun w ⟨pre, marked, post, hw⟩ => ?_
        refine ((hw.steady.setToGn p.gn).rvyMark (hw.ne hprev)).bind
          fun x ⟨⟨status, history, hx⟩, hxsteady, hout⟩ => ?_
        obtain ⟨status', count, history', hmark, hkeep, hysteady⟩ := hxsteady.markTwice
        rw [hmark]
        subst hx
        refine hfinish _ rfl hw.isRecovering [] _ [] hysteady (fun g hg => ?_) fun g hg => ?_
        · exact hw.fresh g (by simpa using hg)
        · have hg' : status g = .normal :=
            (hout g fun hmem => by simp [hw.fresh g hmem] at hg).trans (hw.stay g hg)
          exact (hkeep (by simp [hg'])).trans hg'
      · have hrun := ih _ (by simp) hv (by simp) next prevList prevPrevList rfl
        rw [hlast] at hrun
        refine hrun.bind fun w ⟨pre, marked, post, hw⟩ => ?_
        exact hfinish _ rfl hw.isRecovering pre marked post (hw.steady.setToGn p.gn).extend
          hw.fresh hw.stay
    · have hdescending : Descending params.numberOfPages (t.rvySetPages p.gn p.pages) above [] :=
        ⟨hsteady, hplaced.calm h.calm, hplaced.isRecovering.trans h.isRecovering⟩
      refine (ih _ (by simp) hdescending habove next prevList prevPrevList rfl).bind
        fun w ⟨pre, marked, post, hw⟩ => ?_
      have hgn : w.status p.gn = .normal := hw.stay p.gn hplaced.self
      refine ((hw.steady.setToGn p.gn).rvyRead (by simp [hgn])).bind fun x ⟨hreread, hx⟩ => ?_
      have hfresh : p.gn ∉ phaseAges above pre marked post := by
        intro hmem
        rcases List.mem_append.mp hmem with hmem | hmem
        · have hnormal := h.steady.phase.normal p.gn (by simp [hmem])
          simp [hplaced.free] at hnormal
        · have hnone := hw.fresh p.gn hmem
          simp [hplaced.self] at hnone
      obtain ⟨_, _, _, _, hx'⟩ := hreread
      have hto : x.toGn = p.gn := by rw [hx']
      have hstatus : x.status = w.status := by rw [hx']
      have hyoungest : x.youngestGn = w.youngestGn := by rw [hx']
      have hrecovering : x.isRecovering = true := by rw [hx', hw.isRecovering]
      refine (hx.rvyMajorGcStep (by rw [hto, hstatus, hgn]) (hto ▸ hfresh)
        (hyoungest.trans (hw.youngestGn hprev)) hw.pre_ne hrecovering p.numberOfFromGenerations
        p.toPages).bind fun r ⟨hpre, gns, marked', hmarked, hr, hryoungest, hrrecovering, hrstay⟩ => ?_
      rw [hto] at hr
      refine ⟨pre ++ [p.gn], marked', post, hr, hrrecovering, fun g hg => ?_, fun g hg => ?_,
        by simp, by simp, fun _ => ?_⟩
      · by_cases heq : g = p.gn
        · exact heq ▸ hplaced.free
        · refine hplaced.nonexistent (hw.fresh g ?_)
          simp only [hmarked, List.mem_append, List.mem_singleton] at hg ⊢
          tauto
      · refine hrstay g ?_
        rw [hstatus]
        exact hw.stay g (hplaced.normal hg)
      · rw [hryoungest, hyoungest, hw.youngestGn hprev]
        cases pre with
        | nil => exact absurd rfl hpre
        | cons q pre => rfl

/-! ## the end of recovery -/

/-- The pages that are not allocated are the free ones. -/
theorem Sound.constructPageFreelist (h : s.Sound params.numberOfPages False ages froms twice) :
    ∃ pageGeneration listOfFreePages, constructPageFreelist params s = { s with
        pageGeneration := pageGeneration
        listOfFreePages := listOfFreePages } ∧
      Sound params.numberOfPages False
        { s with
          pageGeneration := pageGeneration
          listOfFreePages := listOfFreePages }
        ages froms twice := by
  suffices hloop : ∀ n ≤ params.numberOfPages, ∃ pageGeneration listOfFreePages,
      (List.range n).foldl constructPageFreelistAt s = { s with
        pageGeneration := pageGeneration
        listOfFreePages := listOfFreePages } ∧
      Sound params.numberOfPages False
        { s with
          pageGeneration := pageGeneration
          listOfFreePages := listOfFreePages }
        ages froms twice from hloop _ le_rfl
  intro n hn
  induction n with
  | zero => exact ⟨_, _, rfl, h⟩
  | succ n ih =>
    obtain ⟨generation, free, hrun, hsound⟩ := ih (Nat.le_of_succ_le hn)
    rw [List.range_succ, List.foldl_append, hrun]
    simp only [List.foldl_cons, List.foldl_nil, constructPageFreelistAt]
    split
    · exact ⟨_, _, rfl, hsound⟩
    · rename_i hnot
      refine ⟨_, _, rfl, {
        hsound with
        pages := {
          hsound.pages with
          refers := ?_
          free := ?_
          allocated := False.elim
          freeNodup := False.elim
          notAllocated := False.elim } }⟩
      · intro pn hpn
        have hne : pn ≠ n := by
          rintro rfl
          exact hnot hpn
        obtain ⟨hlt, g, hlive, hmem, haddress⟩ := hsound.pages.refers hpn
        exact ⟨hlt, g, hlive, hmem, (Function.update_of_ne hne _ _).trans haddress⟩
      · intro pn hpn
        rcases List.mem_cons.mp hpn with rfl | hpn
        · exact hn
        · exact hsound.pages.free pn hpn

/-- Whatever database is recovered. -/
theorem Fresh.recoverDb (h : s.Fresh params.numberOfPages) (image : RecoveryImage) (gc : MajorGc) :
    Ends (recoverDb params image gc s) (Ready params.numberOfPages False) (· ≠ .endless) := by
  obtain ⟨t, hrun, hsteady, -, hrecovering, hnone⟩ :=
    h.freeAllPages (False.elim : False → true = false) fun _ => invalidDiskPageNumber
  unfold Generations.recoverDb
  rw [hrun, ends_ok_bind]
  refine ((hsteady.setYoungestGn invalidGenerationNumber).rvyPlace (fun g => .inl (hnone g))
    image.youngest.gn image.youngest.pages).bind fun u ⟨_, hu⟩ => ?_
  obtain ⟨v, hv, hplaced, hvsteady, hvyoungest⟩ := hu fun _ => rfl
  have hv : u.insertGenerationAfter invalidGenerationNumber = v := hv
  simp only [hv]
  refine ends_ite (fun _ => by simp) fun _ => ?_
  have hdescending : Descending params.numberOfPages
      (v.rvySetPages image.youngest.gn image.youngest.pages) [image.youngest.gn] [] :=
    ⟨hvsteady.move (by simp), hplaced.calm fun g => .inl (hnone g),
      hplaced.isRecovering.trans hrecovering⟩
  refine (hdescending.read hplaced.self).bind fun w ⟨hreread, hw⟩ => ?_
  have hyoungest : w.youngestGn = [image.youngest.gn].getLastD invalidGenerationNumber := by
    obtain ⟨_, _, _, _, rfl⟩ := hreread
    exact hvyoungest
  rw [hyoungest]
  refine (hw.rvyBatch (by simp) image.generationPinfoList image.prevGenerationPinfoList
    image.prevPrevGenerationPinfoList).bind fun x ⟨pre, marked, post, hx⟩ => ?_
  have hxsteady : Steady params.numberOfPages False
      { x with toGn := image.youngest.gn, youngestGn := image.youngest.gn } []
      (image.youngest.gn :: pre) marked post :=
    ((Steady.extend hx.steady).setToGn image.youngest.gn).setYoungestGn image.youngest.gn
  have hnew := hxsteady.rvyNewGeneration rfl hx.isRecovering image.youngest.toPages
  rw [← bind_assoc]
  refine hnew.bind fun y ⟨⟨⟨froms, twice, hsound⟩, harrays, hphase⟩, hystatus, hyyoungest, _⟩ => ?_
  obtain ⟨generation, free, hfreelist, hsound'⟩ := hsound.constructPageFreelist
  rw [hfreelist]
  have hready : Ready params.numberOfPages False { y with
      pageGeneration := generation
      listOfFreePages := free
      isRecovering := false } :=
    ⟨image.youngest.gn :: pre, marked, post,
      ⟨⟨froms, twice, { hsound' with history := { hsound'.history with created := False.elim } }⟩,
        { harrays with }, { hphase with }⟩, hyyoungest, rfl⟩
  have hvalid : y.youngestGn ≠ invalidGenerationNumber := by
    rw [hyyoungest]
    exact hsound.ages.linked.ne_stop List.mem_cons_self
  exact (Running.majorGc ⟨hready, hvalid⟩ false gc).mono (fun z hz => hz.1) fun e he =>
    he.ne_endless

end Generations

end Shades
