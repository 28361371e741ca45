import Shades.Gc.GenerationSteps

/-!
# Shades.Gc.Commits

Commits and the mature collection that goes on over many of them.

During a mature collection the list by age has the generations that came to be
since it began, then those that are still to be collected, and then the ones that
it spares.  `Phase` says so, and that `prev_to_gn` and `is_collecting` agree with
it.  A step collects some generations and puts one in their place, so the phase
goes on, and the assertions of the code hold.
-/

namespace Shades

namespace Generations

variable {params : GenerationParams} {owned : Prop} {s : Generations} {froms : Nat → List Nat}
  {twice above pre marked post : List Nat} {gn : Nat}

/-! ## the phase of a mature collection -/

/-- Where the marked generations are in the list by age.  `above` are generations that
the collection does not see. -/
structure Phase (s : Generations) (above pre marked post : List Nat) : Prop where
  normal : ∀ g ∈ above ++ (pre ++ post), s.status g = .normal
  toBeCollected : ∀ g ∈ marked, s.status g = .toBeCollected
  prevToGn : s.prevToGn = invalidGenerationNumber ∨
    marked ≠ [] ∧ ∃ pre', pre = pre' ++ [s.prevToGn]
  isCollecting : s.isCollecting = true ↔ marked ≠ []
  idle : ∀ g, s.status g ≠ .beingCollected

/-- The list by age. -/
def phaseAges (above pre marked post : List Nat) : List Nat := above ++ (pre ++ (marked ++ post))

/-- Everything that holds between two steps. -/
structure Steady (numberOfPages : Nat) (owned : Prop) (s : Generations)
    (above pre marked post : List Nat) : Prop where
  sound : ∃ froms twice, s.Sound numberOfPages owned (phaseAges above pre marked post) froms twice
  arrays : s.ArraysSound none
  phase : s.Phase above pre marked post

theorem Sound.firstFromGn_eq {m : Nat} {ms : List Nat}
    (h : s.Sound params.numberOfPages owned (phaseAges above pre (m :: ms) post) froms twice)
    (hphase : s.Phase above pre (m :: ms) post)
    (hyoungest : s.youngestGn = (pre ++ (m :: ms ++ post)).headD invalidGenerationNumber) :
    s.firstFromGn = .ok m := by
  unfold Generations.firstFromGn
  split
  · rw [hyoungest]
    refine h.skip (fun g hg => ?_) (hphase.toBeCollected m List.mem_cons_self) ?_
    · rw [hphase.normal g (by simp [hg])]
      decide
    · have hlength := h.ages.length_le h.table.inside
      simp only [phaseAges, List.length_append, List.length_cons] at hlength
      omega
  · obtain ⟨-, pre', hpre⟩ := hphase.prevToGn.resolve_left ‹_›
    have hages : phaseAges above pre (m :: ms) post =
        (above ++ pre') ++ s.prevToGn :: (m :: ms ++ post) := by
      rw [phaseAges, hpre]
      simp
    rw [hages] at h
    exact congrArg _ h.ages.linked.next_eq

theorem Sound.firstFromGn_none
    (h : s.Sound params.numberOfPages owned (phaseAges above pre [] post) froms twice)
    (hphase : s.Phase above pre [] post)
    (hyoungest : s.youngestGn = (pre ++ ([] ++ post)).headD invalidGenerationNumber) :
    s.firstFromGn = .error .outside := by
  have hprev := hphase.prevToGn.resolve_right fun hprev => hprev.1 rfl
  rw [Generations.firstFromGn, if_pos hprev, hyoungest]
  refine h.skip_none (fun g hg => ?_) ?_
  · rw [hphase.normal g (by simp at hg ⊢; tauto)]
    decide
  · have hlength := h.ages.length_le h.table.inside
    simp only [phaseAges, List.length_append] at hlength ⊢
    omega

/-- The generations that are chosen are the first ones of the marked ones. -/
theorem Begun.phase {t : Generations} {gns rest : List Nat} (h : s.Begun t gns)
    (hidle : ∀ g, s.status g ≠ .beingCollected)
    (hnormal : ∀ g ∈ above ++ (pre ++ post), s.status g = .normal)
    (hmarked : ∀ g ∈ marked, s.status g = .toBeCollected) (hnodup : marked.Nodup)
    (hsplit : marked ++ post = gns ++ rest) :
    ∃ marked', marked = gns ++ marked' ∧ (∀ g, t.status g = .beingCollected ↔ g ∈ gns) ∧
      (∀ g ∈ above ++ (pre ++ post), t.status g = .normal) ∧
      ∀ g ∈ marked', t.status g = .toBeCollected := by
  obtain ⟨marked', rfl⟩ : ∃ marked', marked = gns ++ marked' := by
    rcases List.append_eq_append_iff.mp hsplit with ⟨as, rfl, hpost⟩ | ⟨bs, hgns, -⟩
    · cases as with
      | nil => exact ⟨[], by simp⟩
      | cons a as =>
        have ha := hnormal a (by simp [hpost])
        simp [h.toBeCollected (show a ∈ marked ++ a :: as by simp)] at ha
    · exact ⟨bs, hgns⟩
  refine ⟨marked', rfl, h.being_iff hidle, fun g hg => ?_, fun g hg => ?_⟩
  · have hg := hnormal g hg
    rw [h.keep fun hmem => by simp [h.toBeCollected hmem] at hg, hg]
  · rw [h.keep fun hmem => (List.nodup_append.mp hnodup).2.2 g hmem g hg rfl]
    exact hmarked g (List.mem_append_right _ hg)

/-! ## a step of the mature collection -/

/-- The generations that were collected go out of the list, and the collection looks
ahead. -/
theorem Sound.finishStep {gns : List Nat}
    (h : s.Sound params.numberOfPages owned
      (phaseAges above (pre ++ [s.toGn]) (gns ++ marked) post) froms twice)
    (ha : s.ArraysSound none) (hgns : ∀ g, s.status g = .beingCollected ↔ g ∈ gns)
    (hnormal : ∀ g ∈ above ++ ((pre ++ [s.toGn]) ++ post), s.status g = .normal)
    (hmarked : ∀ g ∈ marked, s.status g = .toBeCollected) (hcollecting : s.isCollecting = true) :
    Ends (markCollectedOnce gns.length ((gns ++ (marked ++ post)).headD invalidGenerationNumber) s)
      (fun t => ∀ effort ≠ 0, ∃ effortStep u, t.peekAhead effort = (effortStep, u) ∧
        Steady params.numberOfPages owned (stopIfFinished effortStep u) above (pre ++ [s.toGn])
          marked post ∧
        (stopIfFinished effortStep u).youngestGn = s.youngestGn ∧
        (stopIfFinished effortStep u).isRecovering = s.isRecovering ∧
        (∀ g, s.status g = .normal → (stopIfFinished effortStep u).status g = .normal) ∧
        ∀ g ∉ gns, (stopIfFinished effortStep u).page g = s.page g)
      (GcFailure.Excused owned) := by
  have hages : phaseAges above (pre ++ [s.toGn]) (gns ++ marked) post =
      (above ++ (pre ++ [s.toGn])) ++ (gns ++ (marked ++ post)) := by simp [phaseAges]
  rw [hages] at h
  have hto : s.toGn ∉ gns := fun hmem => by
    have := (hgns s.toGn).mpr hmem
    simp [hnormal s.toGn (by simp)] at this
  refine (h.collectAllOnce ha (by simp) (fun g hg => (hgns g).mpr hg) hto).imp
    fun t ⟨ht, hta, twice', htsound⟩ effort heffort => ?_
  have hkeep : ∀ {g}, s.status g ≠ .collectedOnce → s.status g ≠ .beingCollected →
      t.status g = s.status g := fun honce hbeing => ht.same honce (mt (hgns _).mpr hbeing)
  have hstay : ∀ g, s.status g = .normal → t.status g = .normal := by
    intro g hs
    rw [hkeep (by simp [hs]) (by simp [hs]), hs]
  have hnormal' : ∀ g ∈ above ++ ((pre ++ [s.toGn]) ++ post), t.status g = .normal :=
    fun g hg => hstay g (hnormal g hg)
  have hmarked' : ∀ g ∈ marked, t.status g = .toBeCollected := by
    intro g hg
    have hs := hmarked g hg
    rw [hkeep (by simp [hs]) (by simp [hs]), hs]
  have hidle : ∀ g, t.status g ≠ .beingCollected := fun g hg =>
    (ht.being hg).2 ((hgns g).mp (ht.being hg).1)
  have holder : t.older t.toGn = (marked ++ post).headD invalidGenerationNumber := by
    have hsplit : (above ++ (pre ++ [s.toGn])) ++ (marked ++ post) =
        (above ++ pre) ++ s.toGn :: (marked ++ post) := by simp
    rw [hsplit] at htsound
    rw [ht.course.toGn]
    exact htsound.ages.linked.next_eq
  have hsound : t.Sound params.numberOfPages owned (phaseAges above (pre ++ [s.toGn]) marked post)
      froms twice' := by
    rwa [List.append_assoc] at htsound
  unfold peekAhead
  rw [holder]
  cases marked with
  | nil =>
    -- nothing is left to be collected
    have hdone : ([] ++ post).headD invalidGenerationNumber = invalidGenerationNumber ∨
        t.status (([] ++ post).headD invalidGenerationNumber) ≠ .toBeCollected := by
      cases post with
      | nil => exact .inl rfl
      | cons g post =>
        refine .inr ?_
        rw [List.nil_append, List.headD_cons, hnormal' g (by simp)]
        decide
    refine ⟨0, { t with prevToGn := invalidGenerationNumber }, if_pos hdone, ?_,
      ht.course.youngestGn, ht.course.isRecovering, hstay, fun _ => ht.page⟩
    exact {
      sound := ⟨froms, twice', { hsound with }⟩
      arrays := { hta with }
      phase := {
        normal := hnormal'
        toBeCollected := hmarked'
        prevToGn := .inl rfl
        isCollecting := by simp [stopIfFinished]
        idle := hidle } }
  | cons m ms =>
    have hm : m ≠ invalidGenerationNumber :=
      hsound.ages.linked.ne_stop (by simp [phaseAges])
    have hmore : ¬ ((m :: ms ++ post).headD invalidGenerationNumber = invalidGenerationNumber ∨
        t.status ((m :: ms ++ post).headD invalidGenerationNumber) ≠ .toBeCollected) := by
      simpa [hm] using hmarked' m List.mem_cons_self
    refine ⟨effort, { t with prevToGn := t.toGn }, if_neg hmore, ?_, ?_, ?_, ?_, ?_⟩
    all_goals rw [stopIfFinished, if_neg heffort]
    · exact {
        sound := ⟨froms, twice', { hsound with }⟩
        arrays := { hta with }
        phase := {
          normal := hnormal'
          toBeCollected := hmarked'
          prevToGn := .inr ⟨List.cons_ne_nil _ _, pre, by rw [ht.course.toGn]⟩
          isCollecting := by simp [ht.course.isCollecting, hcollecting]
          idle := hidle } }
    · exact ht.course.youngestGn
    · exact ht.course.isRecovering
    · exact hstay
    · exact fun _ => ht.page

/-- Nothing but links and `youngest_gn` differs, and perhaps `to_pn`. -/
structure Relinked (s t : Generations) : Prop where
  status : t.status = s.status
  npages : t.npages = s.npages
  page : t.page = s.page
  diskPage : t.diskPage = s.diskPage
  toGn : t.toGn = s.toGn
  prevToGn : t.prevToGn = s.prevToGn
  isCollecting : t.isCollecting = s.isCollecting
  isRecovering : t.isRecovering = s.isRecovering
  majorGcWasStarted : t.majorGcWasStarted = s.majorGcWasStarted

theorem Relinked.arrays {t : Generations} (h : s.Relinked t) (ha : s.ArraysSound none) :
    t.ArraysSound none where
  page := by
    rw [h.status, h.page, h.npages]
    exact ha.page
  diskPage := by
    rw [h.status, h.diskPage, h.npages]
    exact ha.diskPage

/-- `to_gn` comes before the generations that are to be collected. -/
theorem Sound.insertStep {m : Nat} {ms : List Nat}
    (h : s.Sound params.numberOfPages owned (phaseAges above pre (m :: ms) post) froms twice)
    (hto : s.toGn ∉ phaseAges above pre (m :: ms) post) (hnormal : s.status s.toGn = .normal)
    (hyoungest : s.youngestGn = (pre ++ (m :: ms ++ post)).headD invalidGenerationNumber)
    (habove : pre = [] → above = []) :
    s.Relinked (s.insertGenerationAfter (s.younger m)) ∧
      (s.insertGenerationAfter (s.younger m)).Sound params.numberOfPages owned
        (phaseAges above (pre ++ [s.toGn]) (m :: ms) post) froms twice ∧
      ∀ bs, (s.insertGenerationAfter (s.younger m)).youngestGn =
        (pre ++ [s.toGn] ++ bs).headD invalidGenerationNumber := by
  have hages : ∀ ms, phaseAges above pre ms post = (above ++ pre) ++ (ms ++ post) := by
    simp [phaseAges]
  have hinsert : phaseAges above (pre ++ [s.toGn]) (m :: ms) post =
      (above ++ pre) ++ s.toGn :: (m :: ms ++ post) := by simp [phaseAges]
  rw [hages] at h hto
  have hyounger : s.younger m = (above ++ pre).getLastD invalidGenerationNumber :=
    h.ages.linked.prev_eq
  obtain ⟨younger, older, hrun, hsound⟩ := h.insert hto hnormal fun hnil => by
    rw [hyoungest, (List.append_eq_nil_iff.mp hnil).2]
    rfl
  rw [hyounger, hinsert, hrun]
  refine ⟨⟨rfl, rfl, rfl, rfl, rfl, rfl, rfl, rfl, rfl⟩, hsound, fun bs => ?_⟩
  cases pre with
  | nil => simp [habove rfl]
  | cons g pre => simp [hyoungest]

theorem Sound.startGc {ages : List Nat}
    (h : s.Sound params.numberOfPages owned ages froms twice) :
    s.startGc.Sound params.numberOfPages owned ages froms twice := { h with }

theorem relinked_startGc (s : Generations) : s.Relinked s.startGc :=
  ⟨rfl, rfl, rfl, rfl, rfl, rfl, rfl, rfl, rfl⟩

theorem Relinked.trans {t u : Generations} (h : s.Relinked t) (h' : t.Relinked u) :
    s.Relinked u where
  status := h'.status.trans h.status
  npages := h'.npages.trans h.npages
  page := h'.page.trans h.page
  diskPage := h'.diskPage.trans h.diskPage
  toGn := h'.toGn.trans h.toGn
  prevToGn := h'.prevToGn.trans h.prevToGn
  isCollecting := h'.isCollecting.trans h.isCollecting
  isRecovering := h'.isRecovering.trans h.isRecovering
  majorGcWasStarted := h'.majorGcWasStarted.trans h.majorGcWasStarted

/-- A generation is copied to: the pages are new, and they are written in the end. -/
theorem Sound.copy {ages : List Nat} (h : s.Sound params.numberOfPages owned ages froms twice)
    (ha : s.ArraysSound none) (hlive : (s.status s.toGn).IsLive)
    (hempty : s.diskPage s.toGn = []) (hrecovering : s.isRecovering = false) (copied : CopiedPages) :
    Ends (Generations.newToPages copied.pages s)
      (fun t => s.SameCourse (finishGc copied.diskPages t) ∧
        (finishGc copied.diskPages t).status = s.status ∧
        (finishGc copied.diskPages t).Sound params.numberOfPages owned ages froms twice ∧
        (finishGc copied.diskPages t).ArraysSound none)
      (GcFailure.Excused owned) := by
  refine (h.newToPages hlive hrecovering copied.pages).imp fun t ⟨hfilled, htsound⟩ => ?_
  obtain ⟨diskPage, history, hfinish, hsound, harrays⟩ :=
    hfilled.finishGc htsound ha hlive hempty copied.diskPages
  rw [hfinish]
  refine ⟨?_, ?_, hsound, harrays⟩
  all_goals obtain ⟨_, _, _, _, _, _, rfl, -⟩ := hfilled
  · exact ⟨rfl, rfl, rfl, rfl, rfl, rfl⟩
  · rfl

/-- The generations `gns` have been chosen, and `to_gn` comes before them. -/
structure Chosen (params : GenerationParams) (owned : Prop) (s v : Generations)
    (pre gns marked post : List Nat) : Prop where
  sound : ∃ froms twice, v.Sound params.numberOfPages owned
    (phaseAges [] (pre ++ [v.toGn]) (gns ++ marked) post) froms twice
  arrays : v.ArraysSound none
  being : ∀ g, v.status g = .beingCollected ↔ g ∈ gns
  normal : ∀ g ∈ [] ++ ((pre ++ [v.toGn]) ++ post), v.status g = .normal
  toBeCollected : ∀ g ∈ marked, v.status g = .toBeCollected
  free : s.status v.toGn = .nonexistent
  live : ∀ {g}, (s.status g).IsLive → (v.status g).IsLive
  page : v.page = Function.update s.page v.toGn []
  diskPage : v.diskPage v.toGn = []
  toPn : v.toPn = none
  youngestGn : ∀ bs, v.youngestGn = (pre ++ [v.toGn] ++ bs).headD invalidGenerationNumber
  isRecovering : v.isRecovering = s.isRecovering
  isCollecting : v.isCollecting = s.isCollecting
  ne_nil : gns ≠ []
  length_le : gns.length ≤ 0xFFF
  fits : gns.length = 1 ∨
    params.fitsMatureGeneration (gns.foldl (fun n g => n + v.npages g) 0) = true

theorem Chosen.normal_toGn {v : Generations} {gns : List Nat}
    (h : s.Chosen params owned v pre gns marked post) : v.status v.toGn = .normal :=
  h.normal _ (by simp)

theorem Chosen.marked_iff {v : Generations} {gns : List Nat}
    (h : s.Chosen params owned v pre gns marked post) :
    v.status gn = .toBeCollected ↔ gn ∈ marked := by
  refine ⟨fun hgn => ?_, h.toBeCollected gn⟩
  obtain ⟨_, _, hsound⟩ := h.sound
  have hmem := hsound.ages.marked hgn
  simp only [phaseAges, List.nil_append, List.mem_append] at hmem
  rcases hmem with hmem | (hmem | hmem) | hmem
  · have hnormal := h.normal gn (by simp only [List.mem_append]; tauto)
    simp [hgn] at hnormal
  · have hbeing := (h.being gn).mpr hmem
    simp [hgn] at hbeing
  · exact hmem
  · have hnormal := h.normal gn (by simp only [List.mem_append]; tauto)
    simp [hgn] at hnormal

/-- The generations to collect are the first ones of the marked ones. -/
theorem Steady.choose {m : Nat} {ms : List Nat} {t : Generations} {froms' : Nat → List Nat}
    {twice' : List Nat} (h : Steady params.numberOfPages owned s [] pre (m :: ms) post)
    (hyoungest : s.youngestGn = (pre ++ (m :: ms ++ post)).headD invalidGenerationNumber)
    (htaken : s.Taken t 0)
    (ht : t.Sound params.numberOfPages owned (phaseAges [] pre (m :: ms) post) froms' twice') :
    ∃ gns marked v, m :: ms = gns ++ marked ∧
      chooseGenerations params (0xFFF - 1) m 0 0
        (t.insertGenerationAfter (t.younger m)).startGc = .ok (gns.length, v) ∧
      s.Chosen params owned v pre gns marked post := by
  obtain ⟨⟨_, _, hsound⟩, harrays, hphase⟩ := h
  have hkeep : ∀ {g}, g ∈ phaseAges [] pre (m :: ms) post → t.status g = s.status g := fun hg =>
    htaken.keep (hsound.ages.live _ hg).ne_nonexistent
  have hfresh : t.toGn ∉ phaseAges [] pre (m :: ms) post := fun hmem =>
    (hsound.ages.live _ hmem).ne_nonexistent htaken.free
  obtain ⟨hrelinked, husound, huyoungest⟩ :=
    ht.insertStep hfresh htaken.normal (htaken.youngestGn.trans hyoungest) fun _ => rfl
  -- the state before choosing
  obtain ⟨u, hu⟩ : ∃ u, u = (t.insertGenerationAfter (t.younger m)).startGc := ⟨_, rfl⟩
  have hut : t.Relinked u := hu ▸ hrelinked.trans (relinked_startGc _)
  have husound : u.Sound params.numberOfPages owned ((pre ++ [t.toGn]) ++ m :: (ms ++ post))
      froms' twice' := hu ▸ husound.startGc
  have huyoungest : ∀ bs, u.youngestGn = (pre ++ [t.toGn] ++ bs).headD invalidGenerationNumber :=
    hu ▸ huyoungest
  have hutoPn : u.toPn = none := by rw [hu]; rfl
  rw [← hu]
  clear hu
  have hstatus : u.status m = .toBeCollected := by
    rw [hut.status, hkeep (by simp [phaseAges])]
    exact hphase.toBeCollected m List.mem_cons_self
  obtain ⟨gns, rest, v, froms, hsplit, hne, hrun, hbegun, hvsound, hlength, hfits⟩ :=
    husound.chooseGenerations (by rw [hut.toGn, hut.status, htaken.normal]) hstatus (0xFFF - 1) 0 0
  have hunormal : ∀ g ∈ [] ++ ((pre ++ [t.toGn]) ++ post), u.status g = .normal := by
    intro g hg
    rw [hut.status]
    simp only [List.nil_append, List.mem_append, List.mem_singleton] at hg
    by_cases heq : g = t.toGn
    · rw [heq, htaken.normal]
    · have hmem : g ∈ pre ++ post := by simpa [heq] using hg
      rw [hkeep (by simp only [phaseAges, List.mem_append] at hmem ⊢; tauto)]
      exact hphase.normal g hmem
  have humarked : ∀ g ∈ m :: ms, u.status g = .toBeCollected := by
    intro g hg
    rw [hut.status, hkeep (by simp only [phaseAges, List.mem_append]; tauto)]
    exact hphase.toBeCollected g hg
  obtain ⟨marked', hmarked, hvbeing, hvnormal, hvmarked⟩ :=
    hbegun.phase (hut.status ▸ htaken.idle hphase.idle) hunormal humarked
      hsound.ages.nodup.of_append_right.of_append_right.of_append_left hsplit
  have hvto : v.toGn = t.toGn := hbegun.course.1.toGn.trans hut.toGn
  have hages : (pre ++ [t.toGn]) ++ m :: (ms ++ post) =
      phaseAges [] (pre ++ [v.toGn]) (gns ++ marked') post := by
    rw [← hmarked, hvto]
    simp [phaseAges]
  rw [hages] at hvsound
  have hlive : ∀ {g}, (s.status g).IsLive → (v.status g).IsLive := by
    intro g hg
    by_cases hmem : g ∈ gns
    · simp [(hvbeing g).mpr hmem]
    · rwa [hbegun.keep hmem, hut.status, htaken.keep hg.ne_nonexistent]
  refine ⟨gns, marked', v, hmarked, by rw [hrun, Nat.zero_add], ?_⟩
  exact {
    sound := ⟨_, _, hvsound⟩
    arrays := hbegun.arrays (hut.arrays (htaken.arrays harrays))
    being := hvbeing
    normal := by rwa [hvto]
    toBeCollected := hvmarked
    free := hvto ▸ htaken.free
    live := hlive
    page := by
      obtain ⟨_, _, _, _, rfl, -, -⟩ := hbegun
      rw [hut.page, htaken.page, hvto]
    diskPage := by rw [hvto, hbegun.course.2, hut.diskPage, htaken.diskPage, Function.update_self]
    toPn := by
      obtain ⟨_, _, _, _, rfl, -, -⟩ := hbegun
      exact hutoPn
    youngestGn := by rwa [hbegun.course.1.youngestGn, hvto]
    isRecovering := by rw [hbegun.course.1.isRecovering, hut.isRecovering, htaken.isRecovering]
    isCollecting := by rw [hbegun.course.1.isCollecting, hut.isCollecting, htaken.isCollecting]
    ne_nil := hne
    length_le := hlength
    fits := by
      obtain ⟨_, _, _, _, rfl, -, -⟩ := hbegun
      exact hfits }

/-- The generations that were chosen have been copied. -/
theorem Chosen.finish {v x : Generations} {gns : List Nat}
    (h : s.Chosen params owned v pre gns marked post) (hcourse : v.SameCourse x)
    (hstatus : x.status = v.status) (harrays : x.ArraysSound none)
    (hsound : x.Sound params.numberOfPages owned (phaseAges [] (pre ++ [v.toGn]) (gns ++ marked) post)
      froms twice) (hcollecting : s.isCollecting = true) :
    Ends (markCollectedOnce gns.length ((gns ++ (marked ++ post)).headD invalidGenerationNumber) x)
      (fun t => ∀ effort ≠ 0, ∃ effortStep u, t.peekAhead effort = (effortStep, u) ∧
        Steady params.numberOfPages owned (stopIfFinished effortStep u) [] (pre ++ [v.toGn])
          marked post ∧
        (stopIfFinished effortStep u).youngestGn =
          (pre ++ [v.toGn] ++ (marked ++ post)).headD invalidGenerationNumber ∧
        (stopIfFinished effortStep u).isRecovering = s.isRecovering ∧
        ∀ g ∉ gns, (stopIfFinished effortStep u).page g = x.page g)
      (GcFailure.Excused owned) := by
  rw [← hcourse.toGn] at hsound
  have hstep := hsound.finishStep harrays (by rw [hstatus]; exact h.being)
    (by rw [hstatus, hcourse.toGn]; exact h.normal) (by rw [hstatus]; exact h.toBeCollected)
    (by rw [hcourse.isCollecting, h.isCollecting, hcollecting])
  refine hstep.imp fun t ht effort heffort => ?_
  obtain ⟨effortStep, u, hpeek, hsteady, hyoungest, hrecovering, -, hpage⟩ := ht effort heffort
  refine ⟨effortStep, u, hpeek, hcourse.toGn ▸ hsteady, ?_, ?_, hpage⟩
  · rw [hyoungest, hcourse.youngestGn, h.youngestGn]
  · rw [hrecovering, hcourse.isRecovering, h.isRecovering]

/-- After choosing, the cells are copied, and the generations are collected once. -/
theorem Steady.majorGcStep (h : Steady params.numberOfPages owned s [] pre marked post)
    (hyoungest : s.youngestGn = (pre ++ (marked ++ post)).headD invalidGenerationNumber)
    (hcollecting : s.isCollecting = true) (hrecovering : s.isRecovering = false)
    (copied : CopiedPages) :
    Ends (majorGcStep params copied s)
      (fun r => ∃ gn marked', Steady params.numberOfPages owned (stopIfFinished r.1 r.2) []
          (pre ++ [gn]) marked' post ∧
        (stopIfFinished r.1 r.2).youngestGn =
          (pre ++ [gn] ++ (marked' ++ post)).headD invalidGenerationNumber ∧
        (stopIfFinished r.1 r.2).isRecovering = false)
      (GcFailure.Excused owned) := by
  obtain ⟨⟨froms, twice, hsound⟩, harrays, hphase⟩ := h
  obtain ⟨m, ms, rfl⟩ := List.exists_cons_of_ne_nil (hphase.isCollecting.mp hcollecting)
  unfold Generations.majorGcStep
  rw [hsound.firstFromGn_eq hphase hyoungest, ends_ok_bind]
  refine (hsound.allocate hphase.idle).bind fun t ⟨htaken, htsound⟩ => ?_
  obtain ⟨gns, marked', v, hmarked, hrun, hchosen⟩ :=
    Steady.choose ⟨⟨froms, twice, hsound⟩, harrays, hphase⟩ hyoungest htaken htsound
  dsimp only
  rw [hrun, ends_ok_bind]
  obtain ⟨vfroms, vtwice, hvsound⟩ := hchosen.sound
  refine (hvsound.copy hchosen.arrays (hchosen.normal_toGn ▸ isLive_normal) hchosen.diskPage
    (hchosen.isRecovering.trans hrecovering) copied).bind
      fun w ⟨hcourse, hwstatus, hwsound, hwarrays⟩ => ?_
  have hm : (gns ++ (marked' ++ post)).headD invalidGenerationNumber = m := by
    rw [← List.append_assoc, ← hmarked]
    rfl
  have hfinish := hchosen.finish hcourse hwstatus hwarrays hwsound hcollecting
  rw [hm] at hfinish
  refine hfinish.bind fun y hy => ?_
  obtain ⟨effortStep, z, hpeek, hsteady, hyoungest', hrecovering', -⟩ :=
    hy (y.npages y.toGn + 1) (Nat.succ_ne_zero _)
  rw [hpeek]
  exact ⟨v.toGn, marked', hsteady, hyoungest', hrecovering'.trans hrecovering⟩

/-! ## commits -/

/-- What holds between commits. -/
def Ready (numberOfPages : Nat) (owned : Prop) (s : Generations) : Prop :=
  ∃ pre marked post, Steady numberOfPages owned s [] pre marked post ∧
    s.youngestGn = (pre ++ (marked ++ post)).headD invalidGenerationNumber ∧
    s.isRecovering = false

/-- There is a generation, and the statuses are those between steps. -/
def Running (numberOfPages : Nat) (owned : Prop) (s : Generations) : Prop :=
  Ready numberOfPages owned s ∧ s.youngestGn ≠ invalidGenerationNumber

/-- A mature collection begins with all generations up to some age. -/
theorem Steady.mark (h : Steady params.numberOfPages owned s [] pre marked post)
    (hhead : s.youngestGn = (pre ++ (marked ++ post)).headD invalidGenerationNumber)
    (hyoungest : s.youngestGn ≠ invalidGenerationNumber) (hcollecting : s.isCollecting = false)
    (shrinks : Nat → Bool) :
    Ends (markMajorGcGenerations params shrinks s)
      (fun t => ∃ ms rest, marked = [] ∧ phaseAges [] pre marked post = ms ++ rest ∧
        t.page = s.page ∧ t.youngestGn = s.youngestGn ∧ t.isRecovering = s.isRecovering ∧
        Steady params.numberOfPages owned { t with isCollecting := true } [] [] ms rest)
      (GcFailure.Excused owned) := by
  obtain ⟨⟨froms, twice, hsound⟩, harrays, hphase⟩ := h
  have hnil : marked = [] := by
    by_contra hne
    simp [hphase.isCollecting.mpr hne] at hcollecting
  subst hnil
  have hnormal : ∀ g ∈ pre ++ post, s.status g = .normal := fun g hg =>
    hphase.normal g (by simpa using hg)
  have hprev : s.prevToGn = invalidGenerationNumber :=
    hphase.prevToGn.resolve_right fun hprev => hprev.1 rfl
  have hsound : s.Sound params.numberOfPages owned ([] ++ (pre ++ post)) froms twice := hsound
  have hhead : s.youngestGn = (pre ++ post).headD invalidGenerationNumber := hhead
  unfold markMajorGcGenerations
  rw [hhead]
  refine Ends.bind ((hsound.mark _ (Nat.lt_succ_of_le
    (hsound.ages.length_le hsound.table.inside))).mono (fun t ht => ht) ?_) ?_
  · rintro e ⟨-, g, hg, hnot⟩
    exact absurd (hnormal g hg) hnot
  · rintro t ⟨ms, rest, status, history, hsplit, rfl, htsound, hin, hout, hstop⟩
    -- the youngest one is marked in any case
    have hne : ms ≠ [] := by
      rintro rfl
      cases rest with
      | nil => exact hyoungest (by rw [hhead, hsplit]; rfl)
      | cons g rest => simpa using hstop g rfl
    have hrest : ∀ g ∈ rest, status g = .normal := by
      intro g hg
      have hnodup := hsound.ages.nodup
      rw [List.nil_append, hsplit] at hnodup
      rw [hout g fun hmem => (List.nodup_append.mp hnodup).2.2 g hmem g hg rfl]
      exact hnormal g (hsplit ▸ List.mem_append_right _ hg)
    refine ⟨ms, rest, rfl, hsplit, rfl, hhead, rfl, ⟨froms, twice, ?_⟩, ?_, ?_⟩
    · rw [hsplit] at htsound
      exact { htsound with }
    · have hmark : ArraysSound { s with status := status, history := history } none :=
        harrays.mark hin hout
      exact { hmark with }
    · exact {
        normal := hrest
        toBeCollected := fun g hg => (hin g hg).2
        prevToGn := .inl hprev
        isCollecting := by simp [hne]
        idle := fun g hg => by
          by_cases hmem : g ∈ ms
          · simp [(hin g hmem).2] at hg
          · exact hphase.idle g (hout g hmem ▸ hg) }

theorem Running.mark (h : Running params.numberOfPages owned s)
    (hcollecting : s.isCollecting = false) (shrinks : Nat → Bool) :
    Ends (markMajorGcGenerations params shrinks s)
      (fun t => Running params.numberOfPages owned { t with isCollecting := true })
      (GcFailure.Excused owned) := by
  obtain ⟨⟨pre, marked, post, hsteady, hhead, hrecovering⟩, hyoungest⟩ := h
  refine (hsteady.mark hhead hyoungest hcollecting shrinks).imp ?_
  rintro t ⟨ms, rest, rfl, hsplit, -, hyoungest', hrecovering', hmarked⟩
  refine ⟨⟨[], ms, rest, hmarked, ?_, hrecovering'.trans hrecovering⟩, ?_⟩
  · rw [List.nil_append, ← hsplit]
    exact hyoungest'.trans hhead
  · exact hyoungest' ▸ hyoungest

theorem Running.majorGcStep (h : Running params.numberOfPages owned s)
    (hcollecting : s.isCollecting = true) (copied : CopiedPages) :
    Ends (majorGcStep params copied s)
      (fun r => Running params.numberOfPages owned (stopIfFinished r.1 r.2))
      (GcFailure.Excused owned) := by
  obtain ⟨⟨pre, marked, post, hsteady, hyoungest, hrecovering⟩, -⟩ := h
  refine (hsteady.majorGcStep hyoungest hcollecting hrecovering copied).imp ?_
  rintro r ⟨gn, marked', hsteady', hyoungest', hrecovering'⟩
  refine ⟨⟨_, _, _, hsteady', hyoungest', hrecovering'⟩, ?_⟩
  obtain ⟨⟨froms, twice, hsound⟩, -, -⟩ := hsteady'
  rw [hyoungest']
  cases pre with
  | nil => exact hsound.ages.linked.ne_stop (by simp [phaseAges])
  | cons g pre => exact hsound.ages.linked.ne_stop (by simp [phaseAges])

/-- However many steps there are in one commit. -/
theorem Running.majorGcLoop (h : Running params.numberOfPages owned s) (shrinks : Nat → Bool)
    (copied : CopiedPages) (more : List CopiedPages) :
    Ends (majorGcLoop params shrinks copied more s) (Running params.numberOfPages owned)
      (GcFailure.Excused owned) := by
  induction more generalizing s copied with
  | nil =>
    unfold Generations.majorGcLoop
    refine ends_ite (fun hnot => ?_) fun hcollecting => ?_
    · exact (h.mark (by simpa using hnot) shrinks).bind fun t ht => ht
    · exact (h.majorGcStep (by simpa using hcollecting) copied).bind fun r hr => hr
  | cons copied' more ih =>
    unfold Generations.majorGcLoop
    refine ends_ite (fun hnot => ?_) fun hcollecting => ?_
    · exact (h.mark (by simpa using hnot) shrinks).bind fun t ht => ht
    · refine (h.majorGcStep (by simpa using hcollecting) copied).bind fun r hr => ?_
      exact ends_ite (fun _ => ih hr copied') fun _ => hr

theorem Running.majorGc (h : Running params.numberOfPages owned s) (isIdle : Bool) (gc : MajorGc) :
    Ends (majorGc params isIdle gc s) (Running params.numberOfPages owned)
      (GcFailure.Excused owned) :=
  ends_ite (fun _ => h) fun _ => h.majorGcLoop gc.shrinks gc.copied gc.more

/-- A new generation is the youngest one. -/
theorem Phase.add {t w : Generations} (h : s.Phase [] pre marked post)
    (htaken : s.startGc.Taken t 0) (hstatus : w.status = t.status)
    (hcollecting : w.isCollecting = s.isCollecting) (hprev : w.prevToGn = s.prevToGn)
    {froms' : Nat → List Nat} {twice' : List Nat} (hwsound : w.Sound params.numberOfPages owned
      (phaseAges [] (t.toGn :: pre) marked post) froms' twice')
    (hwarrays : w.ArraysSound none) :
    Steady params.numberOfPages owned w [] (t.toGn :: pre) marked post := by
  have hold : ∀ {g st}, s.status g = st → st ≠ .nonexistent → w.status g = st := by
    rintro g st rfl hne
    rw [hstatus]
    exact htaken.keep hne
  exact ⟨⟨_, _, hwsound⟩, hwarrays, {
    normal := by
      intro g hg
      rcases List.mem_cons.mp hg with rfl | hg
      · rw [hstatus]
        exact htaken.normal
      · exact hold (h.normal g hg) (by decide)
    toBeCollected := fun g hg => hold (h.toBeCollected g hg) (by decide)
    prevToGn := by
      rw [hprev]
      refine h.prevToGn.imp_right fun ⟨hne, pre', hpre⟩ => ⟨hne, t.toGn :: pre', ?_⟩
      rw [hpre]
      rfl
    isCollecting := by rw [hcollecting, h.isCollecting]
    idle := fun g hg => htaken.idle h.idle g (hstatus ▸ hg) }⟩

/-- The survivors of the first generation are the youngest generation. -/
theorem Ready.collectFirstGeneration (h : Ready params.numberOfPages owned s) (copied : CopiedPages) :
    Ends (collectFirstGeneration params copied s) (Running params.numberOfPages owned)
      (GcFailure.Excused owned) := by
  obtain ⟨pre, marked, post, ⟨⟨froms, twice, hsound⟩, harrays, hphase⟩, hhead, hrecovering⟩ := h
  unfold Generations.collectFirstGeneration
  have hstart : s.startGc.Sound params.numberOfPages owned (phaseAges [] pre marked post) froms
      twice := hsound.startGc
  refine (hstart.allocate hphase.idle).bind fun t ⟨htaken, htsound⟩ => ?_
  have hkeep : ∀ {g}, s.status g ≠ .nonexistent → t.status g = s.status g := fun hg =>
    htaken.keep hg
  have hfresh : t.toGn ∉ phaseAges [] pre marked post := fun hmem =>
    (hsound.ages.live _ hmem).ne_nonexistent htaken.free
  have htsound : t.Sound params.numberOfPages owned ([] ++ phaseAges [] pre marked post)
      (Function.update froms t.toGn []) twice := htsound
  obtain ⟨younger, older, hrun, husound⟩ := htsound.insert hfresh htaken.normal
    fun _ => htaken.youngestGn.trans hhead
  rw [List.getLastD_nil] at hrun
  rw [hrun]
  simp only [if_true] at husound ⊢
  have hrecovering' : t.isRecovering = false := htaken.isRecovering.trans hrecovering
  have harrays' : t.ArraysSound none := htaken.arrays { harrays with }
  have hlive : (t.status t.toGn).IsLive := by simp [htaken.normal]
  have hempty : t.diskPage t.toGn = [] := by rw [htaken.diskPage, Function.update_self]
  refine (husound.copy { harrays' with } hlive hempty hrecovering' copied).bind
    fun w ⟨hcourse, hstatus, hwsound, hwarrays⟩ => ?_
  refine ⟨⟨t.toGn :: pre, marked, post, ?_, hcourse.youngestGn,
    hcourse.isRecovering.trans hrecovering'⟩, ?_⟩
  · exact hphase.add htaken hstatus (hcourse.isCollecting.trans htaken.isCollecting)
      (hcourse.prevToGn.trans htaken.prevToGn) hwsound hwarrays
  · rw [hcourse.youngestGn]
    exact hwsound.ages.linked.ne_stop List.mem_cons_self

/-- The entries of the generations that were collected twice are free again. -/
theorem Steady.markTwice (h : Steady params.numberOfPages owned s above pre marked post) :
    ∃ status count history, markTwiceCollectedGenerationsNonexistent s = .ok { s with
        status := status
        numberOfNonexistentGenerations := count
        generationsCollectedTwice := invalidGenerationNumber
        history := history } ∧
      (∀ {g}, s.status g ≠ .collectedTwice → status g = s.status g) ∧
      Steady params.numberOfPages owned
        { s with
          status := status
          numberOfNonexistentGenerations := count
          generationsCollectedTwice := invalidGenerationNumber
          history := history }
        above pre marked post := by
  obtain ⟨⟨froms, twice, hsound⟩, harrays, hphase⟩ := h
  have hlength : twice.length < s.numberOfGenerations + 1 := by
    have hsub : twice.toFinset ⊆ Finset.range s.numberOfGenerations := by
      intro g hg
      have hg := hsound.twice.collected g (List.mem_toFinset.mp hg)
      simpa using hsound.table.inside (by simp [hg])
    have hcard := Finset.card_le_card hsub
    rw [List.toFinset_card_of_nodup hsound.twice.linked.nodup, Finset.card_range] at hcard
    exact Nat.lt_succ_of_le hcard
  obtain ⟨status, count, history, hrun, hsound', hin, hout⟩ :=
    Sound.release (s := s) (p := s.generationsCollectedTwice) hsound harrays hlength
  have hkeep : ∀ {g}, s.status g ≠ .collectedTwice → status g = s.status g := fun hg =>
    hout _ fun hmem => hg (hsound.twice.collected _ hmem)
  have hback : ∀ {g}, status g ≠ .nonexistent → status g = s.status g := fun hg =>
    hout _ fun hmem => hg (hin _ hmem)
  refine ⟨status, count, history, ?_, hkeep, ⟨froms, [], hsound'⟩, ?_, ?_⟩
  · rw [markTwiceCollectedGenerationsNonexistent, hrun]
    rfl
  · exact {
      page := fun hg => harrays.page (hback hg.ne_nonexistent ▸ hg)
      diskPage := fun hg => harrays.diskPage (hback hg ▸ hg) }
  · have hold : ∀ {g st}, s.status g = st → st ≠ .collectedTwice → status g = st := by
      rintro g st rfl hne
      exact hkeep hne
    exact {
      normal := fun g hg => hold (hphase.normal g hg) (by decide)
      toBeCollected := fun g hg => hold (hphase.toBeCollected g hg) (by decide)
      prevToGn := hphase.prevToGn
      isCollecting := hphase.isCollecting
      idle := by
        intro g (hg : status g = .beingCollected)
        have hsame : status g = s.status g := hback (by simp [hg])
        exact hphase.idle g (hsame ▸ hg) }

theorem Running.finishMajorGcRound (h : Running params.numberOfPages owned s) :
    Ends s.finishMajorGcRound (Running params.numberOfPages owned) (GcFailure.Excused owned) := by
  refine ends_ite (fun _ => ?_) fun _ => h
  obtain ⟨⟨pre, marked, post, hsteady, hhead, hrecovering⟩, hyoungest⟩ := h
  have hsteady : Steady params.numberOfPages owned { s with majorGcWasStarted := false } [] pre
      marked post := by
    obtain ⟨⟨froms, twice, hsound⟩, harrays, hphase⟩ := hsteady
    exact ⟨⟨froms, twice, { hsound with }⟩, { harrays with }, { hphase with }⟩
  obtain ⟨status, count, history, hrun, -, hsteady'⟩ := hsteady.markTwice
  rw [hrun]
  exact ⟨⟨pre, marked, post, hsteady', hhead, hrecovering⟩, hyoungest⟩

/-- A commit. -/
theorem Ready.flushBatch (h : Ready params.numberOfPages owned s) (group : CommitGroup) :
    Ends (flushBatch params group s) (Ready params.numberOfPages owned)
      (GcFailure.Excused owned) := by
  refine ends_ite (fun _ => h) fun _ => ?_
  refine (h.collectFirstGeneration group.copied).bind fun t ht => ?_
  refine ht.finishMajorGcRound.bind fun u hu => ?_
  exact (hu.majorGc false group.majorGc).imp fun v hv => hv.1

/-! ## a new database -/

/-- Nothing has happened yet.  Only `page_info` is in any state. -/
structure Fresh (numberOfPages : Nat) (s : Generations) : Prop where
  table : TableSound s.numberOfGenerations s.allocateGn s.numberOfNonexistentGenerations s.status
  status : ∀ gn, s.status gn = .nonexistent
  generationsCollectedTwice : s.generationsCollectedTwice = invalidGenerationNumber
  youngestGn : s.youngestGn = invalidGenerationNumber
  prevToGn : s.prevToGn = invalidGenerationNumber
  isCollecting : s.isCollecting = false
  isRecovering : s.isRecovering = false
  history : s.history = []
  inside : ∀ pn, s.pageIsAllocated pn → pn < numberOfPages
  listOfFreePages : s.listOfFreePages = []

theorem initShades_spec (pageIsAllocated : Nat → Bool) (pageGeneration : Nat → Nat) :
    Ends (initShades params pageIsAllocated pageGeneration) (Fresh params.numberOfPages)
      (· = .outOfMemory) := by
  unfold initShades generationInfoGrow
  refine ends_ite (fun hle => ?_) fun _ => ?_
  · simp [initial] at hle
  · cases hrealloc : params.realloc ((32 + params.numberOfPages / 4) * sizeofGenerationInfo) with
    | none => exact rfl
    | some base =>
      have hsize := params.realloc_lt hrealloc
      exact {
        table := {
          pos := by simp
          le := by
            simp only [sizeofGenerationInfo, invalidGenerationNumber] at *
            omega
          cursor_lt := by simp [initial]
          inside := by simp [initial]
          count := by simp [initial] }
        status := by simp [initial]
        generationsCollectedTwice := rfl
        youngestGn := rfl
        prevToGn := rfl
        isCollecting := rfl
        isRecovering := rfl
        history := rfl
        inside := fun pn hpn => by simp [initial] at hpn; exact hpn.1
        listOfFreePages := rfl }

/-- Every page is free, whatever was in `page_info`. -/
theorem freeAllPages_spec (hpages : ∀ pn, s.pageIsAllocated pn → pn < params.numberOfPages)
    (hfree : s.listOfFreePages = []) :
    ∃ pageIsAllocated pageGeneration listOfFreePages numberOfFreePages,
      freeAllPages params s = .ok { s with
        pageIsAllocated := pageIsAllocated
        pageGeneration := pageGeneration
        listOfFreePages := listOfFreePages
        numberOfFreePages := numberOfFreePages } ∧
      (∀ pn, pageIsAllocated pn = false) ∧ listOfFreePages.Nodup ∧
      ∀ pn ∈ listOfFreePages, pn < params.numberOfPages := by
  suffices hloop : ∀ n, ∃ pageIsAllocated pageGeneration listOfFreePages numberOfFreePages,
      (List.range n).foldlM (fun s pn =>
          freePage { s with pageIsAllocated := Function.update s.pageIsAllocated pn true } pn) s =
        .ok { s with
          pageIsAllocated := pageIsAllocated
          pageGeneration := pageGeneration
          listOfFreePages := listOfFreePages
          numberOfFreePages := numberOfFreePages } ∧
      (∀ pn < n, pageIsAllocated pn = false) ∧
      (∀ pn, pageIsAllocated pn → pn < params.numberOfPages) ∧
      listOfFreePages.Nodup ∧ ∀ pn ∈ listOfFreePages, pn < n by
    obtain ⟨isAllocated, _, _, _, hrun, hdone, hlt, hnodup, hmem⟩ := hloop params.numberOfPages
    refine ⟨_, _, _, _, hrun, fun pn => ?_, hnodup, hmem⟩
    by_contra hpn
    have hpn : isAllocated pn = true := by simpa using hpn
    simp [hdone pn (hlt pn hpn)] at hpn
  intro n
  induction n with
  | zero => exact ⟨_, _, _, _, rfl, by simp, hpages, by simp [hfree], by simp [hfree]⟩
  | succ n ih =>
    obtain ⟨isAllocated, generation, free, count, hrun, hdone, hlt, hnodup, hmem⟩ := ih
    rw [List.range_succ, List.foldlM_append, hrun]
    refine ⟨Function.update isAllocated n false, Function.update generation n 0,
      if s.isRecovering then free else n :: free, count + 1, ?_, fun pn hpn => ?_, fun pn hpn => ?_,
      ?_, fun pn hpn => ?_⟩
    · simp [freePage, Function.update_idem]
      rfl
    · by_cases heq : pn = n
      · simp [heq]
      · rw [Function.update_of_ne heq]
        exact hdone pn (by omega)
    · by_cases heq : pn = n
      · simp [heq] at hpn
      · rw [Function.update_of_ne heq] at hpn
        exact hlt pn hpn
    · split
      · exact hnodup
      · exact List.nodup_cons.mpr ⟨fun hn => Nat.lt_irrefl n (hmem n hn), hnodup⟩
    · split at hpn
      · exact Nat.lt_succ_of_lt (hmem pn hpn)
      · rcases List.mem_cons.mp hpn with rfl | hpn
        · exact Nat.lt_succ_self _
        · exact Nat.lt_succ_of_lt (hmem pn hpn)

/-- The state after the pages have been freed. -/
theorem Fresh.freeAllPages (h : s.Fresh params.numberOfPages) {isRecovering : Bool}
    (howned : owned → isRecovering = false) (rvyDiskPage : Nat → Nat) :
    ∃ t, freeAllPages params { s with isRecovering := isRecovering, rvyDiskPage := rvyDiskPage } =
        .ok t ∧
      Steady params.numberOfPages owned t [] [] [] [] ∧
      t.youngestGn = invalidGenerationNumber ∧ t.isRecovering = isRecovering ∧
      ∀ gn, t.status gn = .nonexistent := by
  obtain ⟨isAllocated, generation, free, count, hrun, hnone, hnodup, hlt⟩ := freeAllPages_spec
    (s := { s with isRecovering := isRecovering, rvyDiskPage := rvyDiskPage }) h.inside
    h.listOfFreePages
  refine ⟨_, hrun, ⟨⟨fun _ => [], [], ?_⟩, ?_, ?_⟩, h.youngestGn, rfl, h.status⟩
  · exact {
      table := h.table
      ages := {
        linked := rfl
        live := by simp [phaseAges]
        marked := by simp [h.status] }
      froms := {
        linked := by simp [h.status]
        collected := by simp
        unique := by simp }
      twice := {
        linked := h.generationsCollectedTwice
        collected := by simp }
      pages := {
        refers := by simp [hnone]
        free := hlt
        allocated := by simp [h.status]
        nodup := by simp [h.status]
        freeNodup := fun _ => hnodup
        notAllocated := fun _ pn _ => hnone pn }
      history := {
        last := by simp [h.history, h.status, lastStatus]
        orderly := by simp [h.history, Orderly]
        kept := by simp [h.history, h.status, diskPagesGot, diskPagesFreed]
        created := fun ho => ⟨howned ho, by simp [h.history]⟩ } }
  · exact {
      page := by simp [h.status]
      diskPage := by simp [h.status] }
  · exact {
      normal := by simp
      toBeCollected := by simp
      prevToGn := .inl h.prevToGn
      isCollecting := by simp [h.isCollecting]
      idle := by simp [h.status] }

theorem Fresh.createDb (h : s.Fresh params.numberOfPages) (group : CommitGroup) :
    Ends (createDb params group s) (Ready params.numberOfPages True) (· = .outOfMemory) := by
  obtain ⟨t, hrun, hsteady, hyoungest, hrecovering, -⟩ :=
    h.freeAllPages (fun _ : True => h.isRecovering) s.rvyDiskPage
  unfold Generations.createDb
  rw [hrun]
  have hready : Ready params.numberOfPages True t :=
    ⟨[], [], [], hsteady, hyoungest, hrecovering.trans h.isRecovering⟩
  refine (hready.flushBatch group).mono (fun _ ht => ht) fun e he => ?_
  simpa [GcFailure.Excused] using he

end Generations

end Shades
