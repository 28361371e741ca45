import Shades.Gc.GenerationRuns
import Shades.Gc.HeapRuns

/-!
# Shades.Gc.Refinement

The generations of a memory in every run.

Copying cells does nothing to the generations but take new pages.  So the functions on the
memory refine those on generations, where what is copied is only a number of pages, and what
holds of the generations in every run holds of those of a memory.
-/

namespace Shades

theorem Generations.newToPages_add (m n : Nat) (s : Generations) :
    newToPages (m + n) s = newToPages m s >>= newToPages n := by
  induction m generalizing s with
  | zero => rw [Nat.zero_add]; rfl
  | succ m ih =>
    rw [Nat.succ_add, newToPages, newToPages]
    cases s.newToPage with
    | ok t => exact ih t
    | error e => rfl

namespace Heap

variable {params : HeapParams} {s t u : Heap}

/-! ## copying -/

/-- Nothing but taking new pages has happened to the generations. -/
def TookPages (s t : Heap) : Prop := ∃ pages, Generations.newToPages pages s.gens = .ok t.gens

theorem TookPages.of_gens (h : t.gens = s.gens) : TookPages s t := ⟨0, congrArg Except.ok h.symm⟩

theorem TookPages.refl (s : Heap) : TookPages s s := .of_gens rfl

theorem TookPages.trans (h : TookPages s t) (h' : TookPages t u) : TookPages s u := by
  obtain ⟨m, hm⟩ := h
  obtain ⟨n, hn⟩ := h'
  exact ⟨m + n, by rw [Generations.newToPages_add, hm]; exact hn⟩

/-- A loop each step of which only takes pages. -/
theorem foldlM_tookPages {α : Type} {f : Heap → α → Except HeapFailure Heap}
    (hf : ∀ t a, Ends (f t a) (TookPages t) fun _ => True) (as : List α) (s : Heap) :
    Ends (as.foldlM f s) (TookPages s) fun _ => True :=
  ends_foldlM (I := fun _ => TookPages s) (fun a _ t ht => (hf t a).imp fun _ => ht.trans) (.refl s)

theorem withGens_gens (s : Heap) (gens : Except GcFailure Generations) :
    Ends (s.withGens gens) (fun t => gens = .ok t.gens) fun _ => True := by
  cases gens with
  | ok g => rfl
  | error e => trivial

theorem setNumberOfWordsInUse_gens (s : Heap) :
    Ends (s.setNumberOfWordsInUse params) (fun t => t.gens = s.gens) fun _ => True := by
  unfold setNumberOfWordsInUse
  cases s.gens.toPn with
  | none => rfl
  | some pn => exact ends_ite (fun _ => rfl) fun _ => trivial

theorem newToPage_tookPages (s : Heap) :
    Ends (s.newToPage params) (TookPages s) fun _ => True := by
  unfold newToPage
  refine s.setNumberOfWordsInUse_gens.bind fun t ht => ?_
  refine (t.withGens_gens _).bind fun u hu => ?_
  have htook : TookPages s u := ⟨1, by
    rw [Generations.newToPages, ← ht, hu]
    rfl⟩
  cases hpn : u.gens.toPn with
  | none => trivial
  | some pn => exact htook

theorem reserve_tookPages (n : Nat) (s : Heap) :
    Ends (s.reserve params n) (fun r => TookPages s r.2) fun _ => True := by
  unfold reserve
  refine Ends.bind (P := TookPages s) ?_ fun _ ht => ht
  exact ends_ite (fun _ => s.newToPage_tookPages) fun _ => .refl s

theorem copyField_tookPages (p newP : Nat) (s : Heap) (decl : Decl) :
    Ends (copyField p newP s decl) (TookPages s) fun _ => True := by
  have hpush : ∀ (c : Prop) [Decidable c] (a x : Nat),
      TookPages s (if c then (s.set a x).push a else s.set a x) := by
    intro c _ a x
    exact .of_gens (by split <;> rfl)
  cases decl with
  | abort => trivial
  | field type i =>
    cases type with
    | word | void => exact .refl s
    | ptr | tagged => exact hpush ..
    | nonnullPtr => exact ends_ite (fun _ => .of_gens rfl) fun _ => trivial

theorem copyFields_tookPages (p : Nat) (s : Heap) :
    Ends (s.copyFields params p) (fun r => TookPages s r.2) fun _ => True := by
  unfold copyFields
  refine (s.reserve_tookPages _).bind ?_
  rintro ⟨newP, t⟩ ht
  refine (foldlM_tookPages (copyField_tookPages _ newP) _ _).bind fun u hu => ?_
  exact ht.trans hu

theorem copyCell_tookPages (pp : Nat) (s : Heap) :
    Ends (s.copyCell params pp) (TookPages s) fun _ => True := by
  unfold copyCell
  refine ends_ite (fun _ => trivial) fun _ => ends_ite (fun _ => .of_gens rfl) fun _ => ?_
  refine (s.copyFields_tookPages _).bind ?_
  rintro ⟨newP, t⟩ ht
  exact ends_ite (fun _ => ht) fun _ => trivial

theorem drainSlot_tookPages (pp : Nat) (s : Heap) :
    Ends (s.drainSlot params pp) (TookPages s) fun _ => True := by
  unfold drainSlot
  refine ends_ite (fun _ => trivial) fun _ => ?_
  refine Ends.bind (P := fun _ => True) ?_ fun isFirst _ => ?_
  · exact ends_ite (fun _ => trivial) fun _ => trivial
  refine ends_ite (fun _ => s.copyCell_tookPages pp) fun _ => ?_
  split
  · exact .refl s
  · exact .of_gens rfl
  · exact s.copyCell_tookPages pp
  · trivial

theorem drainCopyStack_tookPages (turns : Nat) (s : Heap) :
    Ends (s.drainCopyStack params turns) (TookPages s) fun _ => True := by
  induction turns generalizing s with
  | zero => trivial
  | succ turns ih =>
    unfold drainCopyStack
    cases s.copyStack with
    | nil => exact .refl s
    | cons pp rest =>
      refine (drainSlot_tookPages pp _).bind fun t ht => ?_
      exact (ih t).imp fun _ => ht.trans

theorem scanRoot_tookPages (isFrom : Heap → Nat → Except HeapFailure Bool) (s : Heap) (pp : Nat) :
    Ends (s.scanRoot params isFrom pp) (TookPages s) fun _ => True := by
  unfold scanRoot
  refine ends_ite (fun _ => .refl s) fun _ => ?_
  refine Ends.bind (P := fun _ => True) ?_ fun from? _ => ?_
  · cases isFrom s (wordToPtr (s.words pp)) <;> trivial
  · exact ends_ite (fun _ => s.copyCell_tookPages pp) fun _ => .refl s

theorem scanRemSets_tookPages (n gn : Nat) (s : Heap) :
    Ends (s.scanRemSets params n gn) (TookPages s) fun _ => True := by
  induction n generalizing gn s with
  | zero => exact .refl s
  | succ n ih =>
    unfold scanRemSets
    refine (foldlM_tookPages (fun t pp => ?_) _ s).bind fun t ht => ?_
    · exact ends_ite (fun _ => t.copyCell_tookPages pp) fun _ => trivial
    · exact (ih _ _).imp fun _ => ht.trans

theorem finishGc_gens (diskPages : Nat → Nat) (s : Heap) :
    Ends (s.finishGc params diskPages)
      (fun t => t.gens = Generations.finishGc diskPages s.gens) fun _ => True := by
  unfold finishGc
  refine s.setNumberOfWordsInUse_gens.bind fun t ht => ?_
  exact congrArg (Generations.finishGc diskPages) ht

/-! ## the parts of a commit -/

theorem allocateGeneration_gens (s : Heap) :
    Ends (s.allocateGeneration params)
      (fun t => Generations.allocateGeneration params.toGenerationParams s.gens = .ok t.gens)
      fun _ => True :=
  (s.withGens_gens _).bind fun _ ht => ht

theorem collectFirstGeneration_refines (diskPages : Nat → Nat) (s : Heap) :
    Ends (s.collectFirstGeneration params diskPages)
      (fun r => ∃ pages, Generations.collectFirstGeneration params.toGenerationParams
        ⟨pages, diskPages⟩ s.gens = .ok r.2.gens) fun _ => True := by
  unfold collectFirstGeneration
  refine s.startGc.allocateGeneration_gens.bind fun t ht => ?_
  refine (foldlM_tookPages (scanRoot_tookPages _) _ _).bind fun u hu => ?_
  refine (u.drainCopyStack_tookPages _).bind fun v hv => ?_
  refine (v.finishGc_gens diskPages).bind fun w hw => ?_
  obtain ⟨pages, hpages⟩ := hu.trans hv
  have ht : Generations.allocateGeneration params.toGenerationParams s.gens.startGc =
    .ok t.gens := ht
  have hpages : Generations.newToPages pages
      (t.gens.insertGenerationAfter invalidGenerationNumber) = .ok v.gens := hpages
  refine ⟨pages, ?_⟩
  unfold Generations.collectFirstGeneration
  exact (bind_of_ok ht).trans ((bind_of_ok hpages).trans (congrArg Except.ok hw.symm))

theorem logToGenerationPinfoList_gens (fromGns ptrs : Nat) (s : Heap) :
    Ends (s.logToGenerationPinfoList params fromGns ptrs) (fun t => t.gens = s.gens)
      fun _ => True := by
  unfold logToGenerationPinfoList
  refine ends_ite (fun _ => ?_) fun _ => trivial
  dsimp only
  rw [setWords_eq]
  rfl

theorem cacheGenerationPinfoToRoot_gens (ptrs : Nat) (s : Heap) :
    Ends (s.cacheGenerationPinfoToRoot params ptrs) (fun t => t.gens = s.gens) fun _ => True := by
  unfold cacheGenerationPinfoToRoot
  refine ends_ite (fun _ => ?_) fun _ => trivial
  rw [setWords_eq]
  rfl

theorem majorGcStep_refines (diskPages : Nat → Nat) (s : Heap) :
    Ends (s.majorGcStep params diskPages)
      (fun r => ∃ pages, Generations.majorGcStep params.toGenerationParams ⟨pages, diskPages⟩
        s.gens = .ok (r.1, r.2.gens)) fun _ => True := by
  unfold majorGcStep
  cases hfirst : s.gens.firstFromGn with
  | error e => trivial
  | ok gn =>
    refine s.allocateGeneration_gens.bind fun t ht => ?_
    dsimp only
    split
    case h_1 => trivial
    case h_2 n g hchoose =>
      refine (scanRemSets_tookPages n gn _).bind fun u hu => ?_
      refine (foldlM_tookPages (scanRoot_tookPages _) _ _).bind fun v hv => ?_
      refine (v.drainCopyStack_tookPages _).bind fun w hw => ?_
      refine (w.finishGc_gens diskPages).bind fun x hx => ?_
      refine (x.logToGenerationPinfoList_gens n v.copyStack.length).bind fun y hy => ?_
      refine (y.withGens_gens _).bind fun z hz => ?_
      obtain ⟨pages, hpages⟩ := (hu.trans hv).trans hw
      rw [hy, hx] at hz
      refine ⟨pages, ?_⟩
      unfold Generations.majorGcStep
      exact (bind_of_ok hfirst).trans <| (bind_of_ok ht).trans <| (bind_of_ok hchoose).trans <|
        (bind_of_ok hpages).trans (bind_of_ok hz)

theorem mark_refines (shrinks : Nat → Bool) (s : Heap) :
    Ends (s.withGens (Generations.markMajorGcGenerations params.toGenerationParams shrinks
        s.gens) >>= fun t => .ok { t with gens := { t.gens with isCollecting := true } })
      (fun t => (Generations.markMajorGcGenerations params.toGenerationParams shrinks s.gens >>=
        fun g => .ok { g with isCollecting := true }) = .ok t.gens) fun _ => True :=
  (s.withGens_gens _).bind fun _ ht => bind_of_ok ht

theorem majorGcLoop_refines (shrinks : Nat → Bool) (diskPages : Nat → Nat)
    (more : List (Nat → Nat)) (s : Heap) :
    Ends (s.majorGcLoop params shrinks diskPages more)
      (fun t => ∃ copied moreCopied, Generations.majorGcLoop params.toGenerationParams shrinks
        copied moreCopied s.gens = .ok t.gens) fun _ => True := by
  induction more generalizing diskPages s with
  | nil =>
    unfold majorGcLoop
    refine ends_ite (fun hnot => ?_) fun hcollecting => ?_
    · exact (mark_refines shrinks s).imp fun t ht => ⟨⟨0, diskPages⟩, [], (if_pos hnot).trans ht⟩
    · refine (s.majorGcStep_refines diskPages).bind ?_
      rintro ⟨effort, t⟩ ⟨pages, hstep⟩
      exact ⟨⟨pages, diskPages⟩, [], (if_neg hcollecting).trans (bind_of_ok hstep)⟩
  | cons diskPages' more ih =>
    unfold majorGcLoop
    refine ends_ite (fun hnot => ?_) fun hcollecting => ?_
    · exact (mark_refines shrinks s).imp fun t ht => ⟨⟨0, diskPages⟩, [], (if_pos hnot).trans ht⟩
    · refine (s.majorGcStep_refines diskPages).bind ?_
      rintro ⟨effort, t⟩ ⟨pages, hstep⟩
      refine ends_ite (fun hshort => ?_) fun _ => ?_
      · refine (ih diskPages' _).imp ?_
        rintro u ⟨copied, moreCopied, hloop⟩
        exact ⟨⟨pages, diskPages⟩, copied :: moreCopied,
          (if_neg hcollecting).trans ((bind_of_ok hstep).trans ((if_pos hshort).trans hloop))⟩
      · -- there is enough memory again
        exact ⟨⟨pages, diskPages⟩, [], (if_neg hcollecting).trans (bind_of_ok hstep)⟩

theorem majorGc_refines (group : HeapGroup) (s : Heap) :
    Ends (s.majorGc params group)
      (fun t => ∃ gc, Generations.majorGc params.toGenerationParams false gc s.gens = .ok t.gens)
      fun _ => True := by
  unfold majorGc
  refine ends_ite (fun hno => ?_) fun hgc => ?_
  · exact ⟨⟨group.shrinks, ⟨0, group.stepDiskPages⟩, []⟩, if_pos hno⟩
  · refine (s.majorGcLoop_refines group.shrinks group.stepDiskPages group.more).imp ?_
    rintro t ⟨copied, more, hloop⟩
    exact ⟨⟨group.shrinks, copied, more⟩, (if_neg hgc).trans hloop⟩

theorem finishMajorGcRound_refines (s : Heap) :
    Ends (s.finishMajorGcRound params) (fun t => s.gens.finishMajorGcRound = .ok t.gens)
      fun _ => True := by
  unfold finishMajorGcRound
  exact ends_ite (fun _ => (s.withGens_gens _).bind fun _ ht => ht) fun hnot => if_neg hnot

theorem flushBatch_refines (group : HeapGroup) (s : Heap) :
    Ends (s.flushBatch params group)
      (fun t => ∃ g, Generations.flushBatch params.toGenerationParams g s.gens = .ok t.gens)
      fun _ => True := by
  unfold flushBatch
  refine ends_ite (fun _ => ?_) fun _ => ?_
  · exact ⟨⟨false, ⟨0, group.diskPages⟩, ⟨group.shrinks, ⟨0, group.stepDiskPages⟩, []⟩⟩, rfl⟩
  refine (collectFirstGeneration_refines group.diskPages _).bind ?_
  rintro ⟨ptrs, t⟩ ⟨pages, hcollect⟩
  refine (t.cacheGenerationPinfoToRoot_gens ptrs).bind fun u hu => ?_
  refine (finishMajorGcRound_refines _).bind fun v hv => ?_
  refine (v.logToGenerationPinfoList_gens 0 ptrs).bind fun w hw => ?_
  refine (w.majorGc_refines group).imp ?_
  rintro x ⟨gc, hgc⟩
  have hfinish : t.gens.finishMajorGcRound = .ok w.gens := by
    rw [hw, ← hu]
    exact hv
  refine ⟨⟨true, ⟨pages, group.diskPages⟩, gc⟩, ?_⟩
  exact (bind_of_ok hcollect).trans ((bind_of_ok hfinish).trans hgc)

/-! ## runs -/

theorem initShades_gens {isAllocated : Nat → Bool} {generation words : Nat → Nat}
    (h : initShades params isAllocated generation words = .ok s) :
    Generations.initShades params.toGenerationParams isAllocated generation = .ok s.gens := by
  unfold initShades at h
  split at h
  case h_1 => cases h
  case h_2 g hg =>
    obtain rfl := Except.ok.inj h
    exact hg

theorem createDb_refines (group : HeapGroup) (s : Heap) :
    Ends (s.createDb params group)
      (fun t => ∃ g, Generations.createDb params.toGenerationParams g s.gens = .ok t.gens)
      fun _ => True := by
  unfold createDb
  refine (s.withGens_gens _).bind fun t ht => (t.flushBatch_refines group).imp ?_
  rintro u ⟨g, hg⟩
  exact ⟨g, (bind_of_ok ht).trans hg⟩

theorem HeapRun.generationRun (h : HeapRun params s) :
    GenerationRun params.toGenerationParams false .between s.gens := by
  induction h with
  | created hinit hcreate =>
    obtain ⟨_, hg⟩ := (createDb_refines _ _).of_ok hcreate
    exact .created (initShades_gens hinit) hg
  | mutated _ hmutated ih => exact hmutated.gens ▸ ih
  | flushed _ hflush ih =>
    obtain ⟨_, hg⟩ := (flushBatch_refines _ _).of_ok hflush
    exact .flushed ih hg

/-- The memory refines the generations: its runs are runs of them, commit by commit. -/
theorem heapRun_refines (h : HeapRun params s) :
    GenerationRun params.toGenerationParams false .between s.gens ∧
      s.gens.InStep params.toGenerationParams ∧
      ∀ group t, s.flushBatch params group = .ok t →
        ∃ g, Generations.flushBatch params.toGenerationParams g s.gens = .ok t.gens :=
  ⟨h.generationRun, h.generationRun.sound.1.inStep, fun group _ hflush =>
    (s.flushBatch_refines group).of_ok hflush⟩

theorem heapRun_refines_fourCommits : ∃ s, HeapRun smallHeap s ∧ s.gens.youngestGn = 4 ∧
    s.gens.status 0 = .collectedTwice ∧
      GenerationRun smallHeap.toGenerationParams false .between s.gens ∧
      s.gens.InStep smallHeap.toGenerationParams := by
  obtain ⟨s, hrun, hyoungest, hstatus⟩ := smallHeap_fourCommits
  obtain ⟨hgenerations, hinStep, -⟩ := heapRun_refines hrun
  exact ⟨s, hrun, hyoungest, (List.cons.inj hstatus).1, hgenerations, hinStep⟩

end Heap

end Shades
