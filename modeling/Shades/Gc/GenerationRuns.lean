import Shades.Gc.RecoverySteps

/-!
# Shades.Gc.GenerationRuns

What holds of the generations in every run.

A run begins with a database that is created or recovered, and goes on with
commits.  Its states are those between the commits, and inside of them those
between the parts that the commits consist of.
-/

namespace Shades

open Generations

/-! ## runs -/

inductive CommitPoint where
  | between
  | inside
  deriving DecidableEq

inductive GenerationRun (params : GenerationParams) : Bool → CommitPoint → Generations → Prop
  | created {isAllocated : Nat → Bool} {generation : Nat → Nat} {group : CommitGroup}
      {s t : Generations} (hinit : initShades params isAllocated generation = .ok s)
      (hcreate : createDb params group s = .ok t) : GenerationRun params false .between t
  | recovered {isAllocated : Nat → Bool} {generation : Nat → Nat} {image : RecoveryImage}
      {gc : MajorGc} {s t : Generations}
      (hinit : initShades params isAllocated generation = .ok s)
      (hrecover : recoverDb params image gc s = .ok t) : GenerationRun params true .between t
  | flushed {isRecovered : Bool} {group : CommitGroup} {s t : Generations}
      (hrun : GenerationRun params isRecovered .between s)
      (hflush : flushBatch params group s = .ok t) : GenerationRun params isRecovered .between t
  | collected {isRecovered : Bool} {copied : CopiedPages} {s t : Generations}
      (hrun : GenerationRun params isRecovered .between s)
      (hcollect : collectFirstGeneration params copied s = .ok t) :
      GenerationRun params isRecovered .inside t
  | finished {isRecovered : Bool} {s t : Generations}
      (hrun : GenerationRun params isRecovered .inside s)
      (hfinish : s.finishMajorGcRound = .ok t) : GenerationRun params isRecovered .inside t
  | marked {isRecovered : Bool} {shrinks : Nat → Bool} {s t : Generations}
      (hrun : GenerationRun params isRecovered .inside s) (hcollecting : s.isCollecting = false)
      (hmark : markMajorGcGenerations params shrinks s = .ok t) :
      GenerationRun params isRecovered .inside { t with isCollecting := true }
  | stepped {isRecovered : Bool} {copied : CopiedPages} {effortStep : Nat} {s t : Generations}
      (hrun : GenerationRun params isRecovered .inside s) (hcollecting : s.isCollecting = true)
      (hstep : majorGcStep params copied s = .ok (effortStep, t)) :
      GenerationRun params isRecovered .inside (stopIfFinished effortStep t)

variable {params : GenerationParams} {isRecovered : Bool} {point : CommitPoint} {s : Generations}

/-- The invariant: inside a commit there is a generation, too. -/
theorem GenerationRun.sound (h : GenerationRun params isRecovered point s) :
    Ready params.numberOfPages (isRecovered = false) s ∧
      (point = .inside → s.youngestGn ≠ invalidGenerationNumber) := by
  induction h with
  | created hinit hcreate =>
    have hfresh := (initShades_spec _ _).of_ok hinit
    rw [eq_true (rfl : false = false)]
    exact ⟨(hfresh.createDb _).of_ok hcreate, by simp⟩
  | recovered hinit hrecover =>
    have hfresh := (initShades_spec _ _).of_ok hinit
    rw [eq_false (by decide : true ≠ false)]
    exact ⟨(hfresh.recoverDb _ _).of_ok hrecover, by simp⟩
  | flushed hrun hflush ih => exact ⟨(ih.1.flushBatch _).of_ok hflush, by simp⟩
  | collected hrun hcollect ih =>
    obtain ⟨hready, hyoungest⟩ := (ih.1.collectFirstGeneration _).of_ok hcollect
    exact ⟨hready, fun _ => hyoungest⟩
  | finished hrun hfinish ih =>
    have hrunning : Running params.numberOfPages _ _ := ⟨ih.1, ih.2 rfl⟩
    obtain ⟨hready, hyoungest⟩ := hrunning.finishMajorGcRound.of_ok hfinish
    exact ⟨hready, fun _ => hyoungest⟩
  | marked hrun hcollecting hmark ih =>
    have hrunning : Running params.numberOfPages _ _ := ⟨ih.1, ih.2 rfl⟩
    obtain ⟨hready, hyoungest⟩ := (hrunning.mark hcollecting _).of_ok hmark
    exact ⟨hready, fun _ => hyoungest⟩
  | stepped hrun hcollecting hstep ih =>
    have hrunning : Running params.numberOfPages _ _ := ⟨ih.1, ih.2 rfl⟩
    obtain ⟨hready, hyoungest⟩ := (hrunning.majorGcStep hcollecting _).of_ok hstep
    exact ⟨hready, fun _ => hyoungest⟩

/-- However many commits there are. -/
theorem GenerationRun.flushAll (h : GenerationRun params isRecovered .between s)
    {groups : List CommitGroup} {t : Generations}
    (hrun : groups.foldlM (fun s group => flushBatch params group s) s = .ok t) :
    GenerationRun params isRecovered .between t := by
  induction groups generalizing s with
  | nil =>
    obtain rfl := Except.ok.inj hrun
    exact h
  | cons group groups ih =>
    rw [List.foldlM_cons] at hrun
    obtain ⟨u, hflush, hrest⟩ := exists_of_bind_eq_ok hrun
    exact ih (.flushed h hflush) hrest

/-! ## what the copies of the same facts say -/

/-- Each status that is assigned is the next one. -/
def InOrder : List GenerationEvent → Prop
  | [] => True
  | .status gn status _ :: older => status = (lastStatus gn older).next ∧ InOrder older
  | .diskPage _ _ :: older => InOrder older
  | .freeDiskPage _ _ :: older => InOrder older

def decidableInOrder : (history : List GenerationEvent) → Decidable (InOrder history)
  | [] => .isTrue trivial
  | .status gn status _ :: older =>
    have := decidableInOrder older
    inferInstanceAs (Decidable (status = (lastStatus gn older).next ∧ InOrder older))
  | .diskPage _ _ :: older => decidableInOrder older
  | .freeDiskPage _ _ :: older => decidableInOrder older

instance : DecidablePred InOrder := decidableInOrder

/-- Only recovery goes out of order. -/
theorem Orderly.inOrder {history : List GenerationEvent} (h : Orderly history)
    (hnot : ∀ gn st, GenerationEvent.status gn st true ∉ history) : InOrder history := by
  induction history with
  | nil => trivial
  | cons event older ih =>
    have hnot' : ∀ gn st, GenerationEvent.status gn st true ∉ older := fun gn st hmem =>
      hnot gn st (List.mem_cons_of_mem _ hmem)
    cases event with
    | status gn st isRecovering =>
      refine ⟨h.1.resolve_right ?_, ih h.2 hnot'⟩
      rintro ⟨rfl, -⟩
      exact hnot gn st List.mem_cons_self
    | diskPage gn dpn => exact ih h hnot'
    | freeDiskPage gn dpn => exact ih h hnot'

/-- The table, the record and the pages agree, and they will after the table has grown. -/
structure Generations.InStep (params : GenerationParams) (s : Generations) : Prop where
  orderly : Orderly s.history
  last : ∀ gn, lastStatus gn s.history = s.status gn
  /-- What has been got has been given back, up to what the generation has now. -/
  released : ∀ gn, diskPagesGot gn s.history =
    diskPagesFreed gn s.history ++ if s.status gn = .nonexistent then [] else s.diskPage gn
  count : s.numberOfNonexistentGenerations =
    {gn ∈ Finset.range s.numberOfGenerations | s.status gn = .nonexistent}.card
  inside : ∀ gn, s.status gn ≠ .nonexistent → gn < s.numberOfGenerations
  search : allocateGeneration params s ≠ .error .endless
  refers : ∀ pn, s.pageIsAllocated pn →
    ∃ gn, (s.status gn).IsLive ∧ pn ∈ s.page gn ∧ s.pageGeneration pn = s.address gn
  grow : ∀ newNumberOfGenerations t, generationInfoGrow params newNumberOfGenerations s = .ok t →
    t.status = s.status ∧ t.page = s.page ∧ t.pageIsAllocated = s.pageIsAllocated ∧
      ∀ pn gn, s.pageIsAllocated pn → s.pageGeneration pn = s.address gn →
        t.pageGeneration pn = t.address gn

/-- A page refers to the same entry of the new table. -/
theorem Generations.generationInfoGrow_refers {newNumberOfGenerations pn gn : Nat}
    {t : Generations} (h : generationInfoGrow params newNumberOfGenerations s = .ok t)
    (hlt : pn < params.numberOfPages) (hpn : s.pageIsAllocated pn)
    (hgn : s.pageGeneration pn = s.address gn) : t.pageGeneration pn = t.address gn := by
  unfold generationInfoGrow at h
  split at h
  · obtain rfl := Except.ok.inj h
    exact hgn
  · cases hrealloc : params.realloc (newNumberOfGenerations * sizeofGenerationInfo) with
    | none => simp [hrealloc] at h
    | some base =>
      rw [hrealloc] at h
      obtain rfl := Except.ok.inj h
      simp only [hlt, hpn, and_self, if_true, hgn]
      exact address_grow _ _ _

theorem Generations.Ready.inStep {owned : Prop} (h : Ready params.numberOfPages owned s) :
    s.InStep params := by
  obtain ⟨pre, marked, post, ⟨⟨froms, twice, hsound⟩, harrays, hphase⟩, -, -⟩ := h
  exact {
    orderly := hsound.history.orderly
    last := hsound.history.last
    released := hsound.history.kept
    count := hsound.table.count
    inside := fun _ => hsound.table.inside
    search := fun hendless =>
      ((hsound.allocate hphase.idle).of_error hendless).ne_endless rfl
    refers := fun _ hpn => (hsound.pages.refers hpn).2
    grow := by
      intro newNumberOfGenerations t hgrow
      obtain ⟨⟨_, _, _, _, ht⟩, -, -⟩ := (hsound.grow newNumberOfGenerations).of_ok hgrow
      refine ⟨by rw [ht], by rw [ht], by rw [ht], fun pn gn hpn hgn => ?_⟩
      exact generationInfoGrow_refers hgrow (hsound.pages.refers hpn).1 hpn hgn }

/-- In every run the statuses, the lists, the counts and the pages stay in step. -/
theorem generationRun_inStep (hrun : GenerationRun params isRecovered point s) :
    s.InStep params ∧ (isRecovered = false → InOrder s.history) := by
  obtain ⟨hready, -⟩ := hrun.sound
  refine ⟨hready.inStep, fun howned => ?_⟩
  obtain ⟨pre, marked, post, ⟨⟨froms, twice, hsound⟩, -, -⟩, -, -⟩ := hready
  exact hsound.history.orderly.inOrder (hsound.history.created howned).2

/-- A database of eight pages. -/
def eightPages : GenerationParams where
  numberOfPages := 8
  realloc := fun size => if size < 0x100000000 then some 0x1000 else none
  realloc_lt := by
    intro size base h
    simp only [Option.ite_none_right_eq_some] at h
    exact h.1
  pageSize := 0x1000
  startGcLimit := 0x8000
  allowAdditionalGenerationality := false
  numberOfPagesToMark := 0
  fitsMatureGeneration := fun npages => decide (npages < 4)

/-- What is committed fits in one page, and a step of the mature collection fills another. -/
def onePageGroup (dpn : Nat) : CommitGroup where
  isAllocated := true
  copied := { pages := 1, diskPages := fun i => dpn + i }
  majorGc := {
    shrinks := fun _ => false
    copied := { pages := 1, diskPages := fun i => dpn + 1 + i }
    more := [] }

/-- After five more commits the first number has been through all statuses. -/
theorem generationRun_inStep_eightPages : ∃ t,
    GenerationRun eightPages false .between t ∧ diskPagesFreed 0 t.history = [1] ∧
      t.InStep eightPages ∧ InOrder t.history := by
  have hruns : ((initShades eightPages (fun _ => true) (fun _ => 0) >>= fun s =>
      createDb eightPages (onePageGroup 1) s >>= fun t =>
      ([3, 5, 7, 9, 11].map onePageGroup).foldlM (fun s group => flushBatch eightPages group s)
        t).map fun t => diskPagesFreed 0 t.history) = .ok [1] := by decide +kernel
  obtain ⟨u, hruns, hfreed⟩ := exists_of_map_eq_ok hruns
  obtain ⟨s, hinit, hruns⟩ := exists_of_bind_eq_ok hruns
  obtain ⟨t, hcreate, hflush⟩ := exists_of_bind_eq_ok hruns
  have hrun : GenerationRun eightPages false .between u :=
    (GenerationRun.created hinit hcreate).flushAll hflush
  obtain ⟨hinStep, hinOrder⟩ := generationRun_inStep hrun
  exact ⟨u, hrun, hfreed, hinStep, hinOrder rfl⟩

/-- Three commits, and the generation of each one has a page. -/
def threeGenerations : RecoveryImage where
  youngest := { gn := 2, pages := [(2, 12)], numberOfFromGenerations := 0, toPages := 1 }
  generationPinfoList :=
    [{ gn := 1, pages := [(1, 11)], numberOfFromGenerations := 0, toPages := 1 }]
  prevGenerationPinfoList :=
    [{ gn := 0, pages := [(0, 10)], numberOfFromGenerations := 0, toPages := 1 }]
  prevPrevGenerationPinfoList := []

/-- During recovery `to_gn` behaves also as if it were being collected. -/
example : ((initShades eightPages (fun _ => false) (fun _ => 0) >>= fun s =>
    recoverDb eightPages threeGenerations (onePageGroup 13).majorGc s).map
      fun t => decide (InOrder t.history)) = .ok false := by decide +kernel

end Shades
