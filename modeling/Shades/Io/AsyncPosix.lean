import Shades.Linked

/-!
# Shades.Io.AsyncPosix

Asynchronous reads and writes with the calls of POSIX, `asyncio-posix.c`.

The program links a control block into `list_of_pending_aios`, hands it to the
system and goes on.  Draining waits for the pending requests of one kind and puts
all control blocks back into `list_of_free_aios`.  Meanwhile requests complete in
any order.

The system is known by what the manual says: a request that is accepted is in
progress until it completes, `aio_suspend` waits for that, and `aio_return`
collects the result.  Errors other than `EAGAIN` end the process.
-/

namespace Shades

/-! ## the code -/

/-- `asyncio_type_t`. -/
inductive AsyncioType where
  | aioRead
  | aioWrite
  deriving DecidableEq

/-- The fields of a control block that `asyncio_write_page` and `asyncio_read_page`
fill in. -/
structure Aiocb where
  fildes : Nat
  buf : Nat
  nbytes : Nat
  offset : Nat

/-- The arguments of `asyncio_write_page` and `asyncio_read_page`. -/
structure PageRequest where
  fileNumber : Nat
  pageNumber : Nat
  ptr : Nat
  numberOfBytes : Nat

/-- `disk_skip_nbytes` and `PAGE_SIZE`. -/
structure DiskParams where
  diskSkipNbytes : Nat
  pageSize : Nat

/-- A request that the system accepted. -/
structure AioRequest where
  block : Nat
  aiocb : Aiocb
  type : AsyncioType

/-- Where the program is: outside the functions of this file, at a control block of
the loop that waits, or in the loop that moves the control blocks. -/
inductive AsyncioPhase where
  | idle
  | waiting (kind : AsyncioType) (aio : Nat)
  | moving (kind : AsyncioType)
  deriving DecidableEq

/-- The variables of the program, and the requests as the system knows them: they
are numbered in the order in which they were accepted, and a control block is that
of one of them. -/
structure Asyncio where
  filedesc : Nat → Nat
  aiocb : Nat → Aiocb
  type : Nat → AsyncioType
  next : Nat → Nat
  listOfFreeAios : Nat
  listOfPendingAios : Nat
  phase : AsyncioPhase
  /-- what `malloc` has returned -/
  blocks : List Nat
  numberOfRequests : Nat
  request : Nat → AioRequest
  completed : Nat → Bool
  collected : Nat → Bool
  requestOf : Nat → Option Nat
  inProgress : Nat → Bool

namespace Asyncio

/-- A control block is taken from the free list, or from `malloc`, and linked into
the list of pending ones. -/
def takeAio (s : Asyncio) (type : AsyncioType) (malloc : Nat) : Nat × Asyncio :=
  let (aio, s) :=
    if s.listOfFreeAios = 0 then (malloc, { s with blocks := malloc :: s.blocks })
    else (s.listOfFreeAios, { s with listOfFreeAios := s.next s.listOfFreeAios })
  (aio, { s with
    next := Function.update s.next aio s.listOfPendingAios
    listOfPendingAios := aio
    type := Function.update s.type aio type })

/-- `aio_write` and `aio_read`, when they accept the request. -/
def accept (s : Asyncio) (aio : Nat) : Asyncio :=
  let n := s.numberOfRequests
  { s with
    numberOfRequests := n + 1
    request := Function.update s.request n ⟨aio, s.aiocb aio, s.type aio⟩
    completed := Function.update s.completed n false
    collected := Function.update s.collected n false
    requestOf := Function.update s.requestOf aio (some n)
    inProgress := Function.update s.inProgress aio true }

/-- What is written in the control block for a page. -/
def aiocbFor (params : DiskParams) (s : Asyncio) (page : PageRequest) : Aiocb where
  fildes := s.filedesc page.fileNumber
  buf := page.ptr
  nbytes := page.numberOfBytes
  offset := params.diskSkipNbytes + page.pageNumber * params.pageSize

/-- The body of `asyncio_write_page` and `asyncio_read_page`.  The system refuses the
request with `EAGAIN` or accepts it. -/
def asyncioPage (params : DiskParams) (type : AsyncioType) (s : Asyncio) (page : PageRequest)
    (malloc : Nat) (refused : Bool) : Int × Asyncio :=
  let (aio, s) := s.takeAio type malloc
  let s := { s with aiocb := Function.update s.aiocb aio (s.aiocbFor params page) }
  if refused then (-1, s) else (0, s.accept aio)

/-- `asyncio_write_page`. -/
def asyncioWritePage (params : DiskParams) : Asyncio → PageRequest → Nat → Bool → Int × Asyncio :=
  asyncioPage params .aioWrite

/-- `asyncio_read_page`. -/
def asyncioReadPage (params : DiskParams) : Asyncio → PageRequest → Nat → Bool → Int × Asyncio :=
  asyncioPage params .aioRead

/-- A request completes. -/
def complete (s : Asyncio) (i : Nat) : Asyncio :=
  { s with
    completed := Function.update s.completed i true
    inProgress := Function.update s.inProgress (s.request i).block false }

/-- `aio_return`: the result of the request of a control block is collected. -/
def aioReturn (s : Asyncio) (aio : Nat) : Asyncio :=
  match s.requestOf aio with
  | none => s
  | some i => { s with collected := Function.update s.collected i true }

/-- The body of `asyncio_drain_pending_writes` and `asyncio_drain_pending_reads`, up to
the first control block. -/
def drainPending (kind : AsyncioType) (s : Asyncio) : Asyncio :=
  { s with phase := .waiting kind s.listOfPendingAios }

/-- `asyncio_drain_pending_writes`. -/
def asyncioDrainPendingWrites : Asyncio → Asyncio := drainPending .aioWrite

/-- `asyncio_drain_pending_reads`. -/
def asyncioDrainPendingReads : Asyncio → Asyncio := drainPending .aioRead

/-- One turn of the loops of a drain.  There is none while `aio_suspend` waits. -/
def drainTurn (s : Asyncio) : Option Asyncio :=
  match s.phase with
  | .idle => none
  | .waiting kind aio =>
    if aio = 0 then some { s with phase := .moving kind }
    else if s.type aio = kind then
      if s.inProgress aio then none
      else some { s.aioReturn aio with phase := .waiting kind (s.next aio) }
    else some { s with phase := .waiting kind (s.next aio) }
  | .moving _ =>
    if s.listOfPendingAios = 0 then some { s with phase := .idle }
    else
      let aio := s.listOfPendingAios
      some { s with
        listOfPendingAios := s.next aio
        next := Function.update s.next aio s.listOfFreeAios
        listOfFreeAios := aio }

end Asyncio

/-! ## runs -/

/-- What happens next: a page is read or written, a drain is called or goes on, or a
request completes. -/
inductive AsyncioEvent where
  | page (type : AsyncioType) (page : PageRequest) (malloc : Nat) (refused : Bool)
  | drain (kind : AsyncioType)
  | turn
  | complete (i : Nat)

/-- The steps of the program and the system.  `malloc` returns new control blocks. -/
inductive AsyncioStep (params : DiskParams) (s : Asyncio) : AsyncioEvent → Asyncio → Prop
  | page {type : AsyncioType} {page : PageRequest} {malloc : Nat} {refused : Bool}
      (hidle : s.phase = .idle)
      (hmalloc : s.listOfFreeAios = 0 → malloc ≠ 0 ∧ malloc ∉ s.blocks) :
      AsyncioStep params s (.page type page malloc refused)
        (s.asyncioPage params type page malloc refused).2
  | drain {kind : AsyncioType} (hidle : s.phase = .idle) :
      AsyncioStep params s (.drain kind) (s.drainPending kind)
  | turn {s' : Asyncio} (hturn : s.drainTurn = some s') : AsyncioStep params s .turn s'
  | complete {i : Nat} (hi : i < s.numberOfRequests) (hrunning : s.completed i = false) :
      AsyncioStep params s (.complete i) (s.complete i)

/-- No control block has been allocated. -/
structure Asyncio.Initial (s : Asyncio) : Prop where
  phase : s.phase = .idle
  free : s.listOfFreeAios = 0
  pending : s.listOfPendingAios = 0
  blocks : s.blocks = []
  requests : s.numberOfRequests = 0

/-- The steps after which the books are right: the system does not refuse the request,
and when a drain has waited for its kind, no request of the other kind is in
progress. -/
def AsyncioEvent.Meets (s : Asyncio) : AsyncioEvent → Prop
  | .page _ _ _ refused => refused = false
  | .turn => ∀ kind, s.phase = .waiting kind 0 →
      ∀ i < s.numberOfRequests, s.completed i = false → (s.request i).type = kind
  | _ => True

/-- The states that are reached by steps that meet the condition. -/
inductive AsyncioRun (params : DiskParams) : Asyncio → Prop
  | initial {s : Asyncio} (h : s.Initial) : AsyncioRun params s
  | step {s s' : Asyncio} {event : AsyncioEvent} (hrun : AsyncioRun params s)
      (hstep : AsyncioStep params s event s') (hmeets : event.Meets s) : AsyncioRun params s'

instance (s : Asyncio) (event : AsyncioEvent) : Decidable (event.Meets s) :=
  match event with
  | .page _ _ _ refused => inferInstanceAs (Decidable (refused = false))
  | .drain _ | .complete _ => .isTrue trivial
  | .turn =>
    decidable_of_iff (∀ kind ∈ [AsyncioType.aioRead, .aioWrite], s.phase = .waiting kind 0 →
      ∀ i < s.numberOfRequests, s.completed i = false → (s.request i).type = kind)
      ⟨fun h kind => h kind (by cases kind <;> decide), fun h kind _ => h kind⟩

/-- What comes of an event, if it may happen. -/
def Asyncio.step (params : DiskParams) (s : Asyncio) : AsyncioEvent → Option Asyncio
  | .page type page malloc refused =>
    if s.phase = .idle ∧ (s.listOfFreeAios = 0 → malloc ≠ 0 ∧ malloc ∉ s.blocks) then
      some (s.asyncioPage params type page malloc refused).2
    else none
  | .drain kind => if s.phase = .idle then some (s.drainPending kind) else none
  | .turn => s.drainTurn
  | .complete i =>
    if i < s.numberOfRequests ∧ s.completed i = false then some (s.complete i) else none

/-- Events in a row, each of which meets the condition. -/
def Asyncio.steps (params : DiskParams) : List AsyncioEvent → Asyncio → Option Asyncio
  | [], s => some s
  | event :: events, s =>
    if event.Meets s then (s.step params event).bind (steps params events) else none

theorem Asyncio.step_spec {params : DiskParams} {s s' : Asyncio} {event : AsyncioEvent}
    (h : s.step params event = some s') : AsyncioStep params s event s' := by
  cases event with
  | page type page malloc refused =>
    obtain ⟨⟨hidle, hmalloc⟩, h⟩ := Option.ite_none_right_eq_some.mp h
    obtain rfl := Option.some.inj h
    exact .page hidle hmalloc
  | drain kind =>
    obtain ⟨hidle, h⟩ := Option.ite_none_right_eq_some.mp h
    obtain rfl := Option.some.inj h
    exact .drain hidle
  | turn => exact .turn h
  | complete i =>
    obtain ⟨⟨hi, hrunning⟩, h⟩ := Option.ite_none_right_eq_some.mp h
    obtain rfl := Option.some.inj h
    exact .complete hi hrunning

theorem AsyncioRun.steps {params : DiskParams} {s s' : Asyncio} {events : List AsyncioEvent}
    (hrun : AsyncioRun params s) (h : s.steps params events = some s') :
    AsyncioRun params s' := by
  induction events generalizing s with
  | nil =>
    obtain rfl := Option.some.inj h
    exact hrun
  | cons event events ih =>
    obtain ⟨hmeets, h⟩ := Option.ite_none_right_eq_some.mp h
    obtain ⟨s₁, hstep, h⟩ := Option.bind_eq_some_iff.mp h
    exact ih (hrun.step (Asyncio.step_spec hstep) hmeets) h

section books

variable {params : DiskParams} {s s' : Asyncio} {free pending : List Nat} {type : AsyncioType}
  {page : PageRequest} {malloc aio : Nat} {refused : Bool} {event : AsyncioEvent}

/-- Every control block is in one of the two lists. -/
structure Asyncio.Lists (s : Asyncio) (free pending : List Nat) : Prop where
  freeAios : Linked s.next 0 s.listOfFreeAios free
  pendingAios : Linked s.next 0 s.listOfPendingAios pending
  mem_iff : ∀ a, a ∈ s.blocks ↔ a ∈ free ∨ a ∈ pending
  not_free : ∀ a ∈ pending, a ∉ free

/-- How far a drain has come: the control blocks of its kind that it has passed are no
longer in progress, and what it moves has completed. -/
def Asyncio.Drained (s : Asyncio) (pending : List Nat) : Prop :=
  match s.phase with
  | .idle => True
  | .waiting kind aio => ∃ passed rest, pending = passed ++ rest ∧ Linked s.next 0 aio rest ∧
      ∀ a ∈ passed, s.type a = kind → s.inProgress a = false
  | .moving _ => ∀ i < s.numberOfRequests, s.completed i = true

/-- A request that runs is that of its control block, which is pending; and a pending
control block is that of a request, which no drain has collected yet. -/
structure Asyncio.Booked (s : Asyncio) (pending : List Nat) : Prop where
  running : ∀ i < s.numberOfRequests, s.completed i = false →
    (s.request i).block ∈ pending ∧ s.requestOf (s.request i).block = some i ∧
      s.inProgress (s.request i).block = true ∧ s.type (s.request i).block = (s.request i).type
  accepted : ∀ a ∈ pending, ∃ i < s.numberOfRequests, s.requestOf a = some i ∧
    (s.request i).block = a ∧ (s.collected i = true → s.phase ≠ .idle)
  drained : s.Drained pending

/-- The control block that a request takes. -/
theorem Asyncio.Lists.takeAio (h : s.Lists free pending) (type : AsyncioType)
    (hmalloc : s.listOfFreeAios = 0 → malloc ≠ 0 ∧ malloc ∉ s.blocks) :
    ∃ aio free' next listOfFreeAios blocks, aio ∉ pending ∧
      s.takeAio type malloc = (aio, { s with
        next := next
        listOfFreeAios := listOfFreeAios
        listOfPendingAios := aio
        type := Function.update s.type aio type
        blocks := blocks }) ∧
      (s.takeAio type malloc).2.Lists free' (aio :: pending) := by
  unfold Asyncio.takeAio
  by_cases h0 : s.listOfFreeAios = 0
  · obtain ⟨hne, hnew⟩ := hmalloc h0
    rw [if_pos h0]
    have hnot : malloc ∉ pending := fun hmem => hnew ((h.mem_iff _).mpr (.inr hmem))
    have hfree : free = [] := by
      cases free with
      | nil => rfl
      | cons a free => exact absurd (h.freeAios.1.symm.trans h0) h.freeAios.2.1
    refine ⟨malloc, [], _, _, _, hnot, rfl, by rw [linked_nil]; exact h0,
      h.pendingAios.push hne hnot, fun a => ?_, fun a _ => List.not_mem_nil⟩
    simp [h.mem_iff, hfree]
  · rw [if_neg h0]
    cases free with
    | nil => exact absurd h.freeAios h0
    | cons a free =>
      have hnot : a ∉ pending := fun hmem => h.not_free a hmem List.mem_cons_self
      have hnot' : a ∉ free := (List.nodup_cons.mp h.freeAios.nodup).1
      obtain ⟨hhead, hne, hrest⟩ := h.freeAios
      rw [hhead]
      refine ⟨a, free, _, _, _, hnot, rfl, hrest.congr fun b hb => ?_,
        h.pendingAios.push hne hnot, fun b => ?_, fun b hb => ?_⟩
      · exact Function.update_of_ne (ne_of_mem_of_not_mem hb hnot') _ _
      · simp only [h.mem_iff, List.mem_cons]
        tauto
      · cases hb with
        | head => exact hnot'
        | tail _ hb => exact fun hmem => h.not_free b hb (List.mem_cons_of_mem _ hmem)

/-- Accepted or refused, a request puts a control block in front of the pending ones. -/
theorem Asyncio.Lists.asyncioPage (h : s.Lists free pending)
    (hmalloc : s.listOfFreeAios = 0 → malloc ≠ 0 ∧ malloc ∉ s.blocks) :
    ∃ aio free', aio ∉ pending ∧
      (s.asyncioPage params type page malloc refused).2.Lists free' (aio :: pending) := by
  obtain ⟨aio, free', next, listOfFreeAios, blocks, hnot, htake, hlists⟩ :=
    h.takeAio type hmalloc
  refine ⟨aio, free', hnot, ?_⟩
  rw [htake] at hlists
  unfold Asyncio.asyncioPage
  rw [htake]
  cases refused <;> exact ⟨hlists.1, hlists.2, hlists.3, hlists.4⟩

/-- An accepted request is booked. -/
theorem Asyncio.Booked.asyncioPage (hlists : s.Lists free pending) (h : s.Booked pending)
    (hidle : s.phase = .idle)
    (hmalloc : s.listOfFreeAios = 0 → malloc ≠ 0 ∧ malloc ∉ s.blocks) :
    ∃ aio free', (s.asyncioPage params type page malloc false).2.Lists free' (aio :: pending) ∧
      (s.asyncioPage params type page malloc false).2.Booked (aio :: pending) := by
  obtain ⟨aio, free', next, listOfFreeAios, blocks, hnot, htake, hlists'⟩ :=
    hlists.takeAio type hmalloc
  rw [htake] at hlists'
  unfold Asyncio.asyncioPage Asyncio.accept
  rw [htake]
  simp only [Bool.false_eq_true, if_false]
  refine ⟨aio, free', ⟨hlists'.1, hlists'.2, hlists'.3, hlists'.4⟩, ?_, ?_, ?_⟩
  · intro i hi hrunning
    simp only at hi hrunning ⊢
    by_cases hnew : i = s.numberOfRequests
    · subst hnew
      simp
    · rw [Function.update_of_ne hnew] at hrunning ⊢
      obtain ⟨hmem, hof, hprogress, htype⟩ := h.running i (by omega) hrunning
      have hne : (s.request i).block ≠ aio := ne_of_mem_of_not_mem hmem hnot
      simp only [Function.update_of_ne hne]
      exact ⟨List.mem_cons_of_mem _ hmem, hof, hprogress, htype⟩
  · intro a ha
    simp only at ha ⊢
    by_cases hnew : a = aio
    · subst hnew
      exact ⟨s.numberOfRequests, Nat.lt_succ_self _, by simp⟩
    · have ha' : a ∈ pending := (List.mem_cons.mp ha).resolve_left hnew
      obtain ⟨i, hi, hof, hblock, hcollected⟩ := h.accepted a ha'
      have hold : i ≠ s.numberOfRequests := Nat.ne_of_lt hi
      simp only [Function.update_of_ne hnew]
      refine ⟨i, Nat.lt_succ_of_lt hi, hof, ?_⟩
      simp only [Function.update_of_ne hold]
      exact ⟨hblock, hcollected⟩
  · unfold Asyncio.Drained
    simp only [hidle]

/-- A request completes. -/
theorem Asyncio.Booked.complete (h : s.Booked pending) {i : Nat} (hi : i < s.numberOfRequests)
    (hrunning : s.completed i = false) : (s.complete i).Booked pending := by
  have hof := (h.running i hi hrunning).2.1
  unfold Asyncio.complete
  refine ⟨fun j hj hj' => ?_, h.accepted, ?_⟩
  · simp only at hj hj' ⊢
    have hne : j ≠ i := by
      rintro rfl
      rw [Function.update_self] at hj'
      cases hj'
    rw [Function.update_of_ne hne] at hj'
    obtain ⟨hmem, hof', hprogress, htype⟩ := h.running j hj hj'
    -- two running requests do not share a control block
    have hblock : (s.request j).block ≠ (s.request i).block := by
      intro hsame
      rw [hsame, hof] at hof'
      exact hne (Option.some.inj hof').symm
    rw [Function.update_of_ne hblock]
    exact ⟨hmem, hof', hprogress, htype⟩
  · have hdrained := h.drained
    unfold Asyncio.Drained at hdrained ⊢
    cases hphase : s.phase with
    | idle => trivial
    | waiting kind aio =>
      simp only [hphase] at hdrained ⊢
      obtain ⟨passed, rest, hpending, hlinked, hpassed⟩ := hdrained
      refine ⟨passed, rest, hpending, hlinked, fun a ha hkind => ?_⟩
      by_cases hblock : a = (s.request i).block
      · rw [hblock, Function.update_self]
      · rw [Function.update_of_ne hblock]
        exact hpassed a ha hkind
    | moving kind =>
      simp only [hphase] at hdrained
      rw [hdrained i hi] at hrunning
      cases hrunning

/-- A drain is called. -/
theorem Asyncio.Booked.drainPending (hlists : s.Lists free pending) (h : s.Booked pending)
    (kind : AsyncioType) : (s.drainPending kind).Booked pending := by
  refine ⟨h.running, fun a ha => ?_, ?_⟩
  · obtain ⟨i, hi, hof, hblock, -⟩ := h.accepted a ha
    exact ⟨i, hi, hof, hblock, fun _ => AsyncioPhase.noConfusion⟩
  · exact ⟨[], pending, rfl, hlists.pendingAios, fun a ha => absurd ha List.not_mem_nil⟩

theorem Asyncio.aioReturn_eq (s : Asyncio) (aio : Nat) :
    ∃ collected, s.aioReturn aio = { s with collected := collected } := by
  unfold Asyncio.aioReturn
  split
  · exact ⟨s.collected, rfl⟩
  · exact ⟨_, rfl⟩

/-- A drain has passed a control block. -/
theorem Asyncio.Booked.pass {kind : AsyncioType} {passed rest : List Nat}
    (h : s.Booked (passed ++ aio :: rest)) (hrest : Linked s.next 0 (s.next aio) rest)
    (hpassed : ∀ a ∈ passed, s.type a = kind → s.inProgress a = false)
    (haio : s.type aio = kind → s.inProgress aio = false) (collected : Nat → Bool) :
    { s with collected := collected, phase := .waiting kind (s.next aio) }.Booked
      (passed ++ aio :: rest) := by
  refine ⟨h.running, fun a ha => ?_, passed ++ [aio], rest, by simp, hrest, fun a ha => ?_⟩
  · obtain ⟨i, hi, hof, hblock, -⟩ := h.accepted a ha
    exact ⟨i, hi, hof, hblock, fun _ => AsyncioPhase.noConfusion⟩
  · cases List.mem_append.mp ha with
    | inl ha => exact hpassed a ha
    | inr ha =>
      rw [List.mem_singleton.mp ha]
      exact haio

/-- A control block is put back into the list of free ones. -/
theorem Asyncio.Lists.moveHead (h : s.Lists free (aio :: pending)) :
    { s with
      listOfPendingAios := s.next aio
      next := Function.update s.next aio s.listOfFreeAios
      listOfFreeAios := aio }.Lists (aio :: free) pending := by
  obtain ⟨-, hne, hrest⟩ := h.pendingAios
  have hnotFree : aio ∉ free := h.not_free aio List.mem_cons_self
  have hnotPending : aio ∉ pending := (List.nodup_cons.mp h.pendingAios.nodup).1
  refine ⟨h.freeAios.push hne hnotFree, hrest.congr fun a ha => ?_, fun a => ?_, fun a ha => ?_⟩
  · exact Function.update_of_ne (ne_of_mem_of_not_mem ha hnotPending) _ _
  · simp only [h.mem_iff, List.mem_cons]
    tauto
  · rw [List.mem_cons, not_or]
    exact ⟨ne_of_mem_of_not_mem ha hnotPending, h.not_free a (List.mem_cons_of_mem _ ha)⟩

/-- A drain goes on. -/
theorem Asyncio.Booked.drainTurn (hlists : s.Lists free pending) (h : s.Booked pending)
    (hturn : s.drainTurn = some s') (hmeets : AsyncioEvent.turn.Meets s) :
    ∃ free' pending', s'.Lists free' pending' ∧ s'.Booked pending' := by
  have hdrained := h.drained
  unfold Asyncio.Drained at hdrained
  unfold Asyncio.drainTurn at hturn
  cases hphase : s.phase with
  | idle =>
    rw [hphase] at hturn
    cases hturn
  | waiting kind aio =>
    simp only [hphase] at hdrained hturn
    obtain ⟨passed, rest, hpending, hlinked, hpassed⟩ := hdrained
    cases rest with
    | nil =>
      rw [linked_nil] at hlinked
      subst hlinked
      rw [if_pos rfl] at hturn
      cases hturn
      refine ⟨free, pending, ⟨hlists.1, hlists.2, hlists.3, hlists.4⟩, h.running, fun a ha => ?_,
        fun i hi => ?_⟩
      · obtain ⟨i, hi, hof, hblock, -⟩ := h.accepted a ha
        exact ⟨i, hi, hof, hblock, fun _ => AsyncioPhase.noConfusion⟩
      · -- a request that still ran would be of the drain's kind and was waited for
        by_contra hnot
        have hrunning : s.completed i = false := Bool.eq_false_iff.mpr hnot
        obtain ⟨hmem, -, hprogress, htype⟩ := h.running i hi hrunning
        have hkind := hmeets kind hphase i hi hrunning
        rw [hpending, List.append_nil] at hmem
        rw [hpassed _ hmem (htype.trans hkind)] at hprogress
        cases hprogress
    | cons b rest =>
      obtain ⟨hhead, hne, hrest⟩ := hlinked
      subst hhead hpending
      rw [if_neg hne] at hturn
      refine ⟨free, passed ++ aio :: rest, ?_⟩
      by_cases hkind : s.type aio = kind
      · rw [if_pos hkind] at hturn
        cases hprogress : s.inProgress aio with
        | true =>
          rw [if_pos hprogress] at hturn
          cases hturn
        | false =>
          obtain ⟨collected, hreturn⟩ := s.aioReturn_eq aio
          rw [if_neg (Bool.eq_false_iff.mp hprogress), hreturn] at hturn
          cases hturn
          exact ⟨⟨hlists.1, hlists.2, hlists.3, hlists.4⟩,
            h.pass hrest hpassed (fun _ => hprogress) collected⟩
      · rw [if_neg hkind] at hturn
        cases hturn
        exact ⟨⟨hlists.1, hlists.2, hlists.3, hlists.4⟩,
          h.pass hrest hpassed (fun heq => absurd heq hkind) s.collected⟩
  | moving kind =>
    simp only [hphase] at hdrained hturn
    have hnone : ∀ i < s.numberOfRequests, s.completed i ≠ false := fun i hi hfalse => by
      rw [hdrained i hi] at hfalse
      cases hfalse
    cases pending with
    | nil =>
      rw [if_pos (linked_nil.mp hlists.pendingAios)] at hturn
      cases hturn
      exact ⟨free, [], ⟨hlists.1, hlists.2, hlists.3, hlists.4⟩,
        fun i hi hrunning => absurd hrunning (hnone i hi), fun a ha => absurd ha List.not_mem_nil,
        trivial⟩
    | cons b pending =>
      obtain ⟨hhead, hne, -⟩ := hlists.pendingAios
      rw [hhead, if_neg hne] at hturn
      cases hturn
      obtain ⟨hfree, hrest, hmem, hnot⟩ := hlists.moveHead
      refine ⟨b :: free, pending, ⟨hfree, hrest, hmem, hnot⟩,
        fun i hi hrunning => absurd hrunning (hnone i hi), fun a ha => ?_, ?_⟩
      · obtain ⟨i, hi, hof, hblock, -⟩ := h.accepted a (List.mem_cons_of_mem _ ha)
        exact ⟨i, hi, hof, hblock, fun _ => AsyncioPhase.noConfusion⟩
      · exact hdrained

/-- A step that meets the condition keeps the books. -/
theorem AsyncioStep.booked (hstep : AsyncioStep params s event s') (hmeets : event.Meets s)
    (hlists : s.Lists free pending) (h : s.Booked pending) :
    ∃ free' pending', s'.Lists free' pending' ∧ s'.Booked pending' := by
  cases hstep with
  | page hidle hmalloc =>
    cases hmeets
    obtain ⟨aio, free', hlists', hbooked⟩ := h.asyncioPage hlists hidle hmalloc
    exact ⟨free', aio :: pending, hlists', hbooked⟩
  | drain =>
    exact ⟨free, pending, ⟨hlists.1, hlists.2, hlists.3, hlists.4⟩, h.drainPending hlists _⟩
  | turn hturn => exact h.drainTurn hlists hturn hmeets
  | complete hi hrunning =>
    exact ⟨free, pending, ⟨hlists.1, hlists.2, hlists.3, hlists.4⟩, h.complete hi hrunning⟩

/-- So does a run of such steps. -/
theorem AsyncioRun.booked (hrun : AsyncioRun params s) :
    ∃ free pending, s.Lists free pending ∧ s.Booked pending := by
  induction hrun with
  | @initial s h =>
    refine ⟨[], [], ⟨h.free, h.pending, fun a => by simp [h.blocks], by simp⟩, ?_, by simp, ?_⟩
    · intro i hi
      rw [h.requests] at hi
      exact absurd hi (Nat.not_lt_zero i)
    · unfold Asyncio.Drained
      rw [h.phase]
      trivial
  | step _ hstep hmeets ih =>
    obtain ⟨free, pending, hlists, hbooked⟩ := ih
    exact hstep.booked hmeets hlists hbooked

/-- When a drain returns, nothing is in progress. -/
theorem Asyncio.Booked.returned (h : s.Booked pending) (hturn : s.drainTurn = some s')
    (hidle : s'.phase = .idle) : ∀ i < s'.numberOfRequests, s'.completed i = true := by
  have hdrained := h.drained
  unfold Asyncio.Drained at hdrained
  unfold Asyncio.drainTurn at hturn
  cases hphase : s.phase with
  | idle =>
    rw [hphase] at hturn
    cases hturn
  | waiting kind aio =>
    -- no turn of the first loop leaves the function
    simp only [hphase] at hturn
    split_ifs at hturn <;> cases hturn <;> cases hidle
  | moving kind =>
    simp only [hphase] at hdrained hturn
    split_ifs at hturn <;> cases hturn <;> exact hdrained

/-- A request that is refused changes the list of pending control blocks. -/
theorem Asyncio.Lists.ne_of_refused (h : s.Lists free pending)
    (hmalloc : s.listOfFreeAios = 0 → malloc ≠ 0 ∧ malloc ∉ s.blocks) :
    (s.asyncioPage params type page malloc true).2.listOfPendingAios ≠ s.listOfPendingAios := by
  obtain ⟨aio, free', hnot, hlists⟩ : ∃ aio free', aio ∉ pending ∧
      (s.asyncioPage params type page malloc true).2.Lists free' (aio :: pending) :=
    h.asyncioPage hmalloc
  intro hsame
  have hhead := hlists.pendingAios.1
  rw [hsame] at hhead
  cases pending with
  | nil => exact hlists.pendingAios.2.1 (hhead.symm.trans h.pendingAios)
  | cons b pending =>
    rw [← hhead, h.pendingAios.1] at hnot
    exact hnot List.mem_cons_self

/-- The books are right while no request is refused and no drain puts the control block
of a request in progress back into the free list: every control block is in one of the
two lists, a pending one is that of a request which has not been collected, and when a
drain returns every request has completed.  A request that is refused always leaves its
control block behind. -/
theorem asyncio_bookkeeping (hrun : AsyncioRun params s) :
    (∃ free pending, s.Lists free pending ∧ (s.phase = .idle → ∀ a ∈ pending,
      ∃ i < s.numberOfRequests, s.requestOf a = some i ∧ (s.request i).block = a ∧
        s.collected i = false)) ∧
    (∀ s', s.drainTurn = some s' → s'.phase = .idle →
      ∀ i < s'.numberOfRequests, s'.completed i = true) ∧
    (∀ type page malloc, (s.listOfFreeAios = 0 → malloc ≠ 0 ∧ malloc ∉ s.blocks) →
      (s.asyncioPage params type page malloc true).2.listOfPendingAios ≠ s.listOfPendingAios) := by
  obtain ⟨free, pending, hlists, hbooked⟩ := hrun.booked
  refine ⟨⟨free, pending, hlists, fun hidle a ha => ?_⟩, fun s' => hbooked.returned,
    fun type page malloc => hlists.ne_of_refused⟩
  obtain ⟨i, hi, hof, hblock, hcollected⟩ := hbooked.accepted a ha
  refine ⟨i, hi, hof, hblock, ?_⟩
  cases hc : s.collected i with
  | false => rfl
  | true => exact absurd hidle (hcollected hc)

end books

/-- Before the first request. -/
def Asyncio.start : Asyncio where
  filedesc _ := 0
  aiocb _ := ⟨0, 0, 0, 0⟩
  type _ := .aioRead
  next _ := 0
  listOfFreeAios := 0
  listOfPendingAios := 0
  phase := .idle
  blocks := []
  numberOfRequests := 0
  request _ := ⟨0, ⟨0, 0, 0, 0⟩, .aioRead⟩
  completed _ := false
  collected _ := false
  requestOf _ := none
  inProgress _ := false

/-- A page is written and another one is read.  After both requests have completed the
writes are drained, and the next write takes one of the control blocks. -/
theorem asyncio_bookkeeping_drain :
    ∃ s, AsyncioRun ⟨512, 4096⟩ s ∧ s.phase = .idle ∧ s.numberOfRequests = 3 ∧
      s.blocks = [2, 1] ∧ ∃ free pending, s.Lists free pending ∧ ∀ a ∈ pending,
        ∃ i < s.numberOfRequests, s.requestOf a = some i ∧ (s.request i).block = a ∧
          s.collected i = false := by
  have hlook : (Asyncio.start.steps ⟨512, 4096⟩
      [.page .aioWrite ⟨0, 3, 0, 4096⟩ 1 false, .page .aioRead ⟨0, 5, 0, 4096⟩ 2 false,
        .complete 1, .complete 0, .drain .aioWrite, .turn, .turn, .turn, .turn, .turn, .turn,
        .page .aioWrite ⟨0, 4, 0, 4096⟩ 0 false]).map
          (fun s => (s.phase, s.numberOfRequests, s.blocks)) = some (.idle, 3, [2, 1]) := by
    decide +kernel
  obtain ⟨s, hsteps, hlook⟩ := Option.map_eq_some_iff.mp hlook
  obtain ⟨hidle, hlook⟩ := Prod.mk.inj hlook
  obtain ⟨hrequests, hblocks⟩ := Prod.mk.inj hlook
  have hstart : AsyncioRun ⟨512, 4096⟩ Asyncio.start := .initial ⟨rfl, rfl, rfl, rfl, rfl⟩
  have hrun := hstart.steps hsteps
  obtain ⟨⟨free, pending, hlists, hpending⟩, -, -⟩ := asyncio_bookkeeping hrun
  exact ⟨s, hrun, hidle, hrequests, hblocks, free, pending, hlists, hpending hidle⟩

/-- The turns of a drain. -/
def Asyncio.drainTurns : Nat → Asyncio → Option Asyncio
  | 0, s => some s
  | turns + 1, s => s.drainTurn.bind (drainTurns turns)

/-- A write that is refused stays in the list of pending ones without a request; and a
write that is in progress is forgotten by a drain of the reads, so that a drain of the
writes returns before it has completed. -/
theorem asyncio_bookkeeping_wrong :
    (let s := (Asyncio.start.asyncioWritePage ⟨512, 4096⟩ ⟨0, 3, 0, 4096⟩ 1 true).2
     s.listOfPendingAios = 1 ∧ s.requestOf 1 = none) ∧
    (let s := (Asyncio.start.asyncioWritePage ⟨512, 4096⟩ ⟨0, 3, 0, 4096⟩ 1 false).2
     ((s.asyncioDrainPendingReads.drainTurns 4).bind fun s =>
       (s.asyncioDrainPendingWrites.drainTurns 2).map fun s =>
         (s.phase, s.numberOfRequests, s.completed 0)) = some (.idle, 1, false)) := by
  decide

end Shades
