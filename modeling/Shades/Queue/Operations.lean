import Shades.Queue.Refine

/-!
# Shades.Queue.Operations

`queue_insert_last`, `queue_remove_first` and `QUEUE_GET_FIRST` on the state
that a queue stands for.
-/

namespace Shades

open RealTimeQueue Memory

variable {m : Memory} {queue : Nat} {s : State Nat}

theorem canAllocate_of_le {k : Nat} (hcan : m.canAllocate queueMaxAllocation)
    (hk : k ≤ queueMaxAllocation) : m.canAllocate k := by
  unfold canAllocate at hcan ⊢
  omega

/-- The first item of the head. -/
theorem queueGetFirst_eq {x : Nat} (h : QueueAt m.words m.Live queue s)
    (hx : s.head.head? = some (ptrToWord x)) : queueGetFirst m.words queue = some x := by
  have hs : s ≠ .empty := fun hs => by simp [hs, State.head] at hx
  have hne : queue ≠ nullPtr := fun hq => hs (h.eq_nullPtr_iff.mp hq)
  obtain ⟨hlist, -⟩ := h.head hs
  obtain ⟨ys, hys⟩ := List.head?_eq_some_iff.mp hx
  rw [hys] at hlist
  simp [queueGetFirst, queueIsEmpty, hne, assert_true, hlist.cellType_eq, hlist.wcar_eq]

/-- A new transfer is started in a cell that has been filled. -/
theorem startTransfer_spec {m₁ : Memory} {q used : Nat} {head back rback : List Nat}
    (h : TransferBuilding m q used ⟨head, [], head, [], back, rback, 0, head.length⟩ m₁)
    (hhead : 2 ≤ head.length) (hback : back.length = head.length)
    (hused : used + 18 ≤ queueMaxAllocation) (hcan : m.canAllocate queueMaxAllocation) :
    Returns m (.transfer (.start head back rback))
      ((reverseLoop q (2 + m₁.words (q + 3) % 2) m₁).bind fun m => some (q, m)) := by
  have hcount := h.transfer.headCount
  simp only at hcount
  obtain ⟨m₂, hrun, h₂⟩ := reverseLoop_spec (n := 2 + head.length % 2) h (by simp only; omega)
    (by simp only; omega) (canAllocate_of_le hcan (by omega))
  rw [hcount, hrun, Option.bind_some]
  exact returns_transfer h₂ (by omega)

/-- `queue_insert_last`. -/
theorem queueInsertLast_spec (h : QueueAt m.words m.Live queue s) (hs : s.Inv)
    (hcan : m.canAllocate queueMaxAllocation) (data : Nat) :
    Returns m (insertLast (ptrToWord data) s) (queueInsertLast m queue data) := by
  have hroom : ∀ k, k ≤ queueMaxAllocation → m.canAllocate k := fun k => canAllocate_of_le hcan
  have hmax : queueMaxAllocation = 37 := rfl
  cases s with
  | empty =>
    obtain rfl : queue = nullPtr := h
    obtain ⟨q, m₁, halloc⟩ : ∃ q m₁, m.allocate wordsInQueueHeader .queue = (q, m₁) := ⟨_, _, rfl⟩
    obtain ⟨w, m₂, hw⟩ : ∃ w m₂, wcons m₁ (ptrToWord data) nullWord = (w, m₂) := ⟨_, _, rfl⟩
    have hb := Building.start halloc (by decide) (hroom _ (by decide))
    obtain ⟨hb₂, -, hlist⟩ := hb.wcons hw .nil (hroom _ (by decide))
    simp only [queueInsertLast, queueIsEmpty, decide_true, if_true, halloc, hw]
    exact returns_plain hb₂ (by decide) hlist .nil
  | plain head tail =>
    obtain ⟨hne, hcell, hat⟩ := h
    obtain ⟨hhead, hle⟩ := hs
    have hpos := List.length_pos_of_ne_nil hhead
    unfold queueInsertLast insertLast
    simp only [queueIsEmpty, hne, decide_false, Bool.false_eq_true, if_false, hat.type, if_true,
      hat.headCount, hat.tailCount]
    by_cases heq : head.length = tail.length
    · by_cases hone : head.length = 1
      · -- three items in the new head
        obtain ⟨x, rfl⟩ := List.length_eq_one_iff.mp hone
        obtain ⟨y, rfl⟩ := List.length_eq_one_iff.mp (heq ▸ hone)
        obtain ⟨q, m₁, halloc⟩ : ∃ q m₁, m.allocate wordsInQueueHeader .queue = (q, m₁) :=
          ⟨_, _, rfl⟩
        obtain ⟨w₁, m₂, hw₁⟩ : ∃ w m₂, wcons m₁ (ptrToWord data) nullWord = (w, m₂) := ⟨_, _, rfl⟩
        obtain ⟨w₂, m₃, hw₂⟩ : ∃ w m₃, wcons m₂ y w₁ = (w, m₃) := ⟨_, _, rfl⟩
        obtain ⟨w₃, m₄, hw₃⟩ : ∃ w m₄, wcons m₃ x w₂ = (w, m₄) := ⟨_, _, rfl⟩
        have hb₁ := Building.start halloc (by decide) (hroom _ (by decide))
        obtain ⟨hb₂, -, hlist₁⟩ := hb₁.wcons hw₁ .nil (hroom _ (by decide))
        obtain ⟨hb₃, -, hlist₂⟩ := hb₂.wcons hw₂ hlist₁ (hroom _ (by decide))
        obtain ⟨hb₄, -, hlist₃⟩ := hb₃.wcons hw₃ hlist₂ (hroom _ (by decide))
        have hcar₂ : wcar m₂.words (m₂.words (queue + 2)) = some y := by
          rw [hb₂.grows.agree _ (hcell 2 (by decide))]
          exact (hb₂.list hat.tail).wcar_eq
        have hcar₃ : wcar m₃.words (m₃.words (queue + 1)) = some x := by
          rw [hb₃.grows.agree _ (hcell 1 (by decide))]
          exact (hb₃.list hat.head).wcar_eq
        simp only [heq, List.length_singleton, if_true, halloc, hw₁, hcar₂, hw₂, hcar₃, hw₃,
          Option.bind_eq_bind, Option.bind_some]
        exact returns_plain hb₄ (by decide) hlist₃ .nil
      · -- a transfer starts
        obtain ⟨q, m₁, halloc⟩ : ∃ q m₁,
          m.allocate (wordsInQueueHeader + 6) .queueRev = (q, m₁) := ⟨_, _, rfl⟩
        obtain ⟨w, m₂, hw⟩ : ∃ w m₂, wcons m₁ (ptrToWord data) nullWord = (w, m₂) := ⟨_, _, rfl⟩
        have hb₁ := Building.start halloc (by decide) (hroom _ (by decide))
        obtain ⟨hb₂, -, hlist⟩ := hb₁.wcons hw .nil (hroom _ (by decide))
        have hword : ∀ i < 5, m₂.words (queue + i) = m.words (queue + i) :=
          fun i hi => hb₂.grows.agree _ (hcell i hi)
        have hbuild := transferBuilding_fillCell
          (t := ⟨head, [], head, [], tail, [ptrToWord data], 0, head.length⟩) hb₂
          (hb₂.list hat.head) .nil (hb₂.list hat.head) .nil (hb₂.list hat.tail) hlist
        have hstart := startTransfer_spec hbuild (by omega) heq.symm (by decide) hcan
        simp only [if_pos heq, if_neg hone, halloc, hw, hword 1 (by decide), hword 2 (by decide),
          hword 3 (by decide), hat.headCount]
        exact hstart
    · -- the item is added to the tail
      obtain ⟨q, m₁, halloc⟩ : ∃ q m₁, m.allocate wordsInQueueHeader .queue = (q, m₁) :=
        ⟨_, _, rfl⟩
      have hb₁ := Building.start halloc (by decide) (hroom _ (by decide))
      obtain ⟨w, m₂, hw⟩ : ∃ w m₂, wcons m₁ (ptrToWord data) (m.words (queue + 2)) = (w, m₂) :=
        ⟨_, _, rfl⟩
      obtain ⟨hb₂, -, hlist⟩ := hb₁.wcons hw (hb₁.list hat.tail) (hroom _ (by decide))
      have hword₁ : m₁.words (queue + 2) = m.words (queue + 2) :=
        hb₁.grows.agree _ (hcell 2 (by decide))
      have hword : ∀ i < 5, m₂.words (queue + i) = m.words (queue + i) :=
        fun i hi => hb₂.grows.agree _ (hcell i hi)
      simp only [if_neg heq, halloc, hword₁, hw, hword 1 (by decide), hword 3 (by decide),
        hword 4 (by decide), hat.headCount, hat.tailCount]
      exact returns_plain hb₂ (by decide) (hb₂.list hat.head) hlist
  | transfer t =>
    obtain ⟨hne, hcell, hat⟩ := h
    have ht : t.Inv := hs
    have hrun : Transfer.Running 2 { t with tail := ptrToWord data :: t.tail } :=
      ht.running_tail _
    obtain ⟨q, m₁, halloc⟩ : ∃ q m₁,
      m.allocate (wordsInQueueHeader + 6) .queueRev = (q, m₁) := ⟨_, _, rfl⟩
    have hb₁ := Building.start halloc (by decide) (hroom _ (by decide))
    obtain ⟨w, m₂, hw⟩ : ∃ w m₂, wcons m₁ (ptrToWord data) (m.words (queue + 2)) = (w, m₂) :=
      ⟨_, _, rfl⟩
    obtain ⟨hb₂, -, hlist⟩ := hb₁.wcons hw (hb₁.list hat.tail) (hroom _ (by decide))
    have hword₁ : m₁.words (queue + 2) = m.words (queue + 2) :=
      hb₁.grows.agree _ (hcell 2 (by decide))
    have hword : ∀ i < 11, m₂.words (queue + i) = m.words (queue + i) :=
      fun i hi => hb₂.grows.agree _ (hcell i hi)
    have hbuild := transferBuilding_fillCell (t := { t with tail := ptrToWord data :: t.tail }) hb₂
      (hb₂.list hat.head) hlist (hb₂.list hat.front) (hb₂.list hat.rfront) (hb₂.list hat.back)
      (hb₂.list hat.rback)
    have hmoved : (fillCell q 1 [m.words (queue + 1), w, t.head.length, t.tail.length + 1,
        m.words (queue + 5), m.words (queue + 6), m.words (queue + 7), m.words (queue + 8),
        t.moved, t.size] m₂).words (queue + 9) = t.moved := by
      have hb₃ := hb₂.fillCell (i := 1) [m.words (queue + 1), w, t.head.length,
        t.tail.length + 1, m.words (queue + 5), m.words (queue + 6), m.words (queue + 7),
        m.words (queue + 8), t.moved, t.size] (by decide) (Nat.le_refl 11)
      rw [hb₃.grows.agree _ (hcell 9 (by decide)), hat.moved]
    have hproceed := proceedTransfer_spec hbuild hrun (by decide) hcan
    have hrev : CellType.queueRev.code ≠ CellType.queue.code := by decide
    unfold queueInsertLast insertLast
    simp only [queueIsEmpty, hne, decide_false, Bool.false_eq_true, if_false, hat.type,
      hrev, assert_true, Option.bind_eq_bind, Option.bind_some, halloc, hword₁,
      hw, hword 1 (by decide), hword 3 (by decide), hword 4 (by decide), hword 5 (by decide),
      hword 6 (by decide), hword 7 (by decide), hword 8 (by decide), hword 9 (by decide),
      hword 10 (by decide), hat.headCount, hat.tailCount, hat.moved, hat.size, hmoved]
    exact hproceed

/-- `queue_remove_first`. -/
theorem queueRemoveFirst_spec (h : QueueAt m.words m.Live queue s) (hs : s.Inv)
    (hempty : s ≠ .empty) (hcan : m.canAllocate queueMaxAllocation) :
    Returns m (removeFirst s) (queueRemoveFirst m queue) := by
  have hroom : ∀ k, k ≤ queueMaxAllocation → m.canAllocate k := fun k => canAllocate_of_le hcan
  have hne : queue ≠ nullPtr := fun hq => hempty (h.eq_nullPtr_iff.mp hq)
  have hfirst : cellType (m.words (wordToPtr (m.words (queue + 1)))) = CellType.list.code := by
    obtain ⟨x, xs, hcons⟩ := List.exists_cons_of_ne_nil (hs.head_ne_nil hempty)
    have hlist := (h.head hempty).1
    rw [hcons] at hlist
    exact hlist.cellType_eq
  unfold queueRemoveFirst
  simp only [queueIsEmpty, hne, decide_false, Bool.false_eq_true, not_false_eq_true, assert_true,
    hfirst, Option.bind_eq_bind, Option.bind_some]
  cases s with
  | empty => exact absurd rfl hempty
  | plain head tail =>
    obtain ⟨-, hcell, hat⟩ := h
    obtain ⟨hhead, hle⟩ := hs
    have hpos := List.length_pos_of_ne_nil hhead
    obtain ⟨x, head, rfl⟩ := List.exists_cons_of_ne_nil hhead
    unfold removeFirst
    simp only [hat.type, if_true, hat.headCount, hat.tailCount]
    by_cases heq : (x :: head).length = tail.length
    · by_cases hone : (x :: head).length = 1
      · -- the only item is that of the tail
        obtain ⟨y, rfl⟩ := List.length_eq_one_iff.mp (heq ▸ hone)
        obtain ⟨q, m₁, halloc⟩ : ∃ q m₁, m.allocate wordsInQueueHeader .queue = (q, m₁) :=
          ⟨_, _, rfl⟩
        have hb₁ := Building.start halloc (by decide) (hroom _ (by decide))
        have hword : m₁.words (queue + 2) = m.words (queue + 2) :=
          hb₁.grows.agree _ (hcell 2 (by decide))
        simp only [if_pos heq, if_pos hone, halloc, hword]
        exact returns_plain hb₁ (by decide) (hb₁.list hat.tail) .nil
      · by_cases htwo : (x :: head).length = 2
        · -- three items in the new head
          obtain ⟨y, rfl⟩ := List.length_eq_one_iff.mp (Nat.succ.inj htwo)
          obtain ⟨z₁, z₂, rfl⟩ := List.length_eq_two.mp (heq ▸ htwo)
          obtain ⟨q, m₁, halloc⟩ : ∃ q m₁, m.allocate wordsInQueueHeader .queue = (q, m₁) :=
            ⟨_, _, rfl⟩
          obtain ⟨w₁, m₂, hw₁⟩ : ∃ w m₂, wcons m₁ z₁ nullWord = (w, m₂) := ⟨_, _, rfl⟩
          obtain ⟨w₂, m₃, hw₂⟩ : ∃ w m₃, wcons m₂ z₂ w₁ = (w, m₃) := ⟨_, _, rfl⟩
          obtain ⟨w₃, m₄, hw₃⟩ : ∃ w m₄, wcons m₃ y w₂ = (w, m₄) := ⟨_, _, rfl⟩
          have hb₁ := Building.start halloc (by decide) (hroom _ (by decide))
          obtain ⟨hb₂, -, hlist₁⟩ := hb₁.wcons hw₁ .nil (hroom _ (by decide))
          obtain ⟨hb₃, -, hlist₂⟩ := hb₂.wcons hw₂ hlist₁ (hroom _ (by decide))
          obtain ⟨hb₄, -, hlist₃⟩ := hb₃.wcons hw₃ hlist₂ (hroom _ (by decide))
          have hcar₁ : wcar m₁.words (m₁.words (queue + 2)) = some z₁ := by
            rw [hb₁.grows.agree _ (hcell 2 (by decide))]
            exact (hb₁.list hat.tail).wcar_eq
          have hcadr₂ : (wcdr m₂.words (m₂.words (queue + 2))).bind (wcar m₂.words) = some z₂ := by
            rw [hb₂.grows.agree _ (hcell 2 (by decide))]
            exact (hb₂.list hat.tail).wcadr_eq
          have hcadr₃ : (wcdr m₃.words (m₃.words (queue + 1))).bind (wcar m₃.words) = some y := by
            rw [hb₃.grows.agree _ (hcell 1 (by decide))]
            exact (hb₃.list hat.head).wcadr_eq
          simp only [if_pos heq, if_neg hone, if_pos htwo, halloc, hcar₁, hw₁, hcadr₂, hw₂, hcadr₃,
            hw₃, Option.bind_some]
          exact returns_plain hb₄ (by decide) hlist₃ .nil
        · -- a transfer starts
          obtain ⟨y, tail, rfl⟩ := List.exists_cons_of_length_pos (heq ▸ hpos)
          obtain ⟨q, m₁, halloc⟩ : ∃ q m₁,
            m.allocate (wordsInQueueHeader + 6) .queueRev = (q, m₁) := ⟨_, _, rfl⟩
          obtain ⟨w, m₂, hw⟩ : ∃ w m₂, wcons m₁ y nullWord = (w, m₂) := ⟨_, _, rfl⟩
          have hb₁ := Building.start halloc (by decide) (hroom _ (by decide))
          obtain ⟨hb₂, hconsed, hlist⟩ := hb₁.wcons hw .nil (hroom _ (by decide))
          have hword₁ : ∀ i < 5, m₁.words (queue + i) = m.words (queue + i) :=
            fun i hi => hb₁.grows.agree _ (hcell i hi)
          have hword₂ : ∀ i < 5, m₂.words (queue + i) = m.words (queue + i) :=
            fun i hi => hb₂.grows.agree _ (hcell i hi)
          have hcar := (hb₁.list hat.tail).wcar_eq
          obtain ⟨whead, hwhead, hhead'⟩ := (hb₁.list hat.head).wcdr_eq
          obtain ⟨wback, hwback, hback'⟩ := (hb₂.list hat.tail).wcdr_eq
          have hhead₂ := hhead'.fills hconsed.fills
          have hbuild := transferBuilding_fillCell
            (t := ⟨head, [], head, [], tail, [y], 0, head.length⟩) hb₂
            hhead₂ .nil hhead₂ .nil hback' hlist
          simp only [List.length_cons] at heq hone htwo hpos
          have hstart := startTransfer_spec hbuild (by omega) (by omega) (by decide) hcan
          simp only [List.length_cons, if_pos heq, if_neg hone, if_neg htwo, halloc,
            hword₁ 1 (by decide), hwhead, hword₁ 2 (by decide), hcar, hw,
            hword₂ 2 (by decide), hwback, hword₂ 3 (by decide), hat.headCount,
            Nat.add_sub_cancel, Option.bind_some]
          exact hstart
    · by_cases hone : (x :: head).length = 1
      · -- the queue becomes empty
        simp only [List.length_cons] at heq hle hone
        have htail : tail.length = 0 := by omega
        rw [List.length_cons, if_neg heq, if_neg heq, if_pos hone, if_pos ⟨hone, htail⟩]
        exact ⟨nullPtr, m, rfl, .refl m, Nat.le_add_right _ _, rfl⟩
      · obtain ⟨q, m₁, halloc⟩ : ∃ q m₁, m.allocate wordsInQueueHeader .queue = (q, m₁) :=
          ⟨_, _, rfl⟩
        have hb₁ := Building.start halloc (by decide) (hroom _ (by decide))
        have hword : ∀ i < 5, m₁.words (queue + i) = m.words (queue + i) :=
          fun i hi => hb₁.grows.agree _ (hcell i hi)
        obtain ⟨w, hw, hrest⟩ := (hb₁.list hat.head).wcdr_eq
        simp only [List.length_cons] at heq hone
        rw [List.length_cons, if_neg heq, if_neg heq, if_neg hone, if_neg fun h => hone h.1]
        simp only [halloc, hword 1 (by decide), hw, hword 2 (by decide), hword 3 (by decide),
          hword 4 (by decide), hat.headCount, hat.tailCount, List.length_cons, Nat.add_sub_cancel,
          Option.bind_some]
        exact returns_plain hb₁ (by decide) hrest (hb₁.list hat.tail)
  | transfer t =>
    obtain ⟨-, hcell, hat⟩ := h
    have ht : t.Inv := hs
    obtain ⟨x, head, hcons⟩ := List.exists_cons_of_ne_nil ht.head_ne_nil
    obtain ⟨q, m₁, halloc⟩ : ∃ q m₁,
      m.allocate (wordsInQueueHeader + 6) .queueRev = (q, m₁) := ⟨_, _, rfl⟩
    have hb₁ := Building.start halloc (by decide) (hroom _ (by decide))
    have hword : ∀ i < 11, m₁.words (queue + i) = m.words (queue + i) :=
      fun i hi => hb₁.grows.agree _ (hcell i hi)
    have hlist := hb₁.list hat.head
    rw [hcons] at hlist
    obtain ⟨w, hw, hrest⟩ := hlist.wcdr_eq
    have hcount : t.head.length - 1 = t.head.tail.length := List.length_tail.symm
    have hbuild := transferBuilding_fillCell (t := { t with head := t.head.tail }) hb₁
      (by rw [hcons]; exact hrest) (hb₁.list hat.tail) (hb₁.list hat.front) (hb₁.list hat.rfront)
      (hb₁.list hat.back) (hb₁.list hat.rback)
    have hproceed := proceedTransfer_spec hbuild ht.running_head (by decide) hcan
    have hmoved := hbuild.transfer.moved
    have hrev : CellType.queueRev.code ≠ CellType.queue.code := by decide
    unfold removeFirst
    simp only [hat.type, hrev, if_false, assert_true, Option.bind_some, halloc, hword 1 (by decide),
      hw, hword 2 (by decide), hword 3 (by decide), hword 4 (by decide), hword 5 (by decide),
      hword 6 (by decide), hword 7 (by decide), hword 8 (by decide), hword 9 (by decide),
      hword 10 (by decide), hat.headCount, hat.tailCount, hat.moved, hat.size, hcount]
    simp only at hmoved
    rw [hmoved]
    exact hproceed

end Shades
