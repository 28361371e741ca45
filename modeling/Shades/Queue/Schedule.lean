import Mathlib.Data.List.Basic
import Mathlib.Tactic.Ring

/-!
# Shades.Queue.Schedule

Real-time queues as lists, over any type of items.  The queue is a head, with
the oldest item first, and a tail, with the newest item first.  When the tail
is about to become longer than the head, a transfer starts that makes a new
head of the two.

A transfer reverses the old head and the old tail, some items at a time, and
then moves the items of the reversed head to the front of the reversed tail.
In the meantime items are still removed from the old head, and new items are
added to a new tail.  `Transfer.Inv` says why the transfer is complete before
the old head has run out of items.
-/

namespace RealTimeQueue

variable {α : Type}

/-- A transfer that is not complete.  `front` and `back` are the parts of the
old head and tail that have not been reversed yet, `rfront` and `rback` the
reversed parts; `moved` items were moved from `rfront` to `rback`.  The old head
had `size` items. -/
structure Transfer (α : Type) where
  head : List α
  tail : List α
  front : List α
  rfront : List α
  back : List α
  rback : List α
  moved : Nat
  size : Nat

inductive State (α : Type) where
  | empty
  | plain (head tail : List α)
  | transfer (t : Transfer α)

/-! ## the operations -/

namespace Transfer

/-- Reversing `k` items of the old head. -/
def reverseFront (k : Nat) (t : Transfer α) : Transfer α :=
  { t with
    front := t.front.drop k
    rfront := (t.front.take k).reverse ++ t.rfront }

/-- Reversing `k` items of the old tail. -/
def reverseBack (k : Nat) (t : Transfer α) : Transfer α :=
  { t with
    back := t.back.drop k
    rback := (t.back.take k).reverse ++ t.rback }

/-- `k` rounds of reversing an item of the old head and an item of the old
tail. -/
def reverse (k : Nat) (t : Transfer α) : Transfer α := (t.reverseFront k).reverseBack k

/-- Moving `k` items of the reversed head. -/
def restore (k : Nat) (t : Transfer α) : Transfer α :=
  { t with
    rfront := t.rfront.drop k
    rback := (t.rfront.take k).reverse ++ t.rback
    moved := t.moved + k }

/-- The number of items that one operation moves: two, and one more at first if
the head is odd. -/
def steps (t : Transfer α) : Nat :=
  if t.moved = 0 ∧ t.head.length % 2 = 1 then 1 + min 2 (t.head.length - 1)
  else min 2 (t.head.length - t.moved)

/-- What each operation does for the transfer. -/
def advance (t : Transfer α) : State α :=
  if t.front = [] then
    let t := t.restore t.steps
    if t.head.length = t.moved then .plain t.rback t.tail else .transfer t
  else .transfer (t.reverse 2)

/-- A new transfer for the head `head` and the tail `back`, whose newest items
are in `rback` already. -/
def start (head back rback : List α) : Transfer α :=
  reverse (2 + head.length % 2)
    { head, tail := [], front := head, rfront := [], back, rback, moved := 0, size := head.length }

end Transfer

def insertLast (x : α) : State α → State α
  | .empty => .plain [x] []
  | .plain head tail =>
    if head.length = tail.length then
      if head.length = 1 then .plain (head ++ tail ++ [x]) []
      else .transfer (.start head tail [x])
    else .plain head (x :: tail)
  | .transfer t => Transfer.advance { t with tail := x :: t.tail }

def removeFirst : State α → State α
  | .empty => .empty
  | .plain head tail =>
    if head.length = tail.length then
      if head.length = 1 then .plain tail []
      else if head.length = 2 then .plain (head.tail ++ tail.reverse) []
      else .transfer (.start head.tail tail.tail (tail.take 1))
    else if head.length = 1 then .empty
    else .plain head.tail tail
  | .transfer t => Transfer.advance { t with head := t.head.tail }

/-! ## what a queue means -/

namespace Transfer

/-- The old head and the old tail that are being joined, the oldest item
first. -/
def window (t : Transfer α) : List α :=
  t.rfront.reverse ++ t.front ++ t.back.reverse ++ t.rback

/-- The items of a queue in a transfer. -/
def items (t : Transfer α) : List α := t.head ++ t.window.drop t.size ++ t.tail.reverse

/-- The state of a transfer between its operations, or within one if `slack` is
`2`: what is left of the old head is the end of the window's first half, and
twice the new tail with the items still to be reversed does not exceed the
items left in the head and those moved. -/
structure Running (slack : Nat) (t : Transfer α) : Prop where
  head_le : t.head.length ≤ t.size
  length_window : t.window.length = 2 * t.size + 1
  window_drop : t.window.drop (t.size - t.head.length) = t.head ++ t.window.drop t.size
  progress : t.rfront.length + t.front.length + t.moved = t.size
  front_eq : t.front.length = t.back.length
  even : t.front.length % 2 = 0
  phase : t.front = [] ∨ t.moved = 0
  schedule : 2 * t.tail.length + t.front.length ≤ t.head.length + t.moved + slack
  head_pos : t.front ≠ [] → 0 < t.head.length
  moved_le : t.moved ≤ t.head.length

/-- A transfer between two operations. -/
structure Inv (t : Transfer α) : Prop extends t.Running 0 where
  moved_lt : t.moved < t.head.length

end Transfer

namespace State

/-- The items of a queue, the oldest first. -/
def items : State α → List α
  | .empty => []
  | .plain head tail => head ++ tail.reverse
  | .transfer t => t.items

def head : State α → List α
  | .empty => []
  | .plain head _ => head
  | .transfer t => t.head

def tail : State α → List α
  | .empty => []
  | .plain _ tail => tail
  | .transfer t => t.tail

def Inv : State α → Prop
  | .empty => True
  | .plain head tail => head ≠ [] ∧ tail.length ≤ head.length
  | .transfer t => t.Inv

end State

/-! ## the transfer -/

namespace Transfer

variable {t : Transfer α} {s k : Nat}

theorem drop_take_reverse_add (xs ys : List α) (a b : Nat) :
    ((xs.drop a).take b).reverse ++ ((xs.take a).reverse ++ ys) =
      (xs.take (a + b)).reverse ++ ys := by
  rw [List.take_add, List.reverse_append, List.append_assoc]

theorem reverseFront_reverseFront (t : Transfer α) (a b : Nat) :
    (t.reverseFront a).reverseFront b = t.reverseFront (a + b) := by
  simp only [reverseFront, List.drop_drop, drop_take_reverse_add]

theorem reverseBack_reverseBack (t : Transfer α) (a b : Nat) :
    (t.reverseBack a).reverseBack b = t.reverseBack (a + b) := by
  simp only [reverseBack, List.drop_drop, drop_take_reverse_add]

theorem reverse_reverse (t : Transfer α) (a b : Nat) :
    (t.reverse a).reverse b = t.reverse (a + b) := by
  simp only [reverse, reverseFront, reverseBack, List.drop_drop, drop_take_reverse_add]

theorem restore_restore (t : Transfer α) (a b : Nat) :
    (t.restore a).restore b = t.restore (a + b) := by
  simp only [restore, List.drop_drop, drop_take_reverse_add, Nat.add_assoc]

/-- Reversing keeps the window. -/
theorem window_reverse (t : Transfer α) (k : Nat) : (t.reverse k).window = t.window := by
  have hfront := List.take_append_drop k t.front
  have hback : t.back.reverse = (t.back.drop k).reverse ++ (t.back.take k).reverse := by
    rw [← List.reverse_append, List.take_append_drop]
  simp only [window, reverse, reverseFront, reverseBack, List.reverse_append,
    List.reverse_reverse, List.append_assoc]
  rw [hback, ← List.append_assoc (t.front.take k), hfront, List.append_assoc]

/-- Moving keeps the window when everything has been reversed. -/
theorem window_restore (hfront : t.front = []) (hback : t.back = []) (k : Nat) :
    (t.restore k).window = t.window := by
  have hrfront : t.rfront.reverse = (t.rfront.drop k).reverse ++ (t.rfront.take k).reverse := by
    rw [← List.reverse_append, List.take_append_drop]
  simp [window, restore, hfront, hback, hrfront]

/-- A round of reversing in each operation pays for the item added or
removed. -/
theorem Running.reverse (h : t.Running 2) (hfront : t.front ≠ []) : (t.reverse 2).Inv := by
  have hlen := List.length_pos_of_ne_nil hfront
  have heven := h.even
  have hback := h.front_eq
  have hmoved : t.moved = 0 := h.phase.resolve_left hfront
  have hhead := h.head_pos hfront
  have hschedule := h.schedule
  have hprogress := h.progress
  have hwindow := window_reverse t 2
  refine ⟨⟨h.head_le, ?_, ?_, ?_, ?_, ?_, .inr hmoved, ?_, fun _ => hhead, h.moved_le⟩, ?_⟩
  · rw [hwindow]
    exact h.length_window
  · rw [hwindow]
    exact h.window_drop
  · simp only [Transfer.reverse, reverseFront, reverseBack, List.length_append,
      List.length_reverse, List.length_take, List.length_drop]
    omega
  · simp only [Transfer.reverse, reverseFront, reverseBack, List.length_drop]
    omega
  · simp only [Transfer.reverse, reverseFront, reverseBack, List.length_drop]
    omega
  · simp only [Transfer.reverse, reverseFront, reverseBack, List.length_drop]
    omega
  · simp only [Transfer.reverse, reverseFront, reverseBack]
    omega

/-- Where the moving stands after an operation. -/
theorem steps_spec (h : t.Running 2) :
    t.moved + t.steps ≤ t.head.length ∧
      (t.moved + t.steps = t.head.length ∨ t.moved + 2 ≤ t.moved + t.steps) := by
  have hle := h.moved_le
  unfold steps
  split <;> omega

/-- Two items moved pay for the item added or removed. -/
theorem Running.restore (h : t.Running 2) (hfront : t.front = []) (hs : 2 ≤ s + t.steps) :
    (t.restore t.steps).Running s := by
  obtain ⟨hsteps, -⟩ := steps_spec h
  have hback : t.back = [] := List.eq_nil_of_length_eq_zero (by rw [← h.front_eq, hfront]; rfl)
  have hwindow := window_restore hfront hback t.steps
  have hprogress := h.progress
  have hschedule := h.schedule
  have hhead := h.head_le
  rw [hfront] at hprogress hschedule
  refine ⟨h.head_le, ?_, ?_, ?_, h.front_eq, h.even, .inl hfront, ?_, h.head_pos, hsteps⟩
  · rw [hwindow]
    exact h.length_window
  · rw [hwindow]
    exact h.window_drop
  · simp only [Transfer.restore, hfront, List.length_drop, List.length_nil] at hprogress ⊢
    omega
  · simp only [Transfer.restore, hfront, List.length_nil] at hschedule ⊢
    omega

/-- When the items of the old head have been moved, the reversed tail with these
items is the new head. -/
theorem Running.complete (h : t.Running s) (hfront : t.front = [])
    (hmoved : t.head.length = t.moved) : t.rback = t.head ++ t.window.drop t.size := by
  have hback : t.back = [] := List.eq_nil_of_length_eq_zero (by rw [← h.front_eq, hfront]; rfl)
  have hprogress := h.progress
  rw [hfront, List.length_nil] at hprogress
  have hlen : t.rfront.reverse.length = t.size - t.head.length := by
    rw [List.length_reverse]
    omega
  rw [← h.window_drop, ← hlen]
  simp [window, hfront, hback]

/-- Each operation keeps the transfer going or completes it in time, and does
not change the items. -/
theorem Running.advance (h : t.Running 2) : t.advance.Inv ∧ t.advance.items = t.items := by
  unfold Transfer.advance
  by_cases hfront : t.front = []
  · have hback : t.back = [] := List.eq_nil_of_length_eq_zero (by rw [← h.front_eq, hfront]; rfl)
    have hitems : (t.restore t.steps).items = t.items := by
      unfold items
      rw [window_restore hfront hback]
      rfl
    simp only [if_pos hfront]
    by_cases hdone : (t.restore t.steps).head.length = (t.restore t.steps).moved
    · have hrun := h.restore (s := 2) hfront (by omega)
      have hcomplete := hrun.complete hfront hdone
      have hlen := congrArg List.length hcomplete
      have hwindow := hrun.length_window
      have hschedule := hrun.schedule
      have hhead := hrun.head_le
      rw [List.length_append, List.length_drop, hwindow] at hlen
      rw [if_pos hdone]
      refine ⟨⟨fun hnil => ?_, by omega⟩, ?_⟩
      · rw [hnil, List.length_nil] at hlen
        omega
      · rw [← hitems]
        simp only [State.items, items]
        rw [hcomplete]
    · obtain ⟨hle, hcases⟩ := steps_spec h
      simp only [Transfer.restore] at hdone
      have hrun := h.restore (s := 0) hfront (by omega)
      rw [if_neg (by simpa only [Transfer.restore] using hdone)]
      refine ⟨⟨hrun, ?_⟩, hitems⟩
      simp only [Transfer.restore]
      omega
  · rw [if_neg hfront]
    refine ⟨h.reverse hfront, ?_⟩
    simp only [State.items, items]
    rw [window_reverse]
    rfl

/-- A transfer that has just started. -/
theorem start_spec (head back rback : List α) (hhead : 2 ≤ head.length)
    (hback : back.length = head.length) (hrback : rback.length = 1) :
    (start head back rback).Inv ∧
      (start head back rback).items = head ++ (back.reverse ++ rback) := by
  have hwindow : (start head back rback).window = head ++ (back.reverse ++ rback) := by
    unfold start
    rw [window_reverse]
    simp [window]
  have hdrop : (head ++ (back.reverse ++ rback)).drop head.length = back.reverse ++ rback := by simp
  refine ⟨⟨⟨Nat.le_refl _, ?_, ?_, ?_, ?_, ?_, .inr rfl, ?_, fun _ => ?_, Nat.zero_le _⟩, ?_⟩, ?_⟩
  · rw [hwindow]
    simp only [start, reverse, reverseFront, reverseBack, List.length_append, List.length_reverse]
    omega
  · rw [hwindow]
    simp [start, reverse, reverseFront, reverseBack]
  · simp only [start, reverse, reverseFront, reverseBack, List.length_append,
      List.length_reverse, List.length_take,
      List.length_drop, List.length_nil]
    omega
  · simp only [start, reverse, reverseFront, reverseBack, List.length_drop]
    omega
  · simp only [start, reverse, reverseFront, reverseBack, List.length_drop]
    omega
  · simp only [start, reverse, reverseFront, reverseBack, List.length_drop, List.length_nil]
    omega
  · simp only [start, reverse, reverseFront, reverseBack]
    omega
  · simp only [start, reverse, reverseFront, reverseBack]
    omega
  · unfold items
    rw [hwindow]
    simp [start, reverse, reverseFront, reverseBack]

theorem Inv.head_ne_nil (h : t.Inv) : t.head ≠ [] :=
  List.ne_nil_of_length_pos (Nat.zero_lt_of_lt h.moved_lt)

/-- An item is added to the tail. -/
theorem Inv.running_tail (h : t.Inv) (x : α) : Running 2 { t with tail := x :: t.tail } :=
  { h.toRunning with
    schedule := by
      have := h.schedule
      simp only [List.length_cons]
      omega }

/-- The first item is removed from the head. -/
theorem Inv.running_head (h : t.Inv) : Running 2 { t with head := t.head.tail } :=
  { h.toRunning with
    head_le := by
      have := h.head_le
      simp only [List.length_tail]
      omega
    window_drop := by
      have hlt := h.moved_lt
      have hle := h.head_le
      obtain ⟨x, head, hcons⟩ := List.exists_cons_of_ne_nil h.head_ne_nil
      have hsub : t.size - t.head.tail.length = t.size - t.head.length + 1 := by
        rw [List.length_tail]
        omega
      show t.window.drop (t.size - t.head.tail.length) = _
      rw [hsub, ← List.drop_drop, h.window_drop, hcons]
      rfl
    schedule := by
      have := h.schedule
      simp only [List.length_tail]
      omega
    head_pos := by
      intro hfront
      have hlen := List.length_pos_of_ne_nil hfront
      have heven := h.even
      have hmoved := h.phase.resolve_left hfront
      have := h.schedule
      simp only [List.length_tail] at hlen heven ⊢
      omega
    moved_le := by
      have := h.moved_lt
      simp only [List.length_tail]
      omega }

end Transfer

/-! ## the operations on queues -/

theorem insertLast_spec (x : α) {q : State α} (h : q.Inv) :
    (insertLast x q).Inv ∧ (insertLast x q).items = q.items ++ [x] := by
  cases q with
  | empty => exact ⟨⟨by simp, by simp⟩, rfl⟩
  | plain head tail =>
    obtain ⟨hhead, hle⟩ := h
    have hpos := List.length_pos_of_ne_nil hhead
    unfold insertLast
    by_cases heq : head.length = tail.length
    · by_cases hone : head.length = 1
      · obtain ⟨y, rfl⟩ := List.length_eq_one_iff.mp (heq ▸ hone)
        simp only [if_pos heq, if_pos hone]
        exact ⟨⟨by simp, by simp⟩, by simp [State.items]⟩
      · obtain ⟨hinv, hitems⟩ := Transfer.start_spec head tail [x] (by omega) heq.symm rfl
        simp only [if_pos heq, if_neg hone]
        refine ⟨hinv, ?_⟩
        simp only [State.items, hitems, List.append_assoc]
    · simp only [if_neg heq]
      refine ⟨⟨hhead, ?_⟩, by simp [State.items]⟩
      rw [List.length_cons]
      omega
  | transfer t =>
    have ht : t.Inv := h
    obtain ⟨hinv, hitems⟩ := (ht.running_tail x).advance
    refine ⟨hinv, ?_⟩
    unfold insertLast
    rw [hitems]
    simp [Transfer.items, State.items, Transfer.window]

theorem removeFirst_spec {q : State α} (h : q.Inv) (hq : q ≠ .empty) :
    (removeFirst q).Inv ∧ (removeFirst q).items = q.items.tail := by
  cases q with
  | empty => exact absurd rfl hq
  | plain head tail =>
    obtain ⟨hhead, hle⟩ := h
    obtain ⟨x, head, rfl⟩ := List.exists_cons_of_ne_nil hhead
    unfold removeFirst
    by_cases heq : (x :: head).length = tail.length
    · by_cases hone : (x :: head).length = 1
      · obtain ⟨y, rfl⟩ := List.length_eq_one_iff.mp (heq ▸ hone)
        obtain rfl : head = [] := List.eq_nil_of_length_eq_zero (by simpa using hone)
        simp only [if_pos heq, if_pos hone]
        exact ⟨⟨by simp, by simp⟩, by simp [State.items]⟩
      · by_cases htwo : (x :: head).length = 2
        · simp only [if_pos heq, if_neg hone, if_pos htwo]
          refine ⟨⟨?_, by simp⟩, by simp [State.items]⟩
          intro hnil
          have hlen : (head ++ tail.reverse).length = 0 := congrArg List.length hnil
          rw [List.length_append, List.length_reverse, ← heq, htwo] at hlen
          omega
        · cases tail with
          | nil => simp at heq
          | cons y tail =>
            simp only [List.length_cons] at heq hone htwo
            obtain ⟨hinv, hitems⟩ := Transfer.start_spec head tail [y]
              (by omega) (by omega) rfl
            simp only [List.length_cons, if_pos heq, if_neg hone, if_neg htwo, List.tail_cons,
              List.take_succ_cons, List.take_zero]
            refine ⟨hinv, ?_⟩
            simp only [State.items, hitems, List.reverse_cons, List.cons_append, List.tail_cons]
    · simp only [if_neg heq]
      by_cases hone : (x :: head).length = 1
      · obtain rfl : head = [] := List.eq_nil_of_length_eq_zero (by simpa using hone)
        obtain rfl : tail = [] := List.eq_nil_of_length_eq_zero (by
          simp only [List.length_cons, List.length_nil] at heq hle
          omega)
        exact ⟨trivial, rfl⟩
      · simp only [if_neg hone, List.tail_cons]
        simp only [List.length_cons] at heq hle hone
        refine ⟨⟨?_, by omega⟩, rfl⟩
        rintro rfl
        simp at hone
  | transfer t =>
    have ht : t.Inv := h
    obtain ⟨x, head, hcons⟩ := List.exists_cons_of_ne_nil ht.head_ne_nil
    obtain ⟨hinv, hitems⟩ := ht.running_head.advance
    refine ⟨hinv, ?_⟩
    unfold removeFirst
    rw [hitems]
    simp [Transfer.items, State.items, Transfer.window, hcons]

/-- The head has an item as long as the queue does. -/
theorem State.Inv.head_ne_nil {q : State α} (h : q.Inv) (hq : q ≠ .empty) : q.head ≠ [] := by
  cases q with
  | empty => exact absurd rfl hq
  | plain head tail => exact h.1
  | transfer t =>
    have ht : t.Inv := h
    exact List.ne_nil_of_length_pos (Nat.zero_lt_of_lt ht.moved_lt)

/-- The head is never shorter than the tail. -/
theorem State.Inv.tail_le {q : State α} (h : q.Inv) : q.tail.length ≤ q.head.length := by
  cases q with
  | empty => exact Nat.le_refl _
  | plain head tail => exact h.2
  | transfer t =>
    have ht : t.Inv := h
    have hschedule := ht.schedule
    have hlt := ht.moved_lt
    simp only [State.tail, State.head]
    omega

/-- The items start with those of the head. -/
theorem State.items_eq (q : State α) : ∃ rest, q.items = q.head ++ rest := by
  cases q with
  | empty => exact ⟨[], rfl⟩
  | plain head tail => exact ⟨_, rfl⟩
  | transfer t => exact ⟨_, List.append_assoc _ _ _⟩

end RealTimeQueue
