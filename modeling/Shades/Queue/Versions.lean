import Shades.Persistent
import Shades.Queue.Operations

/-!
# Shades.Queue.Versions

Queues are never changed in place: each operation makes a new version of a
queue, and any version may be used again.  A version stands for the list of the
data that were inserted and not yet removed, the oldest first.
-/

namespace Shades

open RealTimeQueue Memory

/-- A queue and the data in it. -/
abbrev QueueVersion := Persistent.Version Nat (List Nat)

/-- A call of `queue_insert_last`, or one of `queue_remove_first` on a queue
that is not empty. -/
inductive QueueCall : Memory → QueueVersion → Memory → QueueVersion → Prop
  | insertLast {m m' : Memory} {v : QueueVersion} {data q : Nat}
      (hcan : m.canAllocate queueMaxAllocation)
      (hrun : queueInsertLast m v.root data = some (q, m')) :
      QueueCall m v m' ⟨q, v.value ++ [data]⟩
  | removeFirst {m m' : Memory} {v : QueueVersion} {q : Nat} (hne : v.value ≠ [])
      (hcan : m.canAllocate queueMaxAllocation)
      (hrun : queueRemoveFirst m v.root = some (q, m')) :
      QueueCall m v m' ⟨q, v.value.tail⟩

/-- The histories that start with the empty queue. -/
def QueueRun (m : Memory) (h : Persistent.History Memory Nat (List Nat)) : Prop :=
  Persistent.Run Memory.Extends QueueCall m [⟨nullPtr, []⟩] h

/-- A queue in memory stands for a state whose items are the data. -/
def QueueHolds (m : Memory) (v : QueueVersion) : Prop :=
  ∃ s, QueueAt m.words m.Live v.root s ∧ s.Inv ∧ s.items = v.value.map ptrToWord

section calls

variable {m m' : Memory} {v v' : QueueVersion}

theorem items_eq_nil {s : State Nat} (hs : s.Inv) : s.items = [] ↔ s = .empty := by
  constructor
  · intro hitems
    by_contra hne
    obtain ⟨rest, hrest⟩ := s.items_eq
    rw [hitems] at hrest
    exact hs.head_ne_nil hne (List.append_eq_nil_iff.mp hrest.symm).1
  · rintro rfl
    rfl

/-- The state of a version is empty if it has no data. -/
theorem QueueHolds.empty_iff {s : State Nat} (hs : s.Inv)
    (hitems : s.items = v.value.map ptrToWord) : v.value = [] ↔ s = .empty := by
  rw [← items_eq_nil hs, hitems, List.map_eq_nil_iff]

/-- `queue_insert_last` on a version. -/
theorem QueueHolds.insertLast (h : QueueHolds m v) (hcan : m.canAllocate queueMaxAllocation)
    (data : Nat) :
    ∃ q m', queueInsertLast m v.root data = some (q, m') ∧ m.Extends m' ∧
      m.allocationPtr ≤ m'.allocationPtr + queueMaxAllocation ∧
      QueueHolds m' ⟨q, v.value ++ [data]⟩ := by
  obtain ⟨s, hat, hs, hitems⟩ := h
  obtain ⟨q, m', hrun, hext, hptr, hat'⟩ := queueInsertLast_spec hat hs hcan data
  obtain ⟨hs', hitems'⟩ := insertLast_spec (ptrToWord data) hs
  refine ⟨q, m', hrun, hext, hptr, _, hat', hs', ?_⟩
  rw [hitems', hitems, List.map_append]
  rfl

/-- `queue_remove_first` on a version. -/
theorem QueueHolds.removeFirst (h : QueueHolds m v) (hne : v.value ≠ [])
    (hcan : m.canAllocate queueMaxAllocation) :
    ∃ q m', queueRemoveFirst m v.root = some (q, m') ∧ m.Extends m' ∧
      m.allocationPtr ≤ m'.allocationPtr + queueMaxAllocation ∧
      QueueHolds m' ⟨q, v.value.tail⟩ := by
  obtain ⟨s, hat, hs, hitems⟩ := h
  have hempty : s ≠ .empty := fun h => hne ((QueueHolds.empty_iff hs hitems).mpr h)
  obtain ⟨q, m', hrun, hext, hptr, hat'⟩ := queueRemoveFirst_spec hat hs hempty hcan
  obtain ⟨hs', hitems'⟩ := removeFirst_spec hs hempty
  refine ⟨q, m', hrun, hext, hptr, _, hat', hs', ?_⟩
  rw [hitems', hitems, List.map_tail]

/-- `QUEUE_GET_FIRST` on a version. -/
theorem QueueHolds.getFirst (h : QueueHolds m v) {x : Nat} (hx : v.value.head? = some x) :
    queueGetFirst m.words v.root = some x := by
  obtain ⟨s, hat, hs, hitems⟩ := h
  obtain ⟨xs, hxs⟩ := List.head?_eq_some_iff.mp hx
  have hempty : s ≠ .empty := fun h => by
    have := (QueueHolds.empty_iff hs hitems).mpr h
    rw [hxs] at this
    cases this
  obtain ⟨y, ys, hcons⟩ := List.exists_cons_of_ne_nil (hs.head_ne_nil hempty)
  obtain ⟨rest, hrest⟩ := s.items_eq
  rw [hitems, hxs, hcons, List.map_cons, List.cons_append] at hrest
  refine queueGetFirst_eq hat ?_
  rw [hcons, List.head?_cons, (List.cons.inj hrest).1]

/-- What is added to the memory does not change a version, and a call makes a
version that holds the right data. -/
theorem queue_preserved : Persistent.Preserved Memory.Extends QueueCall QueueHolds where
  frame := by
    rintro m m' v hext ⟨s, hat, hs⟩
    exact ⟨s, hat.frame hext.agree fun _ => hext.live, hs⟩
  call := by
    intro m m' v v' hcall h
    cases hcall with
    | insertLast hcan hrun =>
      obtain ⟨q, m'', hrun', hext, -, hholds⟩ := h.insertLast hcan _
      rw [hrun] at hrun'
      obtain ⟨rfl, rfl⟩ := Prod.mk.inj (Option.some.inj hrun')
      exact ⟨hext, hholds⟩
    | removeFirst hne hcan hrun =>
      obtain ⟨q, m'', hrun', hext, -, hholds⟩ := h.removeFirst hne hcan
      rw [hrun] at hrun'
      obtain ⟨rfl, rfl⟩ := Prod.mk.inj (Option.some.inj hrun')
      exact ⟨hext, hholds⟩

end calls

/-- The lists of a queue that is not empty: the head is not empty and not
shorter than the tail, and as long as a transfer is going on fewer items have
been moved than are left in the head. -/
def Balanced (words : Nat → Nat) (S : Nat → Prop) (q : Nat) : Prop :=
  ∃ head tail, ListAt words S (words (q + 1)) head ∧ ListAt words S (words (q + 2)) tail ∧
    words (q + 3) = head.length ∧ words (q + 4) = tail.length ∧ head ≠ [] ∧
    tail.length ≤ head.length ∧
    (cellType (words q) = CellType.queueRev.code → words (q + 9) < head.length)

theorem QueueAt.balanced {words : Nat → Nat} {S : Nat → Prop} {q : Nat} {s : State Nat}
    (h : QueueAt words S q s) (hs : s.Inv) (hempty : s ≠ .empty) : Balanced words S q := by
  obtain ⟨hhead, hheadCount⟩ := h.head hempty
  obtain ⟨htail, htailCount⟩ := h.tail hempty
  refine ⟨_, _, hhead, htail, hheadCount, htailCount, hs.head_ne_nil hempty, hs.tail_le, ?_⟩
  intro htype
  cases s with
  | empty => exact absurd rfl hempty
  | plain xs ys =>
    rw [h.2.2.type] at htype
    exact absurd htype (by decide)
  | transfer t =>
    have ht : t.Inv := hs
    rw [h.2.2.moved]
    exact ht.moved_lt

/-- In every history of insertions and removals on any versions of a queue, the
first item of each version is the oldest that was not removed, the head never
runs out of items while a transfer goes on and is never shorter than the tail,
and both operations can be called again and allocate at most
`QUEUE_MAX_ALLOCATION` words. -/
theorem queue_histories {m : Memory} {h : Persistent.History Memory Nat (List Nat)}
    (hrun : QueueRun m h) :
    ∀ v ∈ h.versions,
      (queueIsEmpty v.root = true ↔ v.value = []) ∧
      (∀ x, v.value.head? = some x → queueGetFirst h.store.words v.root = some x) ∧
      (v.value ≠ [] → Balanced h.store.words h.store.Live v.root) ∧
      (∀ data, h.store.canAllocate queueMaxAllocation →
        ∃ q m', queueInsertLast h.store v.root data = some (q, m') ∧ h.store.Extends m' ∧
          h.store.allocationPtr ≤ m'.allocationPtr + queueMaxAllocation) ∧
      (v.value ≠ [] → h.store.canAllocate queueMaxAllocation →
        ∃ q m', queueRemoveFirst h.store v.root = some (q, m') ∧ h.store.Extends m' ∧
          h.store.allocationPtr ≤ m'.allocationPtr + queueMaxAllocation) := by
  have hinit : ∀ v ∈ [(⟨nullPtr, []⟩ : QueueVersion)], QueueHolds m v := by
    intro v hv
    obtain rfl := List.mem_singleton.mp hv
    exact ⟨.empty, rfl, trivial, rfl⟩
  intro v hv
  have hholds : QueueHolds h.store v := queue_preserved.run hrun hinit v hv
  refine ⟨?_, fun x => hholds.getFirst, ?_, ?_, ?_⟩
  · obtain ⟨s, hat, hs, hitems⟩ := hholds
    rw [QueueHolds.empty_iff hs hitems, ← hat.eq_nullPtr_iff]
    simp [queueIsEmpty]
  · intro hne
    obtain ⟨s, hat, hs, hitems⟩ := hholds
    exact hat.balanced hs fun h => hne ((QueueHolds.empty_iff hs hitems).mpr h)
  · intro data hcan
    obtain ⟨q, m', hcall, hext, hptr, -⟩ := hholds.insertLast hcan data
    exact ⟨q, m', hcall, hext, hptr⟩
  · intro hne hcan
    obtain ⟨q, m', hcall, hext, hptr, -⟩ := hholds.removeFirst hne hcan
    exact ⟨q, m', hcall, hext, hptr⟩

/-- Two items are inserted in the empty queue. -/
theorem queue_histories_two : ∃ h v, v ∈ Persistent.History.versions h ∧
    QueueRun (smallMemory []) h ∧ v.value = [7, 8] ∧
    queueGetFirst h.store.words v.root = some 7 := by
  have hcan : (smallMemory []).canAllocate queueMaxAllocation := by decide
  obtain ⟨q, m, hfirst, hext, hptr⟩ :=
    (queue_histories (m := smallMemory []) .refl _ List.mem_cons_self).2.2.2.1 7 hcan
  have hrun : QueueRun (smallMemory []) ⟨m, [⟨q, [7]⟩, ⟨nullPtr, []⟩]⟩ :=
    .single (.call List.mem_cons_self (.insertLast hcan hfirst))
  have hcan' : m.canAllocate queueMaxAllocation := by
    have hend := hext.firstGenerationEnd_eq
    simp only [smallMemory] at hend hptr
    unfold canAllocate
    rw [hend]
    simp only [queueMaxAllocation, wordsInQueueHeader] at hptr ⊢
    omega
  obtain ⟨q', m', hsecond, -⟩ :=
    (queue_histories hrun _ List.mem_cons_self).2.2.2.1 8 hcan'
  have hrun' : QueueRun (smallMemory []) ⟨m', [⟨q', [7, 8]⟩, ⟨q, [7]⟩, ⟨nullPtr, []⟩]⟩ :=
    hrun.tail (.call List.mem_cons_self (.insertLast hcan' hsecond))
  exact ⟨_, _, List.mem_cons_self, hrun', rfl,
    (queue_histories hrun' _ List.mem_cons_self).2.1 7 rfl⟩

end Shades
