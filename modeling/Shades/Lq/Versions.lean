import Shades.Persistent
import Shades.Lq.Remove

/-!
# Shades.Lq.Versions

A logarithmic queue is never changed in place: each operation makes a new
version, and any version may be used again.  A version stands for the list of the
items that were inserted and not yet removed, the oldest first.

An address is a word of 32 bits that counts bytes, so the memory has at most
`2 ^ 30` words.  Each item takes some of them, which bounds the heights.
-/

namespace Shades

open SkewForest Memory

/-- A queue and the items in it. -/
abbrev LqVersion := Persistent.Version Nat (List Nat)

/-- A call of one of the operations. -/
inductive LqCall : Memory → LqVersion → Memory → LqVersion → Prop
  | insertLast {m m' : Memory} {v : LqVersion} {data q : Nat}
      (hcan : m.canAllocate lqInsertMaxAllocation)
      (hrun : lqInsertLast m v.root data = some (q, m')) : LqCall m v m' ⟨q, v.value ++ [data]⟩
  | removeFirst {m m' : Memory} {v : LqVersion} {q : Nat}
      (hcan : m.canAllocate lqRemoveMaxAllocation)
      (hrun : lqRemoveFirst m v.root = some (q, m')) : LqCall m v m' ⟨q, v.value.tail⟩

/-- The histories that start with the empty queue. -/
def LqRun (m : Memory) (h : Persistent.History Memory Nat (List Nat)) : Prop :=
  Persistent.Run Memory.Extends LqCall m [⟨nullPtr, []⟩] h

/-- The number of words that have an address. -/
def addressSpace : Nat := 2 ^ 30

/-- A queue of trees in memory with the items of the version. -/
def LqTrees (m : Memory) (v : LqVersion) : Prop :=
  ∃ Q, LqAt m.words m.Live Q v.root ∧ Q.Ordered ∧ Q.contents = v.value

/-- Each item took at least two of the words above the allocation pointer. -/
def LqHolds (m : Memory) (v : LqVersion) : Prop :=
  2 * v.value.length + m.allocationPtr ≤ addressSpace ∧ LqTrees m v

variable {m m' : Memory} {v : LqVersion} {Q : SkewQueue Nat}

/-- The trees of a queue that fits in the memory are low. -/
theorem height_lt_of_fits (hfits : 2 * Q.contents.length + m.allocationPtr ≤ addressSpace)
    (hord : Q.Ordered) (t : SkewTree Nat) (ht : t ∈ Q.head ∨ t ∈ Q.tail) :
    t.height < lqHeight := by
  refine hord.height_lt ?_ ht
  unfold addressSpace at hfits
  unfold lqHeight
  omega

/-- `lq_insert_last` on a version. -/
theorem LqHolds.insertLast (h : LqHolds m v) (hcan : m.canAllocate lqInsertMaxAllocation)
    (data : Nat) :
    ∃ q m', lqInsertLast m v.root data = some (q, m') ∧ m.Extends m' ∧
      m.allocationPtr ≤ m'.allocationPtr + lqInsertMaxAllocation ∧
      LqHolds m' ⟨q, v.value ++ [data]⟩ := by
  obtain ⟨hfits, Q, hQ, hord, hcontents⟩ := h
  rw [← hcontents] at hfits
  have hheight : ∀ t ∈ Q.tail, t.height + 1 < 2 ^ 24 := fun t ht => by
    have hlt := height_lt_of_fits hfits hord t (.inr ht)
    unfold lqHeight at hlt
    omega
  rw [← closed_nil] at hQ
  obtain ⟨q, m', n, hrun, hf', htook, hn, hQ'⟩ :=
    lqInsertLast_spec (.refl (canAllocate_mono hcan (Nat.zero_le _))) hQ hord hheight hcan data
  rw [closed_nil] at hQ'
  have hptr := htook.allocationPtr_eq
  have hnew : (Q.insertLast data).contents = v.value ++ [data] := by
    rw [SkewQueue.contents_insertLast, hcontents]
  refine ⟨q, m', hrun, hf'.extends, by omega, ?_, _, hQ', hord.insertLast data, hnew⟩
  rw [hcontents] at hfits
  rw [List.length_append, List.length_singleton]
  omega

/-- `lq_remove_first` on a version. -/
theorem LqHolds.removeFirst (h : LqHolds m v) (hcan : m.canAllocate lqRemoveMaxAllocation) :
    ∃ q m', lqRemoveFirst m v.root = some (q, m') ∧ m.Extends m' ∧
      m.allocationPtr ≤ m'.allocationPtr + lqRemoveMaxAllocation ∧
      LqHolds m' ⟨q, v.value.tail⟩ := by
  obtain ⟨hfits, Q, hQ, hord, hcontents⟩ := h
  rw [← hcontents] at hfits
  rw [← closed_nil] at hQ
  obtain ⟨q, m', hrun, hf', hspends, hQ'⟩ := lqRemoveFirst_spec
    (.refl (canAllocate_mono hcan (Nat.zero_le _))) hQ hord (height_lt_of_fits hfits hord) hcan
  rw [closed_nil] at hQ'
  have hptr := hf'.extends.allocationPtr_le
  refine ⟨q, m', hrun, hf'.extends, hspends.allocationPtr_le, ?_, _, hQ', hord.removeFirst, ?_⟩
  · rw [hcontents] at hfits
    rw [List.length_tail]
    omega
  · rw [SkewQueue.contents_removeFirst, hcontents]

/-- What is added to the memory does not change a version, and a call makes a
version that holds the right items. -/
theorem lq_preserved : Persistent.Preserved Memory.Extends LqCall LqHolds where
  frame := by
    rintro m m' v hext ⟨hfits, Q, hQ, hQ'⟩
    exact ⟨Nat.le_trans (Nat.add_le_add_left hext.allocationPtr_le _) hfits, Q,
      hQ.frame hext.agree fun _ => hext.live, hQ'⟩
  call := by
    intro m m' v v' hcall h
    cases hcall with
    | insertLast hcan hrun =>
      obtain ⟨q, m'', hrun', hext, -, hholds⟩ := h.insertLast hcan _
      rw [hrun] at hrun'
      obtain ⟨rfl, rfl⟩ := Prod.mk.inj (Option.some.inj hrun')
      exact ⟨hext, hholds⟩
    | removeFirst hcan hrun =>
      obtain ⟨q, m'', hrun', hext, -, hholds⟩ := h.removeFirst hcan
      rw [hrun] at hrun'
      obtain ⟨rfl, rfl⟩ := Prod.mk.inj (Option.some.inj hrun')
      exact ⟨hext, hholds⟩

/-- The history starts with the empty queue. -/
theorem LqHolds.empty (hmem : m.allocationPtr ≤ addressSpace) :
    ∀ v ∈ [(⟨nullPtr, []⟩ : LqVersion)], LqHolds m v := by
  intro v hv
  obtain rfl := List.mem_singleton.mp hv
  exact ⟨by simpa using hmem, ⟨[], []⟩, .inl ⟨rfl, rfl, rfl⟩, ⟨by simp, by simp, trivial⟩, rfl⟩

/-- In every history of insertions and removals in any versions of a queue each
version is made of perfect trees whose heights in the tail are skew, with the
items in the order of their insertion; an insertion adds its item at the end, a
removal takes the oldest item away and keeps the others in their order, and
neither violates an assertion or takes more words than it promises. -/
theorem lq_histories {h : Persistent.History Memory Nat (List Nat)}
    (hmem : m.allocationPtr ≤ addressSpace) (hrun : LqRun m h) :
    ∀ v ∈ h.versions,
      LqTrees h.store v ∧
      (∀ data, h.store.canAllocate lqInsertMaxAllocation →
        ∃ q m', lqInsertLast h.store v.root data = some (q, m') ∧ h.store.Extends m' ∧
          h.store.allocationPtr ≤ m'.allocationPtr + lqInsertMaxAllocation ∧
          LqTrees m' ⟨q, v.value ++ [data]⟩) ∧
      (h.store.canAllocate lqRemoveMaxAllocation →
        ∃ q m', lqRemoveFirst h.store v.root = some (q, m') ∧ h.store.Extends m' ∧
          h.store.allocationPtr ≤ m'.allocationPtr + lqRemoveMaxAllocation ∧
          LqTrees m' ⟨q, v.value.tail⟩) := by
  intro v hv
  have hholds : LqHolds h.store v := lq_preserved.run hrun (LqHolds.empty hmem) v hv
  refine ⟨hholds.2, fun data hcan => ?_, fun hcan => ?_⟩
  · obtain ⟨q, m', hcall, hext, hptr, hnew⟩ := hholds.insertLast hcan data
    exact ⟨q, m', hcall, hext, hptr, hnew.2⟩
  · obtain ⟨q, m', hcall, hext, hptr, hnew⟩ := hholds.removeFirst hcan
    exact ⟨q, m', hcall, hext, hptr, hnew.2⟩

/-- An insertion or a removal where it may be called. -/
def lqCall (x : Option Nat) (m : Memory) (root : Nat) : Option (Nat × Memory) :=
  match x with
  | some data =>
    if m.canAllocate lqInsertMaxAllocation then lqInsertLast m root data else none
  | none => if m.canAllocate lqRemoveMaxAllocation then lqRemoveFirst m root else none

/-- What it does to the items. -/
def lqCallValue (x : Option Nat) (value : List Nat) : List Nat :=
  match x with
  | some data => value ++ [data]
  | none => value.tail

theorem lqCall_call {x : Option Nat} {v : LqVersion} {q : Nat}
    (hcall : lqCall x m v.root = some (q, m')) :
    LqCall m v m' ⟨q, lqCallValue x v.value⟩ := by
  cases x with
  | some data =>
    simp only [lqCall] at hcall
    split_ifs at hcall with hcan
    exact .insertLast hcan hcall
  | none =>
    simp only [lqCall] at hcall
    split_ifs at hcall with hcan
    exact .removeFirst hcan hcall

/-- Six items are inserted, two are removed, and two are inserted. -/
theorem lq_histories_eight : ∃ h v, LqRun (roomyMemory []) h ∧
    v ∈ Persistent.History.versions h ∧ v.value = [3, 4, 5, 6, 7, 8] ∧ LqTrees h.store v ∧
    ∃ w ∈ h.versions, w.value = [1, 2, 3, 4, 5, 6] ∧ LqTrees h.store w := by
  have hlook : ((⟨roomyMemory [], [⟨nullPtr, []⟩]⟩ : Persistent.History Memory Nat
      (List Nat)).callAll lqCall lqCallValue
      [some 1, some 2, some 3, some 4, some 5, some 6, none, none, some 7, some 8]).map
        (fun h => (h.versions[0]?.map (·.value), h.versions[4]?.map (·.value))) =
      some (some [3, 4, 5, 6, 7, 8], some [1, 2, 3, 4, 5, 6]) := by
    decide +kernel
  obtain ⟨h, hall, hlook⟩ := Option.map_eq_some_iff.mp hlook
  obtain ⟨hnew, hold⟩ := Prod.mk.inj hlook
  obtain ⟨v, hv, hvalue⟩ := Option.map_eq_some_iff.mp hnew
  obtain ⟨w, hw, hvalue'⟩ := Option.map_eq_some_iff.mp hold
  have hrun : LqRun (roomyMemory []) h := by
    refine Persistent.Run.callAll (fun hcall => ?_) .refl hall
    exact lqCall_call hcall
  have hv := List.mem_of_getElem? hv
  have hw := List.mem_of_getElem? hw
  have hmem : (roomyMemory []).allocationPtr ≤ addressSpace := by decide
  exact ⟨h, v, hrun, hv, hvalue, (lq_histories hmem hrun v hv).1, w, hw, hvalue',
    (lq_histories hmem hrun w hw).1⟩

end Shades
