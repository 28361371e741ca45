import Shades.Persistent
import Shades.Priq.Operations
import Shades.Priq.Overflow

/-!
# Shades.Priq.Versions

Priority queues are never changed in place: each call makes a new version, and
any versions may be used again, also both queues of `priq_merge` may be the same
one.  A version stands for the multiset of the items that were inserted and not
yet removed.
-/

namespace Shades

open BinomialHeap BinomialHeap.Heap Memory

/-- A priority queue and its items. -/
abbrev PriqVersion := Persistent.Version Nat (Multiset Nat)

abbrev PriqHistory := Persistent.History Memory Nat (Multiset Nat)

/-- The calls. -/
inductive PriqCall
  | insert (v : PriqVersion) (data : Nat)
  | delete (v : PriqVersion)
  | merge (v w : PriqVersion)

namespace PriqCall

/-- The queues of a call. -/
def versions : PriqCall → List PriqVersion
  | insert v _ => [v]
  | delete v => [v]
  | merge v w => [v, w]

/-- What the code makes of the call. -/
def run (cmp : CmpFun) (m : Memory) : PriqCall → Option (Nat × Memory)
  | insert v data => priqInsert m v.root data cmp
  | delete v => priqDelete m v.root cmp
  | merge v w => priqMerge m v.root w.root cmp

/-- The items of the new version; a deletion removes the item that
`priq_find_min` gives. -/
def value (cmp : CmpFun) (m : Memory) : PriqCall → Multiset Nat
  | insert v data => data ::ₘ v.value
  | delete v => v.value.erase ((priqFindMin m.words v.root cmp).getD nullPtr)
  | merge v w => v.value + w.value

end PriqCall

/-- A call on any versions, or anything else that adds to the memory.  The
callers promise `CAN_ALLOCATE(PRIQ_MAX_ALLOCATION)`; the call also meets the
condition `Ok`. -/
inductive PriqStep (cmp : CmpFun) (Ok : Memory → PriqCall → Prop) :
    PriqHistory → PriqHistory → Prop
  | call {h : PriqHistory} {c : PriqCall} {q : Nat} {m' : Memory}
      (hv : ∀ v ∈ c.versions, v ∈ h.versions) (hcan : h.store.canAllocate priqMaxAllocation)
      (hok : Ok h.store c) (hrun : c.run cmp h.store = some (q, m')) :
      PriqStep cmp Ok h ⟨m', ⟨q, c.value cmp h.store⟩ :: h.versions⟩
  | other {h : PriqHistory} {m' : Memory} (hext : h.store.Extends m') :
      PriqStep cmp Ok h ⟨m', h.versions⟩

/-- The histories that start with the empty queue. -/
def PriqRun (cmp : CmpFun) (Ok : Memory → PriqCall → Prop) (m : Memory) (h : PriqHistory) : Prop :=
  Relation.ReflTransGen (PriqStep cmp Ok) ⟨m, [⟨nullPtr, 0⟩]⟩ h

section calls

variable {κ : Type} [LinearOrder κ] (rank : Nat → κ)

/-- A queue in memory is a binomial heap of the items. -/
def PriqHolds (m : Memory) (v : PriqVersion) : Prop :=
  ∃ H, HeapAt m.words m.Live H v.root ∧ H.Roots 0 ∧ H.Ordered rank ∧ H.items = v.value

/-- `priq_find_min` gives an item that is not greater than any other one. -/
def FindsMin (m : Memory) (v : PriqVersion) : Prop :=
  (v.value = 0 → priqFindMin m.words v.root (rankCmp rank) = some nullPtr) ∧
    (v.value ≠ 0 → ∃ x ∈ v.value, priqFindMin m.words v.root (rankCmp rank) = some x ∧
      ∀ y ∈ v.value, rank x ≤ rank y)

/-- The heights of the new trees fit in 24 bits, and the new cells fit in the
first generation. -/
def PriqFits (m : Memory) : PriqCall → Prop
  | .insert v data => v.value.card + 1 < 2 ^ 2 ^ 24 ∧
      ∀ H, HeapAt m.words m.Live H v.root → m.canAllocate (insertWords rank H data)
  | .delete v => ∀ H before h x sons after, HeapAt m.words m.Live H v.root →
      LeastTree rank H before h x sons after → m.canAllocate (deleteWords rank before sons after)
  | .merge v w => v.value.card + w.value.card < 2 ^ 2 ^ 24 ∧
      ∀ H K, HeapAt m.words m.Live H v.root → HeapAt m.words m.Live K w.root →
        m.canAllocate (meld rank H K).1

variable {rank} {m m' : Memory} {v w : PriqVersion} {c : PriqCall}

theorem PriqHolds.frame (hv : PriqHolds rank m v) (hext : m.Extends m') : PriqHolds rank m' v := by
  obtain ⟨H, hH, hroots, hordered, hitems⟩ := hv
  exact ⟨H, hH.frame hext.agree fun _ => hext.live, hroots, hordered, hitems⟩

theorem PriqHolds.heap (hv : PriqHolds rank m v) {H : Heap Nat}
    (hH : HeapAt m.words m.Live H v.root) :
    H.Roots 0 ∧ H.Ordered rank ∧ H.items = v.value := by
  obtain ⟨K, hK, hK'⟩ := hv
  rwa [hH.unique hK]

theorem items_eq_zero {H : Heap Nat} : H.items = 0 ↔ H = .nil := by
  cases H <;> simp [Heap.items]

theorem PriqHolds.findsMin (hv : PriqHolds rank m v) : FindsMin rank m v := by
  obtain ⟨H, hH, hroots, hordered, hitems⟩ := hv
  unfold FindsMin
  rw [← hitems, ne_eq, items_eq_zero]
  refine ⟨?_, fun hne => ?_⟩
  · rintro rfl
    have hnull : v.root = nullPtr := hH
    rw [hnull, priqFindMin_nil]
  · obtain ⟨before, h, x, sons, after, hmin, hfind, -⟩ := priqDelete_spec rank hH hne hroots
    refine ⟨x, ?_, hfind, fun y hy => hmin.le hordered hy⟩
    rw [hmin.items]
    exact Multiset.mem_cons_self _ _

variable (rank) in
/-- The words that a call takes. -/
inductive PriqCall.Takes (m : Memory) : PriqCall → Nat → Prop
  | insert {v : PriqVersion} {data : Nat} {H : Heap Nat} (hH : HeapAt m.words m.Live H v.root) :
      Takes m (.insert v data) (insertWords rank H data)
  | nothing {v : PriqVersion} (hempty : HeapAt m.words m.Live .nil v.root) : Takes m (.delete v) 0
  | delete {v : PriqVersion} {H before sons after : Heap Nat} {h x : Nat}
      (hH : HeapAt m.words m.Live H v.root) (hmin : LeastTree rank H before h x sons after) :
      Takes m (.delete v) (deleteWords rank before sons after)
  | merge {v w : PriqVersion} {H K : Heap Nat} (hH : HeapAt m.words m.Live H v.root)
      (hK : HeapAt m.words m.Live K w.root) : Takes m (.merge v w) (meld rank H K).1

/-- The heights of the new trees fit in 24 bits. -/
def PriqCall.HeightsFit : PriqCall → Prop
  | insert v _ => v.value.card + 1 < 2 ^ 2 ^ 24
  | delete _ => True
  | merge v w => v.value.card + w.value.card < 2 ^ 2 ^ 24

/-- A deletion from the empty queue. -/
theorem PriqCall.delete_nil (hempty : HeapAt m.words m.Live .nil v.root) (hzero : v.value = 0) :
    (PriqCall.delete v).run (rankCmp rank) m = some (nullPtr, m) ∧
      PriqHolds rank m ⟨nullPtr, (PriqCall.delete v).value (rankCmp rank) m⟩ := by
  have hnull : v.root = nullPtr := hempty
  refine ⟨by rw [PriqCall.run, hnull, priqDelete_nil], .nil, rfl, trivial, trivial, ?_⟩
  simp [PriqCall.value, hzero, Heap.items]

/-- A call returns if its words can be allocated, and the new version holds its
items. -/
theorem PriqCall.takes (hv : ∀ v ∈ c.versions, PriqHolds rank m v) (hheights : c.HeightsFit) :
    ∃ words, c.Takes rank m words ∧ (m.canAllocate words →
      ∃ q m', c.run (rankCmp rank) m = some (q, m') ∧ m.Extends m' ∧
        m.allocationPtr = m'.allocationPtr + words ∧
        PriqHolds rank m' ⟨q, c.value (rankCmp rank) m⟩) := by
  cases c with
  | insert v data =>
    obtain ⟨H, hH, hroots, hordered, hitems⟩ := hv v List.mem_cons_self
    refine ⟨_, .insert hH, fun hwords => ?_⟩
    obtain ⟨q, m', hrun, hext, hptr, hheap⟩ :=
      priqInsert_spec hH hroots data (hitems ▸ hheights) hwords
    obtain ⟨hroots', hordered', hitems'⟩ := meld_spec hroots (single_roots data) hordered
      (single_ordered rank data)
    refine ⟨q, m', hrun, hext, hptr, _, hheap, hroots', hordered', ?_⟩
    rw [hitems', hitems, single_items, add_comm, Multiset.singleton_add]
    rfl
  | delete v =>
    obtain ⟨H, hH, hroots, hordered, hitems⟩ := hv v List.mem_cons_self
    by_cases hne : H = .nil
    · subst hne
      obtain ⟨hrun, hholds⟩ := @PriqCall.delete_nil _ _ rank m _ hH hitems.symm
      exact ⟨_, .nothing hH, fun _ => ⟨nullPtr, m, hrun, .refl m, rfl, hholds⟩⟩
    · obtain ⟨before, h, x, sons, after, hmin, hfind, hdelete⟩ :=
        priqDelete_spec rank hH hne hroots
      refine ⟨_, .delete hH hmin, fun hwords => ?_⟩
      obtain ⟨q, m', hrun, hext, hptr, hheap⟩ := hdelete hwords
      obtain ⟨hroots', hordered', hitems'⟩ := hmin.delete hroots hordered
      refine ⟨q, m', hrun, hext, hptr, _, hheap, hroots', hordered', ?_⟩
      simp [PriqCall.value, hfind, ← hitems, hitems']
  | merge v w =>
    obtain ⟨H, hH, hroots, hordered, hitems⟩ := hv v List.mem_cons_self
    obtain ⟨K, hK, hroots', hordered', hitems'⟩ :=
      hv w (List.mem_cons_of_mem _ List.mem_cons_self)
    refine ⟨_, .merge hH hK, fun hwords => ?_⟩
    have hcard : H.items.card + K.items.card < 2 ^ 2 ^ 24 := by
      rw [hitems, hitems']
      exact hheights
    obtain ⟨q, m', hrun, hext, hptr, hheap⟩ := priqMerge_spec hH hK hroots hroots' hcard hwords
    obtain ⟨hr, ho, hi⟩ := meld_spec hroots hroots' hordered hordered'
    exact ⟨q, m', hrun, hext, hptr, _, hheap, hr, ho, by rw [hi, hitems, hitems']; rfl⟩

/-- A call that fits returns, and the new version holds its items. -/
theorem PriqCall.returns (hv : ∀ v ∈ c.versions, PriqHolds rank m v)
    (hfits : PriqFits rank m c) :
    ∃ q m', c.run (rankCmp rank) m = some (q, m') ∧ m.Extends m' ∧
      PriqHolds rank m' ⟨q, c.value (rankCmp rank) m⟩ := by
  have hheights : c.HeightsFit := by
    cases c with
    | insert => exact hfits.1
    | delete => exact trivial
    | merge => exact hfits.1
  obtain ⟨words, htakes, hreturns⟩ := PriqCall.takes hv hheights
  cases htakes with
  | nothing hempty =>
    obtain ⟨H, hH, -, -, hitems⟩ := hv _ List.mem_cons_self
    rw [hH.unique hempty] at hitems
    obtain ⟨hrun, hholds⟩ := @PriqCall.delete_nil _ _ rank m _ hempty hitems.symm
    exact ⟨nullPtr, m, hrun, .refl m, hholds⟩
  | insert hH =>
    obtain ⟨q, m', hrun, hext, -, hholds⟩ := hreturns (hfits.2 _ hH)
    exact ⟨q, m', hrun, hext, hholds⟩
  | delete hH hmin =>
    obtain ⟨q, m', hrun, hext, -, hholds⟩ := hreturns (hfits _ _ _ _ _ _ hH hmin)
    exact ⟨q, m', hrun, hext, hholds⟩
  | merge hH hK =>
    obtain ⟨q, m', hrun, hext, -, hholds⟩ := hreturns (hfits.2 _ _ hH hK)
    exact ⟨q, m', hrun, hext, hholds⟩

/-- What a step preserves. -/
theorem PriqStep.holds {h h' : PriqHistory} (hs : ∀ v ∈ h.versions, PriqHolds rank h.store v)
    (hstep : PriqStep (rankCmp rank) (PriqFits rank) h h') :
    ∀ v ∈ h'.versions, PriqHolds rank h'.store v := by
  cases hstep with
  | call hv _ hok hrun =>
    obtain ⟨q, m', hrun', hext, hnew⟩ := PriqCall.returns (fun v hc => hs v (hv v hc)) hok
    rw [hrun] at hrun'
    obtain ⟨rfl, rfl⟩ := Prod.mk.inj (Option.some.inj hrun')
    intro v hv
    rcases List.mem_cons.mp hv with rfl | hv
    · exact hnew
    · exact (hs v hv).frame hext
  | other hext => exact fun v hv => (hs v hv).frame hext

/-- What a run preserves. -/
theorem PriqRun.holds {h : PriqHistory} (hrun : PriqRun (rankCmp rank) (PriqFits rank) m h) :
    ∀ v ∈ h.versions, PriqHolds rank h.store v := by
  unfold PriqRun at hrun
  induction hrun with
  | refl =>
    intro v hv
    obtain rfl := List.mem_singleton.mp hv
    exact ⟨.nil, rfl, trivial, trivial, rfl⟩
  | tail _ hstep ih => exact hstep.holds ih

/-- In every history of insertions, deletions and merges of any versions each
version is a binomial heap of its items, `priq_find_min` gives the least one of
them, and each call returns, as long as the heights fit in 24 bits and the new
cells in the first generation. -/
theorem priq_refines {h : PriqHistory} (hrun : PriqRun (rankCmp rank) (PriqFits rank) m h) :
    (∀ v ∈ h.versions, PriqHolds rank h.store v ∧ FindsMin rank h.store v) ∧
    ∀ c : PriqCall, (∀ v ∈ c.versions, v ∈ h.versions) → PriqFits rank h.store c →
      ∃ q m', c.run (rankCmp rank) h.store = some (q, m') ∧ h.store.Extends m' ∧
        PriqHolds rank m' ⟨q, c.value (rankCmp rank) h.store⟩ :=
  ⟨fun v hv => ⟨hrun.holds v hv, (hrun.holds v hv).findsMin⟩,
    fun _ hc hfits => PriqCall.returns (fun v hv => hrun.holds v (hc v hv)) hfits⟩

end calls

/-- Two items are inserted. -/
theorem priq_refines_two : ∃ (h : PriqHistory) (v : PriqVersion),
    PriqRun (rankCmp (id : Nat → Nat)) (PriqFits id) (smallMemory []) h ∧ v ∈ h.versions ∧
      v.value = {7, 9} ∧ PriqHolds (id : Nat → Nat) h.store v ∧
      priqFindMin h.store.words v.root (rankCmp id) = some 7 := by
  have hempty : HeapAt (smallMemory []).words (smallMemory []).Live .nil nullPtr := rfl
  have hwords : (smallMemory []).canAllocate (insertWords (id : Nat → Nat) .nil 9) := by decide
  have hone : 0 + 1 < 2 ^ 2 ^ 24 := Nat.one_lt_two_pow (by decide)
  obtain ⟨q, m, hinsert, hext, hptr, hheap⟩ := priqInsert_spec hempty trivial 9 hone hwords
  rw [meld_nil_left] at hheap
  have hrun : PriqRun (rankCmp id) (PriqFits id) (smallMemory [])
      ⟨m, [⟨q, {9}⟩, ⟨nullPtr, 0⟩]⟩ := by
    refine .single (.call (c := .insert ⟨nullPtr, 0⟩ 9) (by simp [PriqCall.versions])
      (by decide) ⟨hone, fun H hH => ?_⟩ hinsert)
    rwa [hH.unique hempty]
  have hend := hext.firstGenerationEnd_eq
  have hfits : PriqFits id m (.insert ⟨q, {9}⟩ 7) := by
    refine ⟨Nat.lt_of_lt_of_le (by decide : 1 + 1 < 2 ^ 2) (Nat.pow_le_pow_right (by decide)
      (by decide)), fun H hH => ?_⟩
    rw [hH.unique hheap, show insertWords id (single 9) 7 = 12 by decide]
    rw [insertWords, meld_nil_left] at hptr
    simp only [smallMemory] at hptr hend
    unfold canAllocate
    omega
  obtain ⟨q', m', hinsert', -⟩ := (priq_refines hrun).2 _ (by simp [PriqCall.versions]) hfits
  have hrun' : PriqRun (rankCmp id) (PriqFits id) (smallMemory [])
      ⟨m', [⟨q', {7, 9}⟩, ⟨q, {9}⟩, ⟨nullPtr, 0⟩]⟩ := by
    refine hrun.tail (.call (c := .insert ⟨q, {9}⟩ 7) (by simp [PriqCall.versions]) ?_ hfits
      hinsert')
    rw [insertWords, meld_nil_left] at hptr
    simp only [smallMemory] at hptr hend
    change m.canAllocate priqMaxAllocation
    unfold canAllocate priqMaxAllocation
    omega
  obtain ⟨hholds, -, hfind⟩ := (priq_refines hrun').1 _ List.mem_cons_self
  obtain ⟨x, hx, hfind, hle⟩ := hfind (by simp)
  refine ⟨_, _, hrun', List.mem_cons_self, rfl, hholds, ?_⟩
  have hle' : x ≤ 7 := hle 7 (by simp)
  simp only [Multiset.insert_eq_cons, Multiset.mem_cons, Multiset.mem_singleton] at hx
  rw [hfind]
  congr 1
  omega

/-! ## longer runs -/

theorem PriqStep.weaken {cmp : CmpFun} {Ok Ok' : Memory → PriqCall → Prop} {h h' : PriqHistory}
    (hstep : PriqStep cmp Ok h h') (hok : ∀ m c, Ok m c → Ok' m c) : PriqStep cmp Ok' h h' := by
  cases hstep with
  | call hv hcan hc hrun => exact .call hv hcan (hok _ _ hc) hrun
  | other hext => exact .other hext

theorem PriqRun.weaken {cmp : CmpFun} {Ok Ok' : Memory → PriqCall → Prop} {m : Memory}
    {h : PriqHistory} (hrun : PriqRun cmp Ok m h) (hok : ∀ m c, Ok m c → Ok' m c) :
    PriqRun cmp Ok' m h :=
  Relation.ReflTransGen.mono (fun _ _ hstep => hstep.weaken hok) _ _ hrun

/-- All versions of `h` are still there in `h'`, and `words` words were taken. -/
structure PriqLater (h h' : PriqHistory) (words : Nat) : Prop where
  versions : ∀ v ∈ h.versions, v ∈ h'.versions
  grows : h.store.Extends h'.store
  words : h.store.allocationPtr = h'.store.allocationPtr + words

section later

variable {h h' h'' : PriqHistory} {m : Memory} {n k data : Nat} {v w : PriqVersion}
  {H K : Heap Nat}

theorem PriqLater.trans (hl : PriqLater h h' n) (hl' : PriqLater h' h'' k) :
    PriqLater h h'' (n + k) where
  versions v hv := hl'.versions v (hl.versions v hv)
  grows := hl.grows.trans hl'.grows
  words := by rw [hl.words, hl'.words]; omega

theorem PriqLater.canAllocate (hl : PriqLater h h' n) (hcan : h.store.canAllocate (k + n)) :
    h'.store.canAllocate k := by
  have hend := hl.grows.firstGenerationEnd_eq
  have hwords := hl.words
  unfold Memory.canAllocate at hcan ⊢
  omega

theorem PriqLater.heap (hl : PriqLater h h' n) (hH : HeapAt h.store.words h.store.Live H v.root) :
    HeapAt h'.store.words h'.store.Live H v.root :=
  hH.frame hl.grows.agree fun _ => hl.grows.live

/-- A run goes on with a merge. -/
theorem PriqRun.merge (hrun : PriqRun (rankCmp (id : Nat → Nat)) (PriqFits id) m h)
    (hv : v ∈ h.versions) (hw : w ∈ h.versions)
    (hH : HeapAt h.store.words h.store.Live H v.root)
    (hK : HeapAt h.store.words h.store.Live K w.root)
    (hcard : v.value.card + w.value.card < 2 ^ 2 ^ 24)
    (hcan : h.store.canAllocate (priqMaxAllocation + (meld (id : Nat → Nat) H K).1)) :
    ∃ h' z, PriqRun (rankCmp id) (PriqFits id) m h' ∧
      PriqLater h h' (meld (id : Nat → Nat) H K).1 ∧ z ∈ h'.versions ∧
      HeapAt h'.store.words h'.store.Live (meld (id : Nat → Nat) H K).2 z.root ∧
      z.value = v.value + w.value := by
  obtain ⟨H', hH', hroots, -, hitems⟩ := hrun.holds v hv
  obtain ⟨K', hK', hroots', -, hitems'⟩ := hrun.holds w hw
  obtain rfl := hH'.unique hH
  obtain rfl := hK'.unique hK
  obtain ⟨q, m', hmerge, hext, hptr, hheap⟩ := priqMerge_spec hH hK hroots hroots'
    (by rwa [hitems, hitems']) (canAllocate_mono hcan (Nat.le_add_left _ _))
  refine ⟨⟨m', ⟨q, v.value + w.value⟩ :: h.versions⟩, ⟨q, v.value + w.value⟩,
    hrun.tail (.call (c := .merge v w) (by simp [PriqCall.versions, hv, hw])
      (canAllocate_mono hcan (Nat.le_add_right _ _)) ⟨hcard, fun H' K' hH' hK' => ?_⟩ hmerge),
    ⟨fun v hv => List.mem_cons_of_mem _ hv, hext, hptr⟩, List.mem_cons_self, hheap, rfl⟩
  rw [hH'.unique hH, hK'.unique hK]
  exact canAllocate_mono hcan (Nat.le_add_left _ _)

/-- An insertion into the empty queue. -/
theorem exists_insertFirst (hv : ⟨nullPtr, 0⟩ ∈ h.versions) (data : Nat)
    (hcan : h.store.canAllocate priqMaxAllocation) :
    ∃ h' z, PriqStep (rankCmp (id : Nat → Nat)) (PriqFits id) h h' ∧ PriqLater h h' 4 ∧
      z ∈ h'.versions ∧ HeapAt h'.store.words h'.store.Live (single data) z.root ∧
      z.value = {data} := by
  have hempty : HeapAt h.store.words h.store.Live .nil nullPtr := rfl
  have hone : 0 + 1 < 2 ^ 2 ^ 24 := Nat.one_lt_two_pow (by decide)
  have hwords : insertWords (id : Nat → Nat) .nil data = 4 := by
    simp [insertWords, meld_nil_left]
  have hfits : h.store.canAllocate (insertWords (id : Nat → Nat) .nil data) :=
    hwords ▸ canAllocate_mono hcan (by decide)
  obtain ⟨q, m', hinsert, hext, hptr, hheap⟩ := priqInsert_spec hempty trivial data hone hfits
  rw [hwords] at hptr
  rw [meld_nil_left] at hheap
  refine ⟨⟨m', ⟨q, {data}⟩ :: h.versions⟩, ⟨q, {data}⟩,
    .call (c := .insert ⟨nullPtr, 0⟩ data) (by simp [PriqCall.versions, hv]) hcan
      ⟨hone, fun H hH => ?_⟩ hinsert,
    ⟨fun v hv => List.mem_cons_of_mem _ hv, hext, hptr⟩, List.mem_cons_self, hheap, rfl⟩
  rwa [hH.unique hempty]

/-- A run goes on with an insertion into the empty queue. -/
theorem PriqRun.insertFirst (hrun : PriqRun (rankCmp (id : Nat → Nat)) (PriqFits id) m h)
    (hv : ⟨nullPtr, 0⟩ ∈ h.versions) (data : Nat)
    (hcan : h.store.canAllocate priqMaxAllocation) :
    ∃ h' z, PriqRun (rankCmp id) (PriqFits id) m h' ∧ PriqLater h h' 4 ∧ z ∈ h'.versions ∧
      HeapAt h'.store.words h'.store.Live (single data) z.root ∧ z.value = {data} := by
  obtain ⟨h', z, hstep, hl⟩ := exists_insertFirst hv data hcan
  exact ⟨h', z, hrun.tail hstep, hl⟩

theorem meld_self (n x : Nat) (sons : Heap Nat) :
    meld id (.tree n x sons .nil) (.tree n x sons .nil) =
      (8, .tree (n + 1) x (.tree n x sons sons) .nil) := by
  simp [meld, Heap.length, Melding.run, Melding.step, carry?, Melding.finish, Heap.append]

/-- A run goes on with a queue of one tree of the height `n`, made of one item by `n`
merges of a queue with itself. -/
theorem PriqRun.growTree (hrun : PriqRun (rankCmp (id : Nat → Nat)) (PriqFits id) m h)
    (hv : ⟨nullPtr, 0⟩ ∈ h.versions) (data : Nat) (hn : n < 2 ^ 24)
    (hcan : h.store.canAllocate (priqMaxAllocation + (8 * n + 4))) :
    ∃ h' z sons, PriqRun (rankCmp id) (PriqFits id) m h' ∧ PriqLater h h' (8 * n + 4) ∧
      z ∈ h'.versions ∧ HeapAt h'.store.words h'.store.Live (.tree n data sons .nil) z.root ∧
      z.value.card = 2 ^ n := by
  induction n with
  | zero =>
    obtain ⟨h', z, hrun', hl, hz, hheap, hvalue⟩ := hrun.insertFirst hv data
      (canAllocate_mono hcan (Nat.le_add_right _ _))
    exact ⟨h', z, .nil, hrun', hl, hz, hheap, by rw [hvalue]; rfl⟩
  | succ n ih =>
    obtain ⟨h', z, sons, hrun', hl, hz, hheap, hcard⟩ := ih (by omega)
      (canAllocate_mono hcan (by omega))
    have hpow : 2 ^ n + 2 ^ n = 2 ^ (n + 1) := by rw [pow_succ]; omega
    have hfits : z.value.card + z.value.card < 2 ^ 2 ^ 24 := by
      rw [hcard, hpow]
      exact Nat.pow_lt_pow_right (by decide) hn
    have hcan' : h'.store.canAllocate (priqMaxAllocation + 8) := by
      refine hl.canAllocate ?_
      rwa [show priqMaxAllocation + 8 + (8 * n + 4) = priqMaxAllocation + (8 * (n + 1) + 4) by
        omega]
    have hself := meld_self n data sons
    obtain ⟨h'', z', hrun'', hl', hz', hheap', hvalue⟩ := hrun'.merge hz hz hheap hheap hfits
      (by rwa [hself])
    rw [hself] at hl' hheap'
    refine ⟨h'', z', .tree n data sons sons, hrun'', ?_, hz', hheap', ?_⟩
    · have hboth := hl.trans hl'
      rwa [show 8 * n + 4 + (8, (Heap.tree (n + 1) data (.tree n data sons sons) .nil)).1 =
        8 * (n + 1) + 4 by omega] at hboth
    · rw [hvalue, Multiset.card_add, hcard, hpow]

end later

/-! ## a queue that is merged with itself -/

theorem hugeMemory_end_pos : 0 < 100 := by decide

/-- A memory with room for many cells. -/
def hugeMemory : Memory where
  words := fun _ => 0
  allocationPtr := 2 ^ 28
  firstGenerationEnd := 100
  firstGenerationStart := 2 ^ 28
  firstGenerationEnd_pos := hugeMemory_end_pos

/-- A history with a queue of one tree of the height `n`. -/
theorem exists_tree (n : Nat) (hn : n < 2 ^ 24) :
    ∃ (h : PriqHistory) (v : PriqVersion) (sons : Heap Nat),
      PriqRun (rankCmp id) (PriqFits id) hugeMemory h ∧
      PriqLater ⟨hugeMemory, [⟨nullPtr, 0⟩]⟩ h (8 * n + 4) ∧ v ∈ h.versions ∧
      HeapAt h.store.words h.store.Live (.tree n 7 sons .nil) v.root ∧ v.value.card = 2 ^ n := by
  refine PriqRun.growTree .refl List.mem_cons_self 7 hn ?_
  unfold canAllocate priqMaxAllocation hugeMemory
  dsimp only
  omega

/-- The claim fails: after `2 ^ 24` merges the height of the tree does not fit in its
cell. -/
theorem priq_overflows : ¬ ∀ (m : Memory) (h : PriqHistory),
    PriqRun (rankCmp (id : Nat → Nat)) (fun _ _ => True) m h →
      ∀ v ∈ h.versions, PriqHolds (id : Nat → Nat) h.store v := by
  intro hclaim
  obtain ⟨n, hn⟩ : ∃ n, n + 1 = 2 ^ 24 := ⟨2 ^ 24 - 1, by decide⟩
  obtain ⟨h, v, sons, hfitting, hl, hv, hheap, hcard⟩ := exists_tree n (by omega)
  have hrun : PriqRun (rankCmp id) (fun _ _ => True) hugeMemory h :=
    hfitting.weaken fun _ _ _ => trivial
  have hcan : h.store.canAllocate priqMaxAllocation := by
    refine hl.canAllocate ?_
    unfold canAllocate priqMaxAllocation hugeMemory
    dsimp only
    omega
  have hp := hheap.tree.1
  obtain ⟨⟨-, hsons, -⟩, -⟩ := (hfitting.holds v hv).heap hheap
  obtain ⟨q, m, hmerge⟩ : ∃ q m,
      Priq.merge (rankCmp (id : Nat → Nat)) h.store v.root v.root = .ok (q, m) :=
    merge_overflow hn hheap hheap hsons (canAllocate_mono hcan (by decide))
  have hrun' : PriqRun (rankCmp id) (fun _ _ => True) hugeMemory
      ⟨m, ⟨q, v.value + v.value⟩ :: h.versions⟩ := by
    refine hrun.tail (.call (c := .merge v v) ?_ hcan trivial ?_)
    · simp [PriqCall.versions, hv]
    · rw [PriqCall.run, priqMerge, if_neg (fun hnull => hp hnull.1), hmerge]
      rfl
  obtain ⟨H, hH, hroots, -, hitems⟩ := hclaim _ _ hrun' _ List.mem_cons_self
  have hlt := hH.card_lt hroots
  rw [hitems, Multiset.card_add, hcard, ← two_mul, ← pow_succ', ← hn] at hlt
  exact Nat.lt_irrefl _ hlt

end Shades
