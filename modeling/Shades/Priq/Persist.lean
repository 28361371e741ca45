import Shades.Priq.Failing
import Shades.Priq.Words

/-!
# Shades.Priq.Persist

The old versions of the queues.  `merge` writes to the next trees and the sons of
trees in memory, but only to trees of its own, so an old version is the same
heap after any call, also after a call whose comparison function reports an
error.  This rests on the heights of the trees in the queues, which increase as
long as they fit in their cells.
-/

namespace Shades

open BinomialHeap BinomialHeap.Heap Memory

section persist

variable {κ : Type} [LinearOrder κ] (rank : Nat → κ)

/-- A version is the same heap of its items in both memories. -/
def SameHeap (m m' : Memory) (v : PriqVersion) : Prop :=
  ∃ H, HeapAt m.words m.Live H v.root ∧ HeapAt m'.words m'.Live H v.root ∧ H.Roots 0 ∧
    H.Ordered rank ∧ H.items = v.value

/-- A call of which the comparison function may report errors.  If the call does what it
does without errors there is a new version. -/
inductive PriqTry : PriqHistory → PriqHistory → Prop
  | succeeds {h : PriqHistory} {c : PriqCall} {cmp : CmpFun} {q : Nat} {m' : Memory}
      (hcmp : MayFail rank cmp) (hv : ∀ v ∈ c.versions, v ∈ h.versions)
      (hfits : PriqFits rank h.store c) (hrun : c.run cmp h.store = some (q, m'))
      (hsame : c.run (rankCmp rank) h.store = some (q, m')) :
      PriqTry h ⟨m', ⟨q, c.value (rankCmp rank) h.store⟩ :: h.versions⟩
  | fails {h : PriqHistory} {c : PriqCall} {cmp : CmpFun} {q : Nat} {m' : Memory}
      (hcmp : MayFail rank cmp) (hv : ∀ v ∈ c.versions, v ∈ h.versions)
      (hfits : PriqFits rank h.store c) (hrun : c.run cmp h.store = some (q, m'))
      (hother : c.run (rankCmp rank) h.store ≠ some (q, m')) :
      PriqTry h ⟨m', h.versions⟩
  | other {h : PriqHistory} {m' : Memory} (hext : h.store.Extends m') :
      PriqTry h ⟨m', h.versions⟩

/-- The histories that start with the empty queue. -/
def PriqTries (m : Memory) (h : PriqHistory) : Prop :=
  Relation.ReflTransGen (PriqTry rank) ⟨m, [⟨nullPtr, 0⟩]⟩ h

variable {rank} {m m' : Memory} {v : PriqVersion} {c : PriqCall} {cmp : CmpFun}
  {h h' : PriqHistory}

theorem PriqHolds.sameHeap (hv : PriqHolds rank m v) (hext : m.Extends m') :
    SameHeap rank m m' v := by
  obtain ⟨H, hH, hrest⟩ := hv
  exact ⟨H, hH, hH.frame hext.agree fun _ => hext.live, hrest⟩

/-- A call does what it does without errors, or it stops, or gives up. -/
theorem PriqCall.givesUpOr (hcmp : MayFail rank cmp) (hv : ∀ v ∈ c.versions, PriqHolds rank m v)
    (hfits : PriqFits rank m c) :
    ∃ old, GivesUpOr m old (c.run cmp m) (c.run (rankCmp rank) m) := by
  cases c with
  | insert v data =>
    obtain ⟨H, hH, hroots, -, hitems⟩ := hv v List.mem_cons_self
    obtain ⟨hcard, hwords⟩ := hfits
    exact ⟨_, priqInsert_failing hcmp hH hroots data (hitems ▸ hcard) (hwords H hH)⟩
  | delete v =>
    obtain ⟨H, hH, hroots, -, hitems⟩ := hv v List.mem_cons_self
    exact ⟨_, priqDelete_failing hcmp hH hroots fun _ _ _ _ _ hmin => hfits _ _ _ _ _ _ hH hmin⟩
  | merge v w =>
    obtain ⟨H, hH, hroots, -, hitems⟩ := hv v List.mem_cons_self
    obtain ⟨K, hK, hroots', -, hitems'⟩ := hv w (List.mem_cons_of_mem _ List.mem_cons_self)
    obtain ⟨hcard, hwords⟩ := hfits
    exact ⟨_, priqMerge_failing hcmp hH hK hroots hroots' (by rwa [hitems, hitems'])
      (hwords H K hH hK)⟩

/-- No call changes a word that is in use. -/
theorem PriqCall.extends (hcmp : MayFail rank cmp) (hv : ∀ v ∈ c.versions, PriqHolds rank m v)
    (hfits : PriqFits rank m c) {q : Nat} (hrun : c.run cmp m = some (q, m')) :
    m.Extends m' := by
  obtain ⟨old, hsame | hnone | ⟨m₁, hold, hext, -⟩⟩ := PriqCall.givesUpOr hcmp hv hfits
  · obtain ⟨q', m₁, hrun', hext, -⟩ := PriqCall.returns hv hfits
    rw [hrun, hrun'] at hsame
    obtain ⟨rfl, rfl⟩ := Prod.mk.inj (Option.some.inj hsame)
    exact hext
  · rw [hrun] at hnone
    cases hnone
  · rw [hrun] at hold
    obtain ⟨rfl, rfl⟩ := Prod.mk.inj (Option.some.inj hold)
    exact hext

/-- What a step preserves. -/
theorem PriqTry.keeps (hs : ∀ v ∈ h.versions, PriqHolds rank h.store v)
    (hstep : PriqTry rank h h') :
    h.store.Extends h'.store ∧ (∀ v ∈ h.versions, v ∈ h'.versions) ∧
      ∀ v ∈ h'.versions, PriqHolds rank h'.store v := by
  cases hstep with
  | @succeeds c cmp q m' hcmp hv hfits hrun hsame =>
    obtain ⟨q', m₁, hrun', hext, hnew⟩ := PriqCall.returns (fun v hc => hs v (hv v hc)) hfits
    rw [hsame] at hrun'
    obtain ⟨rfl, rfl⟩ := Prod.mk.inj (Option.some.inj hrun')
    refine ⟨hext, fun v hv => List.mem_cons_of_mem _ hv, fun v hv => ?_⟩
    rcases List.mem_cons.mp hv with rfl | hv
    · exact hnew
    · exact (hs v hv).frame hext
  | fails hcmp hv hfits hrun =>
    have hext := PriqCall.extends hcmp (fun v hc => hs v (hv v hc)) hfits hrun
    exact ⟨hext, fun _ hv => hv, fun v hv => (hs v hv).frame hext⟩
  | other hext => exact ⟨hext, fun _ hv => hv, fun v hv => (hs v hv).frame hext⟩

/-- What a run preserves. -/
theorem PriqTry.run_keeps (hs : ∀ v ∈ h.versions, PriqHolds rank h.store v)
    (hrun : Relation.ReflTransGen (PriqTry rank) h h') :
    h.store.Extends h'.store ∧ (∀ v ∈ h.versions, v ∈ h'.versions) ∧
      ∀ v ∈ h'.versions, PriqHolds rank h'.store v := by
  induction hrun with
  | refl => exact ⟨.refl _, fun _ hv => hv, hs⟩
  | tail _ hstep ih =>
    obtain ⟨hext, hversions, hholds⟩ := ih
    obtain ⟨hext', hversions', hholds'⟩ := PriqTry.keeps hholds hstep
    exact ⟨hext.trans hext', fun v hv => hversions' v (hversions v hv), hholds'⟩

theorem PriqTries.holds (hrun : PriqTries rank m h) :
    ∀ v ∈ h.versions, PriqHolds rank h.store v := by
  refine (PriqTry.run_keeps (fun v hv => ?_) hrun).2.2
  obtain rfl := List.mem_singleton.mp hv
  exact ⟨.nil, rfl, trivial, trivial, rfl⟩

/-- A step without errors. -/
theorem PriqStep.toTry (hstep : PriqStep (rankCmp rank) (PriqFits rank) h h') :
    PriqTry rank h h' := by
  cases hstep with
  | call hv _ hfits hrun => exact .succeeds (fun _ _ => .inr rfl) hv hfits hrun hrun
  | other hext => exact .other hext

/-- In every history of insertions, deletions and merges of any versions, with comparison
functions that may report errors, what comes later changes no word that is in use,
and every version stays the same heap of its items, as long as the heights fit in 24
bits and the new cells in the first generation. -/
theorem priq_keeps_versions (hrun : PriqTries rank m h)
    (hlater : Relation.ReflTransGen (PriqTry rank) h h') :
    h.store.Extends h'.store ∧ ∀ v ∈ h.versions, v ∈ h'.versions ∧
      SameHeap rank h.store h'.store v := by
  obtain ⟨hext, hversions, -⟩ := PriqTry.run_keeps hrun.holds hlater
  exact ⟨hext, fun v hv => ⟨hversions v hv, (hrun.holds v hv).sameHeap hext⟩⟩

end persist

/-- The least item of a queue of four trees is deleted, and the queue is what it was. -/
theorem priq_keeps_versions_trees : ∃ (h h' : PriqHistory) (v w : PriqVersion) (H : Heap Nat),
    PriqTries (id : Nat → Nat) hugeMemory h ∧ v ∈ h.versions ∧
    HeapAt h.store.words h.store.Live H v.root ∧ H.length = 4 ∧
    Relation.ReflTransGen (PriqTry (id : Nat → Nat)) h h' ∧ w ∈ h'.versions ∧
    w.value = (PriqCall.delete v).value (rankCmp id) h.store ∧
    (h.store.Extends h'.store ∧ ∀ v ∈ h.versions, v ∈ h'.versions ∧
      SameHeap (id : Nat → Nat) h.store h'.store v) := by
  obtain ⟨h, v, H, hrun, hv, hcard, hH, hlength, hcan⟩ := exists_four_trees
  have hholds := hrun.holds v hv
  have hversion : ∀ w ∈ (PriqCall.delete v).versions, w = v := fun w hw => List.mem_singleton.mp hw
  have hfits : PriqFits (id : Nat → Nat) h.store (.delete v) := by
    intro H' before k x sons after hH' hmin
    obtain ⟨hroots, -, hitems⟩ := hholds.heap hH'
    exact canAllocate_mono hcan (deleteWords_le hmin hroots (by rwa [hitems]))
  have hversions : ∀ w ∈ (PriqCall.delete v).versions, PriqHolds (id : Nat → Nat) h.store w :=
    fun w hw => hversion w hw ▸ hholds
  obtain ⟨q, m', hdelete, -, -⟩ := PriqCall.returns hversions hfits
  have htries : PriqTries (id : Nat → Nat) hugeMemory h :=
    Relation.ReflTransGen.mono (fun _ _ => PriqStep.toTry) _ _ hrun
  have hlater : Relation.ReflTransGen (PriqTry (id : Nat → Nat)) h ⟨m', _ :: h.versions⟩ :=
    .single (.succeeds (fun _ _ => .inr rfl) (fun w hw => hversion w hw ▸ hv) hfits hdelete hdelete)
  exact ⟨h, _, v, _, H, htries, hv, hH, hlength, hlater, List.mem_cons_self, rfl,
    priq_keeps_versions htries hlater⟩

/-- A history with a queue of one tree of the height `2 ^ 24 - 1`, and a queue that has a
tree of the height `0` before this tree. -/
theorem exists_two_trees {n : Nat} (hn : n + 1 = 2 ^ 24) :
    ∃ (h : PriqHistory) (v w : PriqVersion) (sons : Heap Nat),
      PriqRun (rankCmp id) (PriqFits id) hugeMemory h ∧ v ∈ h.versions ∧ w ∈ h.versions ∧
      HeapAt h.store.words h.store.Live (.tree n 7 sons .nil) v.root ∧
      HeapAt h.store.words h.store.Live (.tree 0 5 .nil (.tree n 7 sons .nil)) w.root ∧
      sons.Sons n ∧ h.store.canAllocate 8000 := by
  obtain ⟨h, v, sons, hrun, hl, hv, hheap, hcard⟩ := exists_tree n (by omega)
  have hcan : h.store.canAllocate 10000 := by
    refine hl.canAllocate ?_
    unfold canAllocate hugeMemory
    dsimp only
    omega
  obtain ⟨h₁, u, hrun₁, hl₁, hu, hsingle, huvalue⟩ := hrun.insertFirst
    (hl.versions _ List.mem_cons_self) 5 (canAllocate_mono hcan (by decide))
  have hcan₁ : h₁.store.canAllocate 9000 := hl₁.canAllocate (canAllocate_mono hcan (by decide))
  have hmeld : meld (id : Nat → Nat) (single 5) (.tree n 7 sons .nil) =
      (4, .tree 0 5 .nil (.tree n 7 sons .nil)) :=
    meld_higher (single_roots 5) ⟨by omega, trivial⟩
  have hsum : u.value.card + v.value.card < 2 ^ 2 ^ 24 := by
    have hpow : 1 < 2 ^ n := Nat.one_lt_two_pow (by omega)
    rw [huvalue, hcard, ← hn, pow_succ, Multiset.card_singleton]
    omega
  obtain ⟨h₂, w, hrun₂, hl₂, hw, hqueue, -⟩ := hrun₁.merge hu (hl₁.versions v hv) hsingle
    (hl₁.heap hheap) hsum (by
      rw [hmeld]
      exact canAllocate_mono hcan₁ (by decide : priqMaxAllocation + 4 ≤ 9000))
  rw [hmeld] at hl₂ hqueue
  obtain ⟨⟨-, hsons, -⟩, -⟩ := (hrun.holds v hv).heap hheap
  exact ⟨h₂, v, w, sons, hrun₂, hl₂.versions v (hl₁.versions v hv), hw,
    hl₂.heap (hl₁.heap hheap), hqueue, hsons,
    hl₂.canAllocate (canAllocate_mono hcan₁ (by decide : 8000 + 4 ≤ 9000))⟩

/-- The claim fails: when the heights do not fit in their cells `merge` takes a tree of an
old queue for its own. -/
theorem priq_merge_writes_old : ¬ ∀ (m : Memory) (h h' : PriqHistory),
    PriqRun (rankCmp (id : Nat → Nat)) (fun _ _ => True) m h →
      PriqStep (rankCmp (id : Nat → Nat)) (fun _ _ => True) h h' →
        h.store.Extends h'.store := by
  intro hclaim
  obtain ⟨n, hn⟩ : ∃ n, n + 1 = 2 ^ 24 := ⟨2 ^ 24 - 1, by decide⟩
  obtain ⟨h, v, w, sons, hfitting, hv, hw, htree, hqueue, hsons, hcan⟩ := exists_two_trees hn
  have hrun : PriqRun (rankCmp (id : Nat → Nat)) (fun _ _ => True) hugeMemory h :=
    hfitting.weaken fun _ _ _ => trivial
  -- a queue of two trees of the height `0`
  obtain ⟨z, m, r, b, S, hmerge, hf, hptr, hz, hcell, hnext, hr, hb⟩ :
      ∃ z m r b S, Priq.merge (rankCmp (id : Nat → Nat)) h.store w.root v.root = .ok (z, m) ∧
        h.store.Filling [(z, 4)] m ∧ h.store.allocationPtr = m.allocationPtr + 12 ∧
        z ≠ nullPtr ∧ TreeCell m.words z 0 5 nullPtr ∧ m.words (z + 3) = ptrToWord r ∧
        HeapAt m.words (m.Closed [(z, 4)]) (.tree 0 b S .nil) r ∧ (b = 7 ∨ b = 7) :=
    merge_overflow_after hn (by omega) hqueue htree hsons (canAllocate_mono hcan (by decide))
  have hb' : id 5 ≤ id b := by
    rw [hb.elim id id]
    decide
  have hrun' : PriqRun (rankCmp (id : Nat → Nat)) (fun _ _ => True) hugeMemory
      ⟨m, ⟨z, w.value + v.value⟩ :: h.versions⟩ := by
    refine hrun.tail (.call (c := .merge w v) ?_ (canAllocate_mono hcan (by decide)) trivial ?_)
    · simp [PriqCall.versions, hv, hw]
    · rw [PriqCall.run, priqMerge, if_neg (fun hnull => hqueue.tree.1 hnull.1), hmerge]
      rfl
  have hcan' : m.canAllocate 4000 := by
    have hend := hf.allocates.firstGenerationEnd_eq
    unfold canAllocate at hcan ⊢
    omega
  -- the first one is changed in place
  rw [← closed_nil] at htree
  obtain ⟨q, m', hmerge', hnull⟩ := merge_writes_first hf hz hcell hnext hr hb'
    (htree.keeps hf.keeps) (by omega) (canAllocate_mono hcan' (by decide))
  have hext := hclaim hugeMemory _ _ hrun' (.call (c := .merge ⟨z, w.value + v.value⟩ v)
    (by simp [PriqCall.versions, hv]) (canAllocate_mono hcan' (by decide)) trivial (by
      rw [PriqCall.run, priqMerge, if_neg (fun hnull => hz hnull.1), hmerge']
      rfl))
  have hfresh := hf.fresh _ List.mem_cons_self
  dsimp only at hfresh
  have hword := hext.agree (z + 3) (.inr (by dsimp only; omega))
  dsimp only at hword
  rw [Priq.next, hword, hnext, wordToPtr_ptrToWord] at hnull
  exact hr.tree.1 hnull

end Shades
