import Shades.Priq.Merge

/-!
# Shades.Priq.Overflow

What `merge` makes of two trees of the height `2 ^ 24 - 1`.  The height of the
new tree does not fit in its cell: what is in the cell is `0`.
-/

namespace Shades

open Memory BinomialHeap BinomialHeap.Heap Priq

variable {κ : Type} [LinearOrder κ] {rank : Nat → κ} {m₀ : Memory} {st : Merging}
  {out sons sons' : Heap Nat} {N x y n : Nat}

theorem exists_rounds : ∃ n, priqRounds = n + 3 := ⟨2 ^ 25 - 2, by decide⟩

variable (rank) in
/-- The two trees are linked, and `merge` is done with its loops. -/
theorem MergesTo.overflow (hN : N + 1 = 2 ^ 24)
    (hst : MergesTo m₀ st ⟨out, .tree N x sons .nil, .tree N y sons' .nil⟩)
    (hcan : st.m.canAllocate 8) :
    ∃ st' z S, mergeLoop (rankCmp rank) (n + 2) st = .ok st' ∧
      memoryItemLoop (rankCmp rank) priqRounds st'.m st'.pq1 = .ok (st'.pq1, st'.m) ∧
      st.m.allocationPtr = st'.m.allocationPtr + 8 ∧ st'.pq1 ≠ nullPtr ∧
      (z = x ∨ z = y) ∧ MergesTo m₀ st' ⟨out, .tree 0 z S .nil, .nil⟩ := by
  obtain ⟨st', hlink, hptr, hst'⟩ :=
    hst.linkEqual_as rank (fun hl => hl.root_overflow hN) rfl rfl hcan
  obtain ⟨z, S, hz, hst'⟩ : ∃ z S, (z = x ∨ z = y) ∧
      MergesTo m₀ st' ⟨out, .tree 0 z S .nil, .nil⟩ := by
    split at hst'
    · exact ⟨y, _, .inr rfl, hst'⟩
    · exact ⟨x, _, .inl rfl, hst'⟩
  have hpq1 : st.pq1 ≠ nullPtr := mt hst.pq1_eq_nullPtr_iff.mp Heap.tree_ne_nil
  have hpq2 : st.pq2 ≠ nullPtr := mt hst.pq2_eq_nullPtr_iff.mp Heap.tree_ne_nil
  have hpq1' : st'.pq1 ≠ nullPtr := mt hst'.pq1_eq_nullPtr_iff.mp Heap.tree_ne_nil
  have hpq2' : st'.pq2 = nullPtr := hst'.pq2_eq_nullPtr_iff.mpr rfl
  have htwo : ¬ Priq.twoEqual st.m.words st.pq1 = true := by
    rw [hst.twoEqual rank Heap.tree_ne_nil]
    simp [carry?]
  have htwo' : ¬ Priq.twoEqual st'.m.words st'.pq1 = true := by
    rw [hst'.twoEqual rank Heap.tree_ne_nil]
    simp [carry?]
  obtain ⟨hh, hk⟩ := hst.heights rfl rfl
  have hround : mergeRound (rankCmp rank) st = .ok st' := by
    unfold mergeRound
    rw [if_neg htwo, hh, hk, if_neg (Nat.lt_irrefl _), if_neg (Nat.lt_irrefl _), hlink]
  refine ⟨st', z, S, ?_, ?_, hptr, hpq1', hz, hst'⟩
  · rw [mergeLoop, if_pos ⟨hpq1, hpq2⟩, hround]
    simp only [bind, Except.bind]
    rw [mergeLoop, if_neg fun h => h.2 hpq2']
  · obtain ⟨k, hk⟩ := exists_rounds
    rw [hk, memoryItemLoop, if_neg fun h => htwo' h.2]

theorem merge_of_loops {cmp : CmpFun} {m : Memory} {p q : Nat} (hp : p ≠ nullPtr)
    (hq : q ≠ nullPtr) (hloop : mergeLoop cmp priqRounds ⟨m, p, q, nullPtr, nullPtr⟩ = .ok st)
    (hpq1 : st.pq1 ≠ nullPtr)
    (hcarry : memoryItemLoop cmp priqRounds st.m st.pq1 = .ok (st.pq1, st.m)) :
    merge cmp m p q = .ok (st.finish st.pq1) := by
  unfold merge
  rw [if_neg (fun h => hp h.1), if_neg hp, if_neg hq, hloop]
  simp only [bind, Except.bind, if_neg hpq1, hcarry, pure, Except.pure]

variable {m : Memory} {p q a b r z : Nat} {S : Heap Nat}

/-- Two trees whose height does not fit. -/
theorem merge_overflow (hN : N + 1 = 2 ^ 24)
    (hP : HeapAt m.words m.Live (.tree N x sons .nil) p)
    (hQ : HeapAt m.words m.Live (.tree N y sons' .nil) q) (hs : sons.Sons N)
    (hcan : m.canAllocate 8) : ∃ z m', merge (rankCmp rank) m p q = .ok (z, m') := by
  have hst := MergesTo.start (.refl (by unfold canAllocate at hcan; omega)) hP hQ
    ⟨Nat.zero_le N, hs, trivial⟩
  obtain ⟨n, hn⟩ := exists_rounds
  obtain ⟨st, z, S, hloop, hcarry, -, hpq1, -, -⟩ :=
    hst.overflow rank (n := n + 1) hN hcan
  rw [show n + 1 + 2 = priqRounds from hn.symm] at hloop
  exact ⟨_, _, merge_of_loops hP.tree.1 hQ.tree.1 hloop hpq1 hcarry⟩

/-- The same after a tree of the height `0`: the new queue has two trees of the height
`0`. -/
theorem merge_overflow_after (hN : N + 1 = 2 ^ 24) (h0 : 0 < N)
    (hP : HeapAt m.words m.Live (.tree 0 a .nil (.tree N x sons .nil)) p)
    (hQ : HeapAt m.words m.Live (.tree N y sons' .nil) q) (hs : sons.Sons N)
    (hcan : m.canAllocate 12) :
    ∃ z m' r b S, merge (rankCmp rank) m p q = .ok (z, m') ∧ m.Filling [(z, 4)] m' ∧
      m.allocationPtr = m'.allocationPtr + 12 ∧ z ≠ nullPtr ∧ TreeCell m'.words z 0 a nullPtr ∧
      m'.words (z + 3) = ptrToWord r ∧
      HeapAt m'.words (m'.Closed [(z, 4)]) (.tree 0 b S .nil) r ∧ (b = x ∨ b = y) := by
  have hst := MergesTo.start (.refl (by unfold canAllocate at hcan; omega)) hP hQ
    ⟨Nat.le_refl 0, rfl, h0, hs, trivial⟩
  have hp := hP.tree.1
  have hq := hQ.tree.1
  have htwo : ¬ Priq.twoEqual m.words p = true := by
    rw [hst.twoEqual rank Heap.tree_ne_nil]
    simp [carry?, Nat.ne_of_lt h0]
  obtain ⟨hh, hk⟩ := hst.heights rfl rfl
  dsimp only at hh hk
  obtain ⟨q₁, m₁, m₂, p', hcopy, happend, hst₂, hptr₂⟩ :=
    hst.copyFirst rfl ⟨Nat.zero_le N, hs, trivial⟩ (canAllocate_mono hcan (by decide))
  dsimp only at hcopy happend hptr₂
  have hround : mergeRound (rankCmp rank) ⟨m, p, q, nullPtr, nullPtr⟩ =
      .ok ⟨m₂, next m₂.words p, q, p', q₁⟩ := by
    unfold mergeRound
    dsimp only
    rw [if_neg htwo, hh, hk, if_pos h0, hcopy]
    simp only [bind, Except.bind, pure, Except.pure, happend]
  have hcan₂ : m₂.canAllocate 8 := hst.canAllocate hst₂ hptr₂ hcan
  obtain ⟨n, hn⟩ := exists_rounds
  obtain ⟨st, b, S, hloop, hcarry, hptr, hpq1, hb, c₁, c₂, hf, hfirst, -, hnew⟩ :=
    hst₂.overflow rank (n := n) hN hcan₂
  have hloop' : mergeLoop (rankCmp rank) priqRounds ⟨m, p, q, nullPtr, nullPtr⟩ = .ok st := by
    rw [hn, mergeLoop, if_pos ⟨hp, hq⟩, hround]
    exact hloop
  have hmerge := merge_of_loops hp hq hloop' hpq1 hcarry
  have hsub : c₂.Sublist (c₁ ++ c₂) := List.sublist_append_right _ _
  have hheap := hfirst.close hf
  have hf₂ := hf.close hsub
  obtain ⟨m₃, pq1, pq2, p₃, last⟩ := st
  dsimp only at *
  cases hnew with
  | upTo hlast hto =>
    cases hto with
    | cons _ _ _ _ _ hrest => cases hrest
    | last _ hcell hnil =>
      have hmem : (p₃, 4) ∈ [(p₃, 4)] := List.mem_cons_self
      obtain rfl := show _ = nullPtr from hnil
      refine ⟨p₃, m₃.set (p₃ + 3) (ptrToWord pq1), pq1, b, S, ?_, hf₂.set hmem (by decide) _,
        ?_, hlast, hcell.congr fun i hi => ?_, ?_, hheap.keeps (Keeps.set m₃ hmem (by decide) _),
        hb⟩
      · rw [hmerge, Merging.finish, if_neg hlast]
      · rw [set_allocationPtr]
        omega
      · rw [set_words, if_neg (by omega)]
      · rw [set_words, if_pos rfl]

/-- The tree that stays in its cell when the first two trees are linked. -/
theorem linkFirstTwo_root {cmp : CmpFun} {m' : Memory} {z' : Nat}
    (herror : cmp (item m.words z) (item m.words (next m.words z)) ≠ .error)
    (hgreater : cmp (item m.words z) (item m.words (next m.words z)) ≠ .greater)
    (hlink : linkFirstTwo cmp m z = .ok (z', m')) : z' = z := by
  unfold linkFirstTwo at hlink
  simp only [if_neg herror, if_neg hgreater] at hlink
  exact (Prod.mk.inj (Except.ok.inj hlink)).1.symm

theorem cellCopy_size {m' : Memory} (hcopy : cellCopy m p = .ok (q, m')) :
    q + 4 = m.allocationPtr ∧ m.firstGenerationEnd ≤ q := by
  unfold cellCopy at hcopy
  split at hcopy
  · next hcan =>
    have hroom := hcan.2
    have hq := (Prod.mk.inj (Except.ok.inj hcopy)).1
    unfold canAllocate at hroom
    omega
  · cases hcopy

/-- A queue with two trees of the height `0`: `merge` takes the first one for a carry, and
makes the second one its son. -/
theorem merge_writes_first (hf : m₀.Filling [(z, 4)] m) (hz : z ≠ nullPtr)
    (hcell : TreeCell m.words z 0 a nullPtr) (hnext : m.words (z + 3) = ptrToWord r)
    (hr : HeapAt m.words (m.Closed [(z, 4)]) (.tree 0 b S .nil) r) (hab : rank a ≤ rank b)
    (hq : HeapAt m.words (m.Closed [(z, 4)]) (.tree N y sons .nil) q) (hN : 1 < N)
    (hcan : m.canAllocate 8) :
    ∃ r' m', merge (rankCmp rank) m z q = .ok (r', m') ∧ next m'.words z = nullPtr := by
  have hst : MergesTo m₀ ⟨m, z, q, nullPtr, nullPtr⟩
      ⟨.nil, .tree 0 a .nil (.tree 0 b S .nil), .tree N y sons .nil⟩ :=
    ⟨[(z, 4)], [], hf, .new hz hcell hnext rfl hr, hq, .nil⟩
  have htwo : Priq.twoEqual m.words z = true := by
    rw [hst.twoEqual rank Heap.tree_ne_nil]
    simp [carry?]
  -- the second tree becomes a son of the first one, in place
  obtain ⟨z', m₁, hlink, hst₁, hptr₁⟩ := hst.linkFirstTwo_fits rank (by decide) rfl
    (canAllocate_mono hcan (by decide))
  dsimp only at hlink hptr₁
  obtain rfl : z' = z := by
    have hnext' : next m.words z = r := by rw [Priq.next, hnext, wordToPtr_ptrToWord]
    obtain ⟨-, -, s, hcell', -⟩ := hr.tree
    have hgreater : rankCmp rank a b ≠ .greater := by
      rw [ne_eq, rankCmp_eq_greater]
      exact not_lt.mpr hab
    rw [← hcell.item_eq, ← hcell'.item_eq, ← hnext'] at hgreater
    exact linkFirstTwo_root rankCmp_ne_error hgreater hlink
  rw [link, if_neg (not_lt.mpr hab)] at hst₁
  have hcan₁ : m₁.canAllocate 4 := hst.canAllocate hst₁ hptr₁ hcan
  have htwo₁ : ¬ Priq.twoEqual m₁.words z' = true := by
    rw [hst₁.twoEqual rank Heap.tree_ne_nil]
    simp [carry?]
  obtain ⟨hh, hk⟩ := hst₁.heights rfl rfl
  dsimp only at hh hk
  -- and is copied
  obtain ⟨q₁, m₂, m₃, p', hcopy, happend, hst₃, hptr₃⟩ := hst₁.copyFirst rfl trivial hcan₁
  dsimp only at hcopy happend hptr₃
  have hnull : next m₃.words z' = nullPtr := hst₃.pq1_eq_nullPtr_iff.mpr rfl
  obtain ⟨hsize, hfits⟩ := cellCopy_size hcopy
  have hend := m₁.firstGenerationEnd_pos
  have hq₁ : q₁ ≠ nullPtr := by
    unfold nullPtr
    omega
  have hfresh := hf.fresh _ List.mem_cons_self
  dsimp only at hfresh
  refine ⟨p', m₃.set (q₁ + 3) (ptrToWord q), ?_, ?_⟩
  · obtain ⟨n, hn⟩ := exists_rounds
    have hloop : mergeLoop (rankCmp rank) priqRounds ⟨m, z', q, nullPtr, nullPtr⟩ =
        .ok ⟨m₃, next m₃.words z', q, p', q₁⟩ := by
      have hround : mergeRound (rankCmp rank) ⟨m, z', q, nullPtr, nullPtr⟩ =
          .ok ⟨m₁, z', q, nullPtr, nullPtr⟩ := by
        unfold mergeRound
        rw [if_pos htwo, hlink]
        rfl
      have hround₁ : mergeRound (rankCmp rank) ⟨m₁, z', q, nullPtr, nullPtr⟩ =
          .ok ⟨m₃, next m₃.words z', q, p', q₁⟩ := by
        unfold mergeRound
        dsimp only
        rw [if_neg htwo₁, hh, hk, if_pos (by omega), hcopy]
        simp only [bind, Except.bind, pure, Except.pure, happend]
      have hqnull := hq.tree.1
      rw [hn, mergeLoop, if_pos ⟨hz, hqnull⟩, hround]
      simp only [bind, Except.bind]
      rw [mergeLoop, if_pos ⟨hz, hqnull⟩, hround₁]
      simp only [bind, Except.bind]
      rw [mergeLoop, if_neg fun h => h.1 hnull]
    unfold merge
    rw [if_neg (fun h => hz h.1), if_neg hz, if_neg hq.tree.1, hloop]
    simp only [bind, Except.bind, if_pos hnull, pure, Except.pure, Merging.finish, if_neg hq₁]
  · rw [Priq.next, set_words, if_neg (by omega)]
    exact hnull

end Shades
