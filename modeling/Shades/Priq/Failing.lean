import Shades.Priq.Operations

/-!
# Shades.Priq.Failing

Comparison functions that report errors.  A function that orders the items by
their rank may report an error for some of them instead: then `merge` either
does what it does without errors, or it ends early, and by then it has only
written to cells of its own.
-/

namespace Shades

open Memory BinomialHeap BinomialHeap.Heap Priq

variable {κ : Type} [LinearOrder κ] (rank : Nat → κ)

/-- A comparison that does not report an error compares the ranks. -/
def MayFail (cmp : CmpFun) : Prop := ∀ x y, cmp x y = .error ∨ cmp x y = rankCmp rank x y

/-- What `merge` or a part of it does: the same as without errors, or it has failed and
the memory is an extension of `m₀`. -/
def FailsOr {α : Type} (m₀ : Memory) (r r' : Except Stop α) : Prop :=
  r = r' ∨ ∃ m, r = .error (.comparison m) ∧ m₀.Extends m

variable {rank} {cmp : CmpFun} {m₀ m : Memory} {p q low : Nat} {st : Merging}
  {M : Melding Nat}

/-! ## a round -/

theorem MayFail.linkFirstTwo (hcmp : MayFail rank cmp) (m : Memory) (p : Nat) :
    Priq.linkFirstTwo cmp m p = Priq.linkFirstTwo (rankCmp rank) m p ∨
      Priq.linkFirstTwo cmp m p = .error (.comparison m) := by
  unfold Priq.linkFirstTwo
  rcases hcmp (item m.words p) (item m.words (next m.words p)) with h | h
  · exact .inr (by simp only [h, if_true])
  · exact .inl (by simp only [h])

theorem MayFail.linkEqual (hcmp : MayFail rank cmp) (st : Merging) :
    Priq.linkEqual cmp st = Priq.linkEqual (rankCmp rank) st ∨
      Priq.linkEqual cmp st = .error (.comparison st.m) := by
  unfold Priq.linkEqual
  rcases hcmp (item st.m.words st.pq1) (item st.m.words st.pq2) with h | h
  · exact .inr (by simp only [h, if_true])
  · exact .inl (by simp only [h])

theorem MayFail.mergeRound (hcmp : MayFail rank cmp) (st : Merging) :
    Priq.mergeRound cmp st = Priq.mergeRound (rankCmp rank) st ∨
      Priq.mergeRound cmp st = .error (.comparison st.m) := by
  unfold Priq.mergeRound
  split
  · rcases hcmp.linkFirstTwo st.m st.pq1 with h | h
    · exact .inl (by rw [h])
    · exact .inr (by rw [h]; rfl)
  · split
    · exact .inl rfl
    · split
      · exact .inl rfl
      · exact hcmp.linkEqual st

/-! ## the loops -/

theorem MergesTo.extends (hst : MergesTo m₀ st M) : m₀.Extends st.m := by
  obtain ⟨c₁, c₂, hf, -⟩ := hst
  exact hf.extends

/-- The first loop. -/
theorem MergesTo.loop_failing {n : Nat} (hcmp : MayFail rank cmp) (hst : MergesTo m₀ st M)
    (hM : M.Inv low) (hcard : M.items.card < 2 ^ 2 ^ 24)
    (hcan : st.m.canAllocate (Melding.run rank M.length M).1) :
    FailsOr m₀ (mergeLoop cmp n st) (mergeLoop (rankCmp rank) n st) := by
  induction n generalizing st M low with
  | zero => exact .inl rfl
  | succ n ih =>
    unfold mergeLoop
    by_cases hempty : st.pq1 ≠ nullPtr ∧ st.pq2 ≠ nullPtr
    · rw [if_pos hempty, if_pos hempty]
      rcases hcmp.mergeRound st with h | h
      · obtain ⟨w, M₁, hstep⟩ := Melding.exists_step rank
          (mt hst.pq1_eq_nullPtr_iff.mpr hempty.1) (mt hst.pq2_eq_nullPtr_iff.mpr hempty.2)
        obtain ⟨low₁, hM₁⟩ := hM.step hstep
        rw [Melding.run_step hstep] at hcan
        obtain ⟨st₁, hround, hst₁, hptr⟩ :=
          hst.round hM hcard hstep (canAllocate_mono hcan (Nat.le_add_right _ _))
        rw [h, hround]
        exact ih hst₁ hM₁ (by rwa [Melding.step_items hstep]) (hst.canAllocate hst₁ hptr hcan)
      · rw [h]
        exact .inr ⟨st.m, rfl, hst.extends⟩
    · rw [if_neg hempty, if_neg hempty]
      exact .inl rfl

/-- The second loop. -/
theorem MergesTo.carryLoop_failing {n : Nat} (hcmp : MayFail rank cmp) (hst : MergesTo m₀ st M)
    (hM : M.Inv low) (hcard : M.items.card < 2 ^ 2 ^ 24)
    (hcan : st.m.canAllocate (Melding.run rank M.length M).1) :
    FailsOr m₀ (memoryItemLoop cmp n st.m st.pq1)
      (memoryItemLoop (rankCmp rank) n st.m st.pq1) := by
  induction n generalizing st M low with
  | zero => exact .inl rfl
  | succ n ih =>
    unfold memoryItemLoop
    by_cases htwo : st.pq1 ≠ nullPtr ∧ Priq.twoEqual st.m.words st.pq1
    · rw [if_pos htwo, if_pos htwo]
      rcases hcmp.linkFirstTwo st.m st.pq1 with h | h
      · have hleft := mt hst.pq1_eq_nullPtr_iff.mpr htwo.1
        have hcarry := htwo.2
        rw [hst.twoEqual rank hleft, Option.isSome_iff_exists] at hcarry
        obtain ⟨left, hcarry⟩ := hcarry
        obtain ⟨k, x, s, y, t, rest, hl, rfl⟩ := carry?_some hcarry
        have hstep : M.step rank = some (4, ⟨M.out, link rank k x s y t rest, M.right⟩) := by
          obtain ⟨out, _, right⟩ := M
          obtain rfl := hl
          simp [Melding.step, carry?]
        obtain ⟨low₁, hM₁⟩ := hM.step hstep
        rw [Melding.run_step hstep] at hcan
        obtain ⟨r, m₁, hlink, hst₁, hptr⟩ := hst.linkFirstTwo rank hM hcard hl
          (canAllocate_mono hcan (Nat.le_add_right _ _))
        rw [h, hlink]
        exact ih hst₁ hM₁ (by rwa [Melding.step_items hstep])
          (hst.canAllocate hst₁ hptr hcan)
      · rw [h]
        exact .inr ⟨st.m, rfl, hst.extends⟩
    · rw [if_neg htwo, if_neg htwo]
      exact .inl rfl

/-! ## `merge` -/

/-- `merge` of two queues. -/
theorem mergeQueues_failing {P Q : Heap Nat} (hcmp : MayFail rank cmp) (hf : m₀.Filling [] m)
    (hP : HeapAt m.words m.Live P p) (hQ : HeapAt m.words m.Live Q q)
    (hPr : P.Roots 0) (hQr : Q.Roots 0) (hcard : (P.items + Q.items).card < 2 ^ 2 ^ 24)
    (hcan : m.canAllocate (meld rank P Q).1) :
    FailsOr m₀ (merge cmp m p q) (merge (rankCmp rank) m p q) := by
  unfold merge
  split
  · exact .inl rfl
  split
  · exact .inl rfl
  split
  · exact .inl rfl
  have hst := MergesTo.start hf hP hQ hPr
  have hM : Melding.Inv 0 (⟨.nil, P, Q⟩ : Melding Nat) := ⟨fun r hr => hr, hPr.carried, hQr⟩
  have hcard' : (⟨.nil, P, Q⟩ : Melding Nat).items.card < 2 ^ 2 ^ 24 := by
    rwa [Melding.items, Heap.items, zero_add]
  obtain ⟨st', M', words, low', hloop, hst', hM', hitems, -, -, hrun, hptr⟩ :=
    hst.loop hM hcard' (length_lt_rounds hP hQ hPr hQr) hcan
  rcases hst.loop_failing (n := priqRounds) hcmp hM hcard' hcan with h | ⟨m', h, hext⟩
  · rw [h, hloop]
    simp only [bind, Except.bind]
    by_cases hnull : st'.pq1 = nullPtr
    · exact .inl (by rw [if_pos hnull, if_pos hnull])
    · rw [if_neg hnull, if_neg hnull]
      have hmeld : meld rank P Q = _ := hrun
      rw [hmeld] at hcan
      rcases hst'.carryLoop_failing (n := priqRounds) hcmp hM' (by rwa [hitems])
        (hst.canAllocate hst' hptr hcan) with h | ⟨m', h, hext⟩
      · exact .inl (by rw [h])
      · exact .inr ⟨m', by rw [h], hext⟩
  · exact .inr ⟨m', by rw [h]; rfl, hext⟩

/-! ## the operations -/

/-- What an operation does: the same as without errors, or it has stopped, or it returns
`old`, no word that was in use has changed and the allocation point is what it was. -/
def GivesUpOr (m : Memory) (old : Nat) (r r' : Option (Nat × Memory)) : Prop :=
  r = r' ∨ r = none ∨ ∃ m', r = some (old, m') ∧ m.Extends m' ∧
    m'.allocationPtr = m.allocationPtr

theorem FailsOr.mergedOr {r r' : Except Stop (Nat × Memory)} (h : FailsOr m₀ r r')
    (hext : m.Extends m₀) (old : Nat) :
    GivesUpOr m old (mergedOr m.allocationPtr old r) (mergedOr m.allocationPtr old r') := by
  rcases h with rfl | ⟨m', rfl, hext'⟩
  · exact .inl rfl
  · have hboth := hext.trans hext'
    exact .inr (.inr ⟨_, rfl, ⟨Nat.le_refl _, hboth.firstGenerationEnd_eq,
      hboth.firstGenerationStart_eq, hboth.agree⟩, rfl⟩)

variable {H K : Heap Nat}

/-- `priq_insert`. -/
theorem priqInsert_failing (hcmp : MayFail rank cmp) (hH : HeapAt m.words m.Live H p)
    (hroots : H.Roots 0) (data : Nat) (hcard : H.items.card + 1 < 2 ^ 2 ^ 24)
    (hcan : m.canAllocate (insertWords rank H data)) :
    GivesUpOr m p (priqInsert m p data cmp) (priqInsert m p data (rankCmp rank)) := by
  unfold insertWords at hcan
  obtain ⟨q, m₂, hinsert, hf, hptr, hsingle⟩ :=
    priqInsert_start p data (canAllocate_mono hcan (Nat.le_add_right _ _))
  have hext := hf.extends
  have hcan₂ : m₂.canAllocate (meld rank H (single data)).1 := by
    have hend := hext.firstGenerationEnd_eq
    unfold canAllocate at hcan ⊢
    omega
  rw [hinsert, hinsert]
  exact (mergeQueues_failing hcmp hf (hH.frame hext.agree fun _ => hext.live) hsingle hroots
    (single_roots data) (by rwa [Multiset.card_add]) hcan₂).mergedOr (.refl m) p

/-- `priq_merge`. -/
theorem priqMerge_failing (hcmp : MayFail rank cmp) (hH : HeapAt m.words m.Live H p)
    (hK : HeapAt m.words m.Live K q) (hroots : H.Roots 0) (hroots' : K.Roots 0)
    (hcard : H.items.card + K.items.card < 2 ^ 2 ^ 24) (hcan : m.canAllocate (meld rank H K).1) :
    GivesUpOr m nullPtr (priqMerge m p q cmp) (priqMerge m p q (rankCmp rank)) := by
  unfold priqMerge
  split
  · exact .inl rfl
  · exact (mergeQueues_failing hcmp (.refl hcan.fits) hH hK hroots hroots'
      (by rwa [Multiset.card_add]) hcan).mergedOr (.refl m) nullPtr

/-- `find_min` finds the same tree, or its assertion fails. -/
theorem MayFail.findMin (hcmp : MayFail rank cmp) (words : Nat → Nat) (p : Nat) :
    Priq.findMin words p cmp = Priq.findMin words p (rankCmp rank) ∨
      Priq.findMin words p cmp = none := by
  have hloop : ∀ n last least, findMinLoop words cmp n last least =
      findMinLoop words (rankCmp rank) n last least ∨
        findMinLoop words cmp n last least = none := by
    intro n
    induction n with
    | zero => exact fun _ _ => .inl rfl
    | succ n ih =>
      intro last least
      unfold findMinLoop
      dsimp only
      split
      · exact .inl rfl
      · rcases hcmp (item words least) (item words (next words last)) with h | h
        · right
          simp [h, assert]
        · rw [h, assert_true rankCmp_ne_error]
          exact ih _ _
  unfold Priq.findMin
  split
  · exact .inl rfl
  · exact hloop _ _ _

/-- `priq_delete`. -/
theorem priqDelete_failing (hcmp : MayFail rank cmp) (hH : HeapAt m.words m.Live H p)
    (hroots : H.Roots 0) (hcan : ∀ before h x sons after, LeastTree rank H before h x sons after →
      m.canAllocate (deleteWords rank before sons after)) :
    GivesUpOr m p (priqDelete m p cmp) (priqDelete m p (rankCmp rank)) := by
  by_cases hne : H = .nil
  · obtain rfl := hne
    have hnull : p = nullPtr := hH
    rw [hnull, priqDelete_nil, priqDelete_nil]
    exact .inl rfl
  obtain ⟨before, h, x, sons, after, hfind, hmin⟩ := findMin_spec rank hH hne hroots
  have hp : p ≠ nullPtr := mt hH.eq_nullPtr_iff.mp hne
  rcases hcmp.findMin m.words p with hfind' | hfind'
  · rw [hfind] at hfind'
    have hH' := hmin.eq ▸ hH
    have hroots' := hmin.eq ▸ hroots
    obtain ⟨-, -, s, hcell, hsons, -⟩ := hH'.skip.tree
    obtain ⟨hrest, hsonsRoots⟩ := hroots'.remove
    have hcan' := hcan _ _ _ _ _ hmin
    unfold deleteWords at hcan'
    obtain ⟨r₁, r₂, m₂, hdelete, hext₂, hptr₂, hrest₁, hrest₂⟩ :=
      priqDelete_start hH' hroots' hcell hsons (canAllocate_mono hcan' (Nat.le_add_right _ _))
    have hcan₂ : m₂.canAllocate (meld rank (sons.reverseOnto .nil) (before.append after)).1 := by
      have hend := hext₂.firstGenerationEnd_eq
      unfold canAllocate at hcan' ⊢
      omega
    have hcard := hH.card_lt hroots
    rw [hmin.items, Multiset.card_cons, Multiset.card_add] at hcard
    rw [hdelete _ hfind, hdelete _ hfind']
    split
    · exact .inl rfl
    · refine (mergeQueues_failing hcmp (.refl hcan₂.fits) hrest₂ hrest₁
        (hsonsRoots.reverseOnto (q := .nil) trivial) hrest ?_ hcan₂).mergedOr hext₂ p
      rw [items_reverseOnto, Heap.items, add_zero, Multiset.card_add]
      exact Nat.lt_of_succ_lt hcard
  · right
    left
    simp [priqDelete, hp, hfind']

end Shades
