import Shades.Priq.Merge

/-!
# Shades.Priq.Minimum

The function `find_min`, and the two lists that `priq_delete` makes of a queue:
the trees other than the minimum tree, and the sons of the minimum tree.
-/

namespace Shades

open Memory BinomialHeap BinomialHeap.Heap Priq

variable {κ : Type} [LinearOrder κ] {rank : Nat → κ}
variable {words : Nat → Nat} {S S' : Nat → Prop} {m₀ m m' : Memory}
variable {p q r h x n : Nat} {H R before mid after sons rest : Heap Nat}

/-! ## places in a list -/

/-- The list that is left after some trees. -/
theorem HeapAt.skip (hH : HeapAt words S (before.append R) p) :
    HeapAt words S R ((next words)^[before.length] p) := by
  induction before generalizing p with
  | nil => exact hH
  | tree h x sons rest _ ih =>
    obtain ⟨-, -, s, -, -, hrest⟩ := HeapAt.tree hH
    exact ih hrest

theorem HeapAt.skip_frame {words' : Nat → Nat} (hH : HeapAt words S (before.append R) p)
    (hagree : AgreeOn S words words') :
    (next words')^[before.length] p = (next words)^[before.length] p := by
  induction before generalizing p with
  | nil => rfl
  | tree h x sons rest _ ih =>
    obtain ⟨-, hS, s, -, -, hrest⟩ := HeapAt.tree hH
    have hnext : next words' p = next words p := by
      unfold Priq.next
      rw [hagree _ (hS 3 (by decide))]
    rw [Heap.length, Function.iterate_succ_apply, Function.iterate_succ_apply, hnext]
    exact ih hrest

/-- A pointer stands for one list only. -/
theorem HeapAt.unique {H' : Heap Nat} (hH : HeapAt words S H p) (hH' : HeapAt words S' H' p) :
    H = H' := by
  induction H generalizing H' p with
  | nil => exact (hH'.eq_nullPtr_iff.mp hH).symm
  | tree h x sons rest ihsons ihrest =>
    cases H' with
    | nil => exact absurd hH' hH.1
    | tree h' x' sons' rest' =>
      obtain ⟨-, -, s, hcell, hsons, hrest⟩ := hH.tree
      obtain ⟨-, -, s', hcell', hsons', hrest'⟩ := hH'.tree
      obtain rfl : h = h' := hcell.height_eq.symm.trans hcell'.height_eq
      obtain rfl : x = x' := hcell.item_eq.symm.trans hcell'.item_eq
      obtain rfl : s = s' := hcell.son_eq.symm.trans hcell'.son_eq
      rw [ihsons hsons hsons', ihrest hrest hrest']

/-- Two places in a list are different. -/
theorem HeapAt.skip_ne (hH : HeapAt words S (before.append R) p) (hbefore : before ≠ .nil) :
    p ≠ (next words)^[before.length] p := by
  intro heq
  have hR := hH.skip
  rw [← heq] at hR
  have hlen := congrArg Heap.length (hH.unique hR)
  rw [length_append] at hlen
  cases before with
  | nil => exact hbefore rfl
  | tree h x sons rest =>
    simp only [Heap.length] at hlen
    omega

/-! ## the minimum -/

/-- The tree `q` is the least one of those seen so far; `p` is the last tree
seen. -/
theorem findMinLoop_spec {n first last : Nat}
    (hq : q = (next words)^[before.length] first)
    (hlast : last = (next words)^[before.length + mid.length] first)
    (hH : HeapAt words S (before.append (.tree h x sons (mid.append rest))) first)
    (hrest : HeapAt words S rest (next words last))
    (hbefore : ∀ y ∈ before.roots, rank x < rank y) (hmid : ∀ y ∈ mid.roots, rank x ≤ rank y)
    (hn : rest.length < n) :
    ∃ before' h' x' sons' after,
      findMinLoop words (rankCmp rank) n last q = some ((next words)^[before'.length] first) ∧
      LeastTree rank (before.append (.tree h x sons (mid.append rest))) before' h' x' sons'
        after := by
  induction n generalizing before h x sons mid rest last q with
  | zero => omega
  | succ n ih =>
    cases rest with
    | nil =>
      have hnull : next words last = nullPtr := hrest
      refine ⟨before, h, x, sons, mid, by rw [findMinLoop, if_pos hnull, hq],
        ⟨by rw [append_nil], hbefore, hmid⟩⟩
    | tree k y t rest =>
      obtain ⟨hp, -, s, hcell, hsons, hrest'⟩ := hrest.tree
      have hmin := hH.skip
      rw [← hq] at hmin
      obtain ⟨-, -, s', hcell', -⟩ := hmin.tree
      have hlen : rest.length < n := by
        simp only [Heap.length] at hn
        omega
      have hround : findMinLoop words (rankCmp rank) (n + 1) last q =
          findMinLoop words (rankCmp rank) n (next words last)
            (if rank y < rank x then next words last else q) := by
        simp [findMinLoop, hp, hcell.item_eq, hcell'.item_eq, assert_true rankCmp_ne_error,
          rankCmp_eq_greater]
      have hplace : next words last = (next words)^[before.length + mid.length + 1] first := by
        rw [Function.iterate_succ_apply', ← hlast]
      by_cases hlt : rank y < rank x
      · -- the new tree is less
        have hlist : before.append (.tree h x sons (mid.append (.tree k y t rest))) =
            (before.append (.tree h x sons mid)).append (.tree k y t (Heap.nil.append rest)) := by
          rw [append_assoc]
          rfl
        have hplace' : next words last =
            (next words)^[(before.append (.tree h x sons mid)).length] first := by
          rw [hplace, length_append]
          rfl
        rw [hround, if_pos hlt, hlist]
        refine ih hplace' (by simpa [Heap.length] using hplace') (hlist ▸ hH) hrest'
          (fun z hz => ?_) (fun z hz => by cases hz) hlen
        rw [roots_append, List.mem_append] at hz
        rcases hz with hz | hz
        · exact hlt.trans (hbefore z hz)
        · rcases List.mem_cons.mp hz with rfl | hz
          · exact hlt
          · exact hlt.trans_le (hmid z hz)
      · have hlist : mid.append (.tree k y t rest) =
            (mid.append (.tree k y t .nil)).append rest := by
          rw [append_assoc]
          rfl
        rw [hround, if_neg hlt, hlist]
        refine ih hq (by rw [hplace, length_append]; rfl) (hlist ▸ hH) hrest' hbefore
          (fun z hz => ?_) hlen
        rw [roots_append, List.mem_append] at hz
        rcases hz with hz | hz
        · exact hmid z hz
        · obtain rfl := List.mem_singleton.mp hz
          exact not_lt.mp hlt

variable (rank) in
/-- `find_min` gives the place of the least tree. -/
theorem findMin_spec (hH : HeapAt words S H p) (hne : H ≠ .nil) (hroots : H.Roots 0) :
    ∃ before h x sons after,
      findMin words p (rankCmp rank) = some ((next words)^[before.length] p) ∧
      LeastTree rank H before h x sons after := by
  cases H with
  | nil => exact absurd rfl hne
  | tree h x sons rest =>
    obtain ⟨hp, -, s, -, -, hrest⟩ := hH.tree
    have hlength := hroots.length_le hH.below (Nat.zero_le _)
    unfold findMin
    rw [if_neg hp]
    refine findMinLoop_spec rfl rfl
      (show HeapAt words S (Heap.nil.append (.tree h x sons (Heap.nil.append rest))) p from hH)
      hrest (fun y hy => by cases hy) (fun y hy => by cases hy) ?_
    unfold priqRounds
    simp only [Heap.length] at hlength
    omega

/-! ## copies -/

/-- The copy is a new open cell. -/
theorem copyTree_spec {s : Nat} {c : List (Nat × Nat)} (hf : m₀.Filling c m)
    (hcell : TreeCell m.words p h x s) (hlive : ∀ i < 4, m.Live (p + i))
    (hcan : m.canAllocate 4) :
    ∃ q m', copyTree m p = (q, m') ∧ q ≠ nullPtr ∧ m₀.Filling ((q, 4) :: c) m' ∧
      Keeps m c m' ((q, 4) :: c) ∧ m.allocationPtr = m'.allocationPtr + 4 ∧
      TreeCell m'.words q h x s ∧ ∀ a, m.allocationPtr ≤ a → m'.words a = m.words a := by
  obtain ⟨q, m₁, hnew⟩ := exists_newCell .priqItem (by decide) hcan
  have hmem : (q, 4) ∈ (q, 4) :: c := List.mem_cons_self
  have hptr := hnew.allocationPtr_eq
  have hsize := hnew.size
  have hread : ∀ i < 4, m₁.words (p + i) = m.words (p + i) := fun i hi =>
    hnew.words _ (by
      have hi' := hlive i hi
      have hfits := hnew.fits
      rw [hnew.firstGenerationEnd_eq] at hfits
      unfold Live at hi'
      omega)
  have hcell₁ := hcell.congr fun i hi => hread i (by omega)
  have hwords : (fillCell q 0 [m₁.words p, m₁.words (p + 1), m₁.words (p + 2)] m₁).words q =
        m₁.words p ∧
      (fillCell q 0 [m₁.words p, m₁.words (p + 1), m₁.words (p + 2)] m₁).words (q + 1) =
        m₁.words (p + 1) ∧
      (fillCell q 0 [m₁.words p, m₁.words (p + 1), m₁.words (p + 2)] m₁).words (q + 2) =
        m₁.words (p + 2) := by
    simp [fillCell]
  obtain ⟨hw, hw₁, hw₂⟩ := hwords
  refine ⟨q, fillCell q 0 [m₁.words p, m₁.words (p + 1), m₁.words (p + 2)] m₁, ?_,
    hnew.ne_nullPtr, (hf.newCell hnew).fill hmem _ (by simp), (hnew.keeps (by decide) c).trans
    (Keeps.fill m₁ hmem _ (by simp)), by rw [fillCell_allocationPtr]; omega,
    ⟨hw.trans hcell₁.header, hcell.height_lt, hw₁.trans hcell₁.item, hw₂.trans hcell₁.son⟩,
    fun a ha => ?_⟩
  · unfold copyTree
    rw [hnew.eq]
  · rw [fillCell_words_of_ge _ _ (by simp; omega), hnew.words a (by omega)]

/-- Another copy at the end of the list from `r` to `last`. -/
theorem snoc_spec {s last : Nat} (hf : m₀.Filling [(q, 4), (last, 4)] m) (hq : q ≠ nullPtr)
    (hlast : last ≠ nullPtr) (hcell : TreeCell m.words q h x s)
    (hsons : HeapAt m.words (m.Closed [(q, 4), (last, 4)]) sons s)
    (hto : QueueTo m.words (m.Closed [(q, 4), (last, 4)]) last H r) :
    m₀.Filling [(q, 4)] (m.set (last + 3) (ptrToWord q)) ∧
      Keeps m [(q, 4), (last, 4)] (m.set (last + 3) (ptrToWord q)) [(q, 4)] ∧
      QueueTo (m.set (last + 3) (ptrToWord q)).words
        ((m.set (last + 3) (ptrToWord q)).Closed [(q, 4)]) q (H.append (.tree h x sons .nil))
        r := by
  obtain ⟨m', p', happend, hf', hk, -, -, hnew⟩ :=
    append_spec ⟨m, nullPtr, nullPtr, r, last⟩
      (show m₀.Filling ((q, 4) :: ([] ++ [(last, 4)])) m from hf) hq hcell hsons (.upTo hlast hto)
  rw [Merging.append, if_neg hlast] at happend
  injection happend with hm _ _ hp _
  subst hm hp
  cases hnew with
  | upTo _ hto' => exact ⟨hf', hk, hto'⟩

/-- The trees before the minimum tree are copied. -/
theorem copyLoop_spec {last : Nat} (hf : m₀.Filling [(last, 4)] m) (hlast : last ≠ nullPtr)
    (hto : QueueTo m.words (m.Closed [(last, 4)]) last H r)
    (hp : HeapAt m.words (m.Closed [(last, 4)]) (before.append R) p)
    (hn : before.length < n) (hcan : m.canAllocate (4 * before.length)) :
    ∃ last' m', copyLoop ((next m.words)^[before.length] p) n m p last =
        some (last', (next m.words)^[before.length] p, m') ∧ m₀.Filling [(last', 4)] m' ∧
      last' ≠ nullPtr ∧ QueueTo m'.words (m'.Closed [(last', 4)]) last' (H.append before) r ∧
      HeapAt m'.words (m'.Closed [(last', 4)]) R ((next m.words)^[before.length] p) ∧
      m.allocationPtr = m'.allocationPtr + 4 * before.length := by
  induction before generalizing m H p last n with
  | nil =>
    cases n with
    | zero => omega
    | succ n =>
      refine ⟨last, m, by simp [copyLoop, Heap.length], hf, hlast, ?_, hp, rfl⟩
      rwa [append_nil]
  | tree h x sons rest _ ih =>
    cases n with
    | zero => omega
    | succ n =>
      have hne := HeapAt.skip_ne hp (fun heq => by cases heq)
      obtain ⟨hpnull, hlive, s, hcell, hsons, hrest⟩ := HeapAt.tree hp
      have hlive' : ∀ i < 4, m.Live (p + i) := fun i hi => (hlive i hi).1
      obtain ⟨q, m₁, hcopy, hq, hf₁, hk₁, hptr, hcell₁, hw₁⟩ :=
        copyTree_spec hf hcell hlive' (canAllocate_mono hcan (by simp only [Heap.length]; omega))
      have hfresh := hf.fresh _ List.mem_cons_self
      obtain ⟨hf₂, hk₂, hto₂⟩ := snoc_spec hf₁ hq hlast hcell₁ (hsons.keeps hk₁)
        (hto.frame hk₁.agree hk₁.closed fun i _ => hw₁ _ (by dsimp only at hfresh; omega))
      have hnext : next m₁.words p = next m.words p := by
        unfold Priq.next
        rw [(hk₁ _ (hlive 3 (by decide))).2]
      have hk := hk₁.trans hk₂
      have hcan' : (m₁.set (last + 3) (ptrToWord q)).canAllocate (4 * rest.length) := by
        have hend := hf₂.allocates.firstGenerationEnd_eq
        rw [← hf.allocates.firstGenerationEnd_eq] at hend
        simp only [Heap.length] at hcan
        unfold canAllocate at hcan ⊢
        rw [hend, set_allocationPtr]
        omega
      obtain ⟨last', m', hloop, hf', hlast', hto', hR', hptr'⟩ := ih hf₂ hq hto₂
        (hrest.keeps hk) (n := n) (by simp only [Heap.length] at hn; omega) hcan'
      rw [hrest.skip_frame hk.agree] at hloop hR'
      have hplace : (next m.words)^[(Heap.tree h x sons rest).length] p =
          (next m.words)^[rest.length] (next m.words p) := rfl
      rw [append_assoc] at hto'
      rw [hplace] at hne ⊢
      refine ⟨last', m', ?_, hf', hlast', hto', hR', ?_⟩
      · rw [copyLoop, if_pos hne, hcopy]
        simp only [hnext, hloop]
      · rw [set_allocationPtr] at hptr'
        simp only [Heap.length]
        omega

/-- The list without the minimum tree. -/
theorem exceptMin_spec (hH : HeapAt m.words m.Live (before.append (.tree h x sons after)) p)
    (hn : before.length ≤ priqRounds) (hfits : m.firstGenerationEnd ≤ m.allocationPtr)
    (hcan : m.canAllocate (4 * before.length)) :
    ∃ r m', exceptMin m p ((next m.words)^[before.length] p) = some (r, m') ∧ m.Extends m' ∧
      m'.firstGenerationEnd ≤ m'.allocationPtr ∧
      m.allocationPtr = m'.allocationPtr + 4 * before.length ∧
      HeapAt m'.words m'.Live (before.append after) r := by
  cases before with
  | nil =>
    obtain ⟨-, -, s, -, -, hrest⟩ := HeapAt.tree hH
    exact ⟨next m.words p, m, if_pos rfl, .refl m, hfits, rfl, hrest⟩
  | tree k y t rest =>
    have hne := HeapAt.skip_ne hH (fun heq => by cases heq)
    have hclosed : ∀ a, m.Live a → m.Closed [] a := fun a ha =>
      ⟨ha, fun ⟨c, hc, _⟩ => (by cases hc)⟩
    obtain ⟨hp, hlive, s, hcell, ht, hrest⟩ := HeapAt.tree hH
    obtain ⟨q, m₁, hcopy, hq, hf₁, hk₁, hptr, hcell₁, hw₁⟩ :=
      copyTree_spec (.refl hfits) hcell hlive
        (canAllocate_mono hcan (by simp only [Heap.length]; omega))
    have hrest₁ := (hrest.frame (fun _ _ => rfl) hclosed).keeps hk₁
    have hnext : next m₁.words p = next m.words p := by
      unfold Priq.next
      rw [(hk₁ _ (hclosed _ (hlive 3 (by decide)))).2]
    have hcan₁ : m₁.canAllocate (4 * rest.length) := by
      have hend := hf₁.allocates.firstGenerationEnd_eq
      simp only [Heap.length] at hcan
      unfold canAllocate at hcan ⊢
      omega
    obtain ⟨last, m₂, hloop, hf₂, hlast, hto₂, hR₂, hptr₂⟩ := copyLoop_spec hf₁ hq
      (.last hq hcell₁ ((ht.frame (fun _ _ => rfl) hclosed).keeps hk₁)) hrest₁
      (n := priqRounds) hn hcan₁
    have hplace : (next m₁.words)^[rest.length] (next m.words p) =
        (next m.words)^[(Heap.tree k y t rest).length] p :=
      hrest.skip_frame fun a ha => (hk₁ _ (hclosed a ha)).2
    rw [hplace] at hloop hR₂
    obtain ⟨-, -, -, -, -, hafter⟩ := hR₂.tree
    obtain ⟨r, m', hfinish, hext, hptr', hheap⟩ :=
      finish_spec ⟨m₂, nullPtr, nullPtr, q, last⟩ hf₂ (.upTo hlast hto₂) hafter
    rw [Merging.finish, if_neg hlast] at hfinish
    refine ⟨r, m', ?_, hext, ?_, ?_, hheap⟩
    · unfold exceptMin
      simp only [if_neg hne, hcopy, hnext, hloop, bind, Option.bind, hfinish]
    · rw [hext.firstGenerationEnd_eq, ← hf₂.allocates.firstGenerationEnd_eq, hptr']
      exact hf₂.fits
    · simp only [Heap.length] at hptr' ⊢
      omega

/-- A copy of the tree `p` in front of the list `r`. -/
theorem copyBefore_spec (hfits : m.firstGenerationEnd ≤ m.allocationPtr)
    (hH : HeapAt m.words m.Live (.tree h x sons rest) p) (hR : HeapAt m.words m.Live R r)
    (hcan : m.canAllocate 4) :
    ∃ q m₁, copyTree m p = (q, m₁) ∧ next m₁.words p = next m.words p ∧
      m.Extends (m₁.set (q + 3) (ptrToWord r)) ∧ m₁.firstGenerationEnd ≤ m₁.allocationPtr ∧
      m.allocationPtr = m₁.allocationPtr + 4 ∧
      HeapAt (m₁.set (q + 3) (ptrToWord r)).words (m₁.set (q + 3) (ptrToWord r)).Live
        (.tree h x sons R) q := by
  obtain ⟨-, hlive, s, hcell, hsons, -⟩ := hH.tree
  obtain ⟨q, m₁, hcopy, hq, hf₁, hk₁, hptr, hcell₁, -⟩ :=
    copyTree_spec (.refl hfits) hcell hlive hcan
  have hclosed : ∀ a, m.Live a → m.Closed [] a := fun a ha =>
    ⟨ha, fun ⟨c, hc, _⟩ => (by cases hc)⟩
  have hmem : (q, 4) ∈ [(q, 4)] := List.mem_cons_self
  have hf₂ := hf₁.set hmem (by decide : 3 < 4) (ptrToWord r)
  have hext : m.Extends (m₁.set (q + 3) (ptrToWord r)) := hf₂.extends
  have hfresh := hf₁.fresh _ hmem
  dsimp only at hfresh
  refine ⟨q, m₁, hcopy, ?_, hext, hf₁.fits, hptr, .cons hq (fun i _ => .inr ?_)
    (hcell₁.congr fun i hi => ?_) ?_ (hsons.frame hext.agree fun _ => hext.live)
    (hR.frame hext.agree fun _ => hext.live)⟩
  · unfold Priq.next
    rw [(hk₁ _ (hclosed _ (hlive 3 (by decide)))).2]
  · rw [set_allocationPtr]
    omega
  · rw [set_words, if_neg (by omega)]
  · rw [set_words, if_pos rfl]

/-- The sons of the minimum tree in reverse order. -/
theorem reverseSons_spec (hH : HeapAt m.words m.Live H p) (hR : HeapAt m.words m.Live R r)
    (hn : H.length < n) (hfits : m.firstGenerationEnd ≤ m.allocationPtr)
    (hcan : m.canAllocate (4 * H.length)) :
    ∃ r' m', Priq.reverseLoop n m p r = some (r', m') ∧ m.Extends m' ∧
      m'.firstGenerationEnd ≤ m'.allocationPtr ∧
      m.allocationPtr = m'.allocationPtr + 4 * H.length ∧
      HeapAt m'.words m'.Live (H.reverseOnto R) r' := by
  induction H generalizing m p r R n with
  | nil =>
    have hnull : p = nullPtr := hH
    cases n with
    | zero => omega
    | succ n => exact ⟨r, m, by simp [Priq.reverseLoop, hnull], .refl m, hfits, rfl, hR⟩
  | tree h x sons rest _ ih =>
    cases n with
    | zero => omega
    | succ n =>
      simp only [Heap.length] at hn hcan
      obtain ⟨q, m₁, hcopy, hnext, hext, hfits₁, hptr, hR₁⟩ :=
        copyBefore_spec hfits hH hR (canAllocate_mono hcan (by omega))
      obtain ⟨hp, -, -, -, -, hrest⟩ := hH.tree
      have hcan₁ : (m₁.set (q + 3) (ptrToWord r)).canAllocate (4 * rest.length) := by
        have hend := hext.firstGenerationEnd_eq
        unfold canAllocate at hcan ⊢
        rw [hend, set_allocationPtr]
        omega
      obtain ⟨r', m', hloop, hext', hfits', hptr', hH'⟩ := ih
        (hrest.frame hext.agree fun _ => hext.live) hR₁ (n := n) (by omega) hfits₁ hcan₁
      refine ⟨r', m', ?_, hext.trans hext', hfits', ?_, hH'⟩
      · rw [Priq.reverseLoop, if_pos hp, hcopy]
        simp only [hnext, hloop]
      · rw [set_allocationPtr] at hptr'
        simp only [Heap.length]
        omega

end Shades
