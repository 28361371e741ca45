import Shades.Priq.Rep

/-!
# Shades.Priq.Merge

The function `merge`.  A round of its loops is a step of the melding of two
heaps: the lists `pq_1`, `pq_2` and the new queue stand for the three lists of
the melding, and the step takes as many words as it costs.
-/

namespace Shades

open Memory BinomialHeap BinomialHeap.Heap Priq

variable {κ : Type} [LinearOrder κ] {rank : Nat → κ}
variable {m₀ m m' : Memory} {c₁ c₁' c₂ : List (Nat × Nat)} {p q r h x s n : Nat}
variable {H sons rest : Heap Nat}

/-! ## cells that stay open -/

theorem FirstAt.frame {c cells cells' : List (Nat × Nat)}
    (hF : FirstAt m.words (m.Closed cells) c H p) (hk : Keeps m cells m' cells')
    (hw : ∀ d ∈ c, ∀ i < d.2, m'.words (d.1 + i) = m.words (d.1 + i)) :
    FirstAt m'.words (m'.Closed cells') c H p := by
  cases hF with
  | complete hH hroots => exact .complete (hH.keeps hk) hroots
  | new hp hcell hnext hsons hrest =>
    have hw' := hw _ List.mem_cons_self
    exact .new hp (hcell.congr fun i hi => hw' i (Nat.lt_succ_of_lt hi))
      ((hw' 3 (Nat.lt_succ_self 3)).trans hnext) (hsons.keeps hk) (hrest.keeps hk)

theorem NewQueue.frame {c cells cells' : List (Nat × Nat)} {last : Nat}
    (hq : NewQueue m.words (m.Closed cells) c H p last) (hk : Keeps m cells m' cells')
    (hw : ∀ d ∈ c, ∀ i < d.2, m'.words (d.1 + i) = m.words (d.1 + i)) :
    NewQueue m'.words (m'.Closed cells') c H p last := by
  cases hq with
  | nil => exact .nil
  | upTo hlast hto =>
    exact .upTo hlast (hto.frame hk.agree hk.closed fun i hi =>
      hw _ List.mem_cons_self i (Nat.lt_succ_of_lt hi))

theorem NewQueue.keeps {last : Nat}
    (hq : NewQueue m.words (m.Closed (c₁ ++ c₂)) c₂ H p last) (hf : m₀.Filling (c₁ ++ c₂) m)
    (hk : Keeps m c₁ m' c₁') : NewQueue m'.words (m'.Closed (c₁' ++ c₂)) c₂ H p last :=
  hq.frame (hk.frame c₂) fun _ hc _ hi => (hk _ (hf.closed_right hc hi)).2

/-! ## the words of a tree -/

/-- A tree is written to an open cell. -/
theorem writeTree_words (m : Memory) (q w a b c : Nat) :
    (fillCell q 1 [a, b, c] (m.set q w)).words q = w ∧
    (fillCell q 1 [a, b, c] (m.set q w)).words (q + 1) = a ∧
    (fillCell q 1 [a, b, c] (m.set q w)).words (q + 2) = b ∧
    (fillCell q 1 [a, b, c] (m.set q w)).words (q + 3) = c ∧
    ∀ z, z < q ∨ q + 4 ≤ z → (fillCell q 1 [a, b, c] (m.set q w)).words z = m.words z := by
  refine ⟨by simp [fillCell], by simp [fillCell], by simp [fillCell], by simp [fillCell],
    fun z hz => ?_⟩
  simp [fillCell, show z ≠ q by omega, show z ≠ q + 1 by omega, show z ≠ q + 2 by omega,
    show z ≠ q + 3 by omega]

/-- The height of a tree is changed. -/
theorem header_and (h : Nat) (hh : h < 2 ^ 24) :
    (CellType.priqItem.header ||| h) &&& 0xFF <<< 24 = CellType.priqItem.header := by
  have hlow : h &&& 0xFF <<< 24 = 0 := by
    refine Nat.eq_of_testBit_eq fun i => ?_
    rw [Nat.testBit_and, Nat.testBit_shiftLeft, Nat.zero_testBit]
    by_cases hi : 24 ≤ i
    · rw [Nat.testBit_lt_two_pow (Nat.lt_of_lt_of_le hh (Nat.pow_le_pow_right (by decide) hi))]
      rfl
    · simp [hi]
  rw [Nat.and_or_distrib_right, hlow, Nat.or_zero]
  decide

/-! ## two trees are linked -/

/-- The words of a closed cell are not in the open cell `p`. -/
theorem closed_words (hp : (p, 4) ∈ c₁) {a : Nat} (ha : m.Closed c₁ a) :
    (a < m.firstGenerationEnd ∨ m.allocationPtr ≤ a) ∧ (a < p ∨ p + 4 ≤ a) := by
  obtain ⟨hlive, hnot⟩ := ha
  refine ⟨hlive, ?_⟩
  by_contra hin
  exact hnot ⟨(p, 4), hp, by dsimp only; omega⟩

/-- The words after two trees were linked: `q` is the new root and `q'` its first son.
The height of the new tree may be too great for its cell. -/
structure LinkedWords (words : Nat → Nat) (q q' h x s y t n : Nat) : Prop where
  header : words q = CellType.priqItem.header ||| (h + 1)
  item : words (q + 1) = ptrToWord x
  sonPtr : words (q + 2) = ptrToWord q'
  next : words (q + 3) = ptrToWord n
  son : TreeCell words q' h y t
  sonNext : words (q' + 3) = ptrToWord s

theorem LinkedWords.root {words : Nat → Nat} {q q' y t : Nat}
    (hl : LinkedWords words q q' h x s y t n) (hh : h + 1 < 2 ^ 24) :
    TreeCell words q (h + 1) x q' :=
  ⟨hl.header, hh, hl.item, hl.sonPtr⟩

/-- The bit that does not fit in the height is a bit of the cell type, which is set
already. -/
theorem LinkedWords.root_overflow {words : Nat → Nat} {q q' y t : Nat}
    (hl : LinkedWords words q q' h x s y t n) (hh : h + 1 = 2 ^ 24) : TreeCell words q 0 x q' where
  header := by
    rw [hl.header, hh]
    decide
  height_lt := by decide
  item := hl.item
  son := hl.sonPtr

/-- They are the first tree of a queue. -/
theorem LinkedWords.firstAt {words : Nat → Nat} {S : Nat → Prop} {q' k y t : Nat}
    {sons' : Heap Nat} (hl : LinkedWords words q q' h x s y t n) (hroot : TreeCell words q k x q')
    (hq : q ≠ nullPtr) (hq' : q' ≠ nullPtr) (hS : ∀ i < 4, S (q' + i))
    (hsons : HeapAt words S sons s) (hsons' : HeapAt words S sons' t)
    (hrest : HeapAt words S rest n) :
    FirstAt words S [(q, 4)] (.tree k x (.tree h y sons' sons) rest) q :=
  .new hq hroot hl.next (.cons hq' hS hl.son hl.sonNext hsons' hsons) hrest

/-- The words of the first two trees of a queue. -/
structure FirstTwo (words : Nat → Nat) (p r h x s y t n : Nat) : Prop where
  first : TreeCell words p h x s
  next : words (p + 3) = ptrToWord r
  second : TreeCell words r h y t
  secondNext : words (r + 3) = ptrToWord n
  apart : ∀ i < 4, r + i < p ∨ p + 4 ≤ r + i

/-- A new cell that is none of them. -/
structure FirstTwo.Beside (p r q : Nat) : Prop where
  first : q + 4 ≤ p
  second : ∀ i < 4, r + i < q ∨ q + 4 ≤ r + i

section firstTwo

variable {y t : Nat}

theorem FirstTwo.congr {words words' : Nat → Nat} (h₂ : FirstTwo words p r h x s y t n)
    (hq : FirstTwo.Beside p r q) (hw : ∀ a, a ≠ q → words' a = words a) :
    FirstTwo words' p r h x s y t n where
  first := h₂.first.congr fun i hi => hw _ (by have := hq.first; omega)
  next := (hw _ (by have := hq.first; omega)).trans h₂.next
  second := h₂.second.congr fun i hi => hw _ (by have := hq.second i (by omega); omega)
  secondNext := (hw _ (by have := hq.second 3 (by decide); omega)).trans h₂.secondNext
  apart := h₂.apart

/-- The second tree was copied to `q`, and became the first son of the first tree. -/
def secondAsSon (m : Memory) (q p h y t s n : Nat) : Memory :=
  ((((fillCell q 1 [ptrToWord y, ptrToWord t, ptrToWord s]
    (m.set q (CellType.priqItem.header ||| h))).set p CellType.priqItem.header).set p
    (CellType.priqItem.header ||| (h + 1))).set (p + 2) (ptrToWord q)).set (p + 3) (ptrToWord n)

/-- The first tree became the first son of the second one, which was copied to `q`. -/
def firstAsSon (m : Memory) (q p h y t n : Nat) : Memory :=
  fillCell q 1 [ptrToWord y, ptrToWord p, ptrToWord n]
    ((m.set (p + 3) (ptrToWord t)).set q (CellType.priqItem.header ||| (h + 1)))

theorem secondAsSon_linked (hcell : TreeCell m.words p h x s) (hq : q + 4 ≤ p) :
    LinkedWords (secondAsSon m q p h y t s n).words p q h x s y t n := by
  obtain ⟨hwq, hwq₁, hwq₂, hwq₃, hw⟩ := writeTree_words m q
    (CellType.priqItem.header ||| h) (ptrToWord y) (ptrToWord t) (ptrToWord s)
  have hwords : ∀ a, a ≠ p → a ≠ p + 2 → a ≠ p + 3 →
      (secondAsSon m q p h y t s n).words a = (fillCell q 1 [ptrToWord y, ptrToWord t, ptrToWord s]
        (m.set q (CellType.priqItem.header ||| h))).words a := by
    intro a h₀ h₂ h₃
    simp [secondAsSon, h₀, h₂, h₃]
  refine ⟨by simp [secondAsSon], ?_, by simp [secondAsSon], by simp [secondAsSon],
    ⟨?_, hcell.height_lt, ?_, ?_⟩, ?_⟩
  · rw [hwords _ (by omega) (by omega) (by omega), hw _ (by omega), hcell.item]
  · rw [hwords _ (by omega) (by omega) (by omega), hwq]
  · rw [hwords _ (by omega) (by omega) (by omega), hwq₁]
  · rw [hwords _ (by omega) (by omega) (by omega), hwq₂]
  · rw [hwords _ (by omega) (by omega) (by omega), hwq₃]

theorem firstAsSon_linked (hcell : TreeCell m.words p h x s) (hq : q + 4 ≤ p) :
    LinkedWords (firstAsSon m q p h y t n).words q p h y t x s n := by
  obtain ⟨hwq, hwq₁, hwq₂, hwq₃, hw⟩ := writeTree_words (m.set (p + 3) (ptrToWord t)) q
    (CellType.priqItem.header ||| (h + 1)) (ptrToWord y) (ptrToWord p) (ptrToWord n)
  refine ⟨hwq, hwq₁, hwq₂, hwq₃, hcell.congr fun i hi => ?_, ?_⟩
  · rw [firstAsSon, hw _ (by omega), set_words, if_neg (by omega)]
  · rw [firstAsSon, hw _ (by omega), set_words, if_pos rfl]

theorem secondAsSon_filling (h y t s n : Nat) (hf : m₀.Filling c₁ m) (hq : (q, 4) ∈ c₁)
    (hp : (p, 4) ∈ c₁) : m₀.Filling c₁ (secondAsSon m q p h y t s n) :=
  (((((hf.set (i := 0) hq (by decide) _).fill hq _ (by simp)).set (i := 0) hp (by decide) _).set
    (i := 0) hp (by decide) _).set hp (by decide) _).set hp (by decide) _

theorem firstAsSon_filling (h y t n : Nat) (hf : m₀.Filling c₁ m) (hq : (q, 4) ∈ c₁)
    (hp : (p, 4) ∈ c₁) : m₀.Filling c₁ (firstAsSon m q p h y t n) :=
  ((hf.set hp (by decide) _).set (i := 0) hq (by decide) _).fill hq _ (by simp)

theorem secondAsSon_keeps (m : Memory) (h y t s n : Nat) (hq : (q, 4) ∈ c₁) (hp : (p, 4) ∈ c₁) :
    Keeps m c₁ (secondAsSon m q p h y t s n) c₁ :=
  (((((Keeps.set (i := 0) m hq (by decide) _).trans (Keeps.fill _ hq _ (by simp))).trans
    (Keeps.set (i := 0) _ hp (by decide) _)).trans (Keeps.set (i := 0) _ hp (by decide) _)).trans
    (Keeps.set _ hp (by decide) _)).trans (Keeps.set _ hp (by decide) _)

theorem firstAsSon_keeps (m : Memory) (h y t n : Nat) (hq : (q, 4) ∈ c₁) (hp : (p, 4) ∈ c₁) :
    Keeps m c₁ (firstAsSon m q p h y t n) c₁ :=
  ((Keeps.set m hp (by decide) _).trans (Keeps.set (i := 0) _ hq (by decide) _)).trans
    (Keeps.fill _ hq _ (by simp))

variable (rank) in
/-- Where the first item is not greater. -/
theorem linkFirstTwo_second (h₂ : FirstTwo m.words p r h x s y t n)
    (hq : FirstTwo.Beside p r q) (hnew : NewCell m 4 .priqItem q m') (hle : rank x ≤ rank y) :
    linkFirstTwo (rankCmp rank) m p = .ok (p, secondAsSon m' q p h y t s n) := by
  have hcmp : ¬ rankCmp rank x y = .greater := mt rankCmp_eq_greater.mp (not_lt.mpr hle)
  have hne : ¬ rankCmp rank x y = .error := rankCmp_ne_error
  obtain ⟨halloc, -, -, hheader, hw, -⟩ := hnew
  have h₂' := h₂.congr hq hw
  obtain ⟨hp, hr⟩ := hq
  obtain ⟨m₂, hm₂⟩ : ∃ m₂, m₂ = fillCell q 1 [ptrToWord y, ptrToWord t, ptrToWord s]
    (m'.set q (CellType.priqItem.header ||| h)) := ⟨_, rfl⟩
  obtain ⟨-, -, -, -, hw₂⟩ := writeTree_words m' q (CellType.priqItem.header ||| h) (ptrToWord y)
    (ptrToWord t) (ptrToWord s)
  rw [← hm₂] at hw₂
  have hnext : Priq.next m.words p = r := by rw [Priq.next, h₂.next, wordToPtr_ptrToWord]
  have hnext' : Priq.next m'.words p = r := by rw [Priq.next, h₂'.next, wordToPtr_ptrToWord]
  have hset : ∀ i < 4, (m'.set q (CellType.priqItem.header ||| h)).words (r + i) =
      m'.words (r + i) := fun i hi => by
    have hi' := hr i hi
    rw [set_words, if_neg (by omega)]
  have hset' : (m'.set q (CellType.priqItem.header ||| h)).words (p + 2) = ptrToWord s := by
    rw [set_words, if_neg (by omega), h₂'.first.son]
  have hheight : height m₂.words p = h :=
    (h₂'.first.congr fun i hi => hw₂ _ (by omega)).height_eq
  have hpw : m₂.words p = CellType.priqItem.header ||| h := by
    rw [hw₂ _ (by omega), h₂'.first.header]
  have hlast : (((m₂.set p CellType.priqItem.header).set p (CellType.priqItem.header |||
      (h + 1))).set (p + 2) (ptrToWord q)).words (r + 3) = ptrToWord n := by
    have hi := hr 3 (by decide)
    have hi' := h₂.apart 3 (by decide)
    rw [set_words, if_neg (by omega), set_words, if_neg (by omega), set_words,
      if_neg (by omega), hw₂ _ (by omega), h₂'.secondNext]
  unfold linkFirstTwo secondAsSon
  simp only [hnext, h₂.first.item_eq, h₂.second.item_eq, halloc, hnext', if_neg hne, if_neg hcmp,
    h₂'.second.height_eq, hheader, hset 1 (by decide), hset 2 (by decide), hset',
    h₂'.second.item, h₂'.second.son, ← hm₂, hheight, hpw, header_and h h₂.first.height_lt, hlast,
    set_words, if_true]

variable (rank) in
/-- Where the second item is less. -/
theorem linkFirstTwo_first (h₂ : FirstTwo m.words p r h x s y t n)
    (hq : FirstTwo.Beside p r q) (hnew : NewCell m 4 .priqItem q m') (hlt : rank y < rank x) :
    linkFirstTwo (rankCmp rank) m p = .ok (q, firstAsSon m' q p h y t n) := by
  have hcmp : rankCmp rank x y = .greater := rankCmp_eq_greater.mpr hlt
  obtain ⟨halloc, -, -, hheader, hw, -⟩ := hnew
  have h₂' := h₂.congr hq hw
  obtain ⟨hp, hr⟩ := hq
  have hnext : Priq.next m.words p = r := by rw [Priq.next, h₂.next, wordToPtr_ptrToWord]
  have hnext' : Priq.next m'.words p = r := by rw [Priq.next, h₂'.next, wordToPtr_ptrToWord]
  have hset : ∀ i < 4, (m'.set (p + 3) (ptrToWord t)).words (r + i) = m'.words (r + i) :=
    fun i hi => by
      have hi' := h₂.apart i hi
      rw [set_words, if_neg (by omega)]
  have hset' : ∀ i < 4, ((m'.set (p + 3) (ptrToWord t)).set q
      (CellType.priqItem.header ||| (h + 1))).words (r + i) = m'.words (r + i) := fun i hi => by
    have hi' := hr i hi
    rw [set_words, if_neg (by omega), hset i hi]
  have hheight : height (m'.set (p + 3) (ptrToWord t)).words r = h :=
    (h₂'.second.congr fun i hi => hset i (by omega)).height_eq
  have hqw : (m'.set (p + 3) (ptrToWord t)).words q = CellType.priqItem.header := by
    rw [set_words, if_neg (by omega), hheader]
  unfold linkFirstTwo firstAsSon
  simp only [hnext, h₂.first.item_eq, h₂.second.item_eq, hcmp, halloc, hnext', reduceCtorEq,
    if_false, if_true, h₂'.second.son, hheight, hqw, hset' 1 (by decide), hset' 3 (by decide),
    h₂'.second.item, h₂'.secondNext]

end firstTwo

variable (rank) in
/-- The first two trees of `pq_1` become one; the new tree is open. -/
theorem linkFirstTwo_spec {y : Nat} {sons' : Heap Nat} (hf : m₀.Filling ((p, 4) :: c₂) m)
    (hp : p ≠ nullPtr) (hcell : TreeCell m.words p h x s) (hnext : m.words (p + 3) = ptrToWord r)
    (hsons : HeapAt m.words (m.Closed ((p, 4) :: c₂)) sons s)
    (hrest : HeapAt m.words (m.Closed ((p, 4) :: c₂)) (.tree h y sons' rest) r)
    (hh : h + 1 < 2 ^ 24) (hcan : m.canAllocate 4) :
    ∃ q m', linkFirstTwo (rankCmp rank) m p = .ok (q, m') ∧ m₀.Filling ((q, 4) :: c₂) m' ∧
      Keeps m [(p, 4)] m' [(q, 4)] ∧ m.allocationPtr = m'.allocationPtr + 4 ∧
      FirstAt m'.words (m'.Closed ((q, 4) :: c₂)) [(q, 4)] (link rank h x sons y sons' rest) q := by
  obtain ⟨hr, hrS, t, htree, hsons', hrest'⟩ := hrest.tree
  have hri : ∀ i < 4, (r + i < m.firstGenerationEnd ∨ m.allocationPtr ≤ r + i) ∧
      (r + i < p ∨ p + 4 ≤ r + i) := fun i hi => closed_words List.mem_cons_self (hrS i hi)
  have h₂ : FirstTwo m.words p r h x s y t (next m.words r) :=
    ⟨hcell, hnext, htree, hrest.next_word, fun i hi => (hri i hi).2⟩
  obtain ⟨q, m₁, hnew⟩ := exists_newCell .priqItem (by decide) hcan
  have hsize := hnew.size
  have hptr := hnew.allocationPtr_eq
  have hq : FirstTwo.Beside p r q := by
    have hfits := hnew.fits
    have hend := hnew.firstGenerationEnd_eq
    have hfresh := hf.fresh (p, 4) List.mem_cons_self
    dsimp only at hfresh
    refine ⟨by omega, fun i hi => ?_⟩
    have hi' := hri i hi
    omega
  have hcell₁ := (h₂.congr hq hnew.words).first
  have hf₁ : m₀.Filling ((q, 4) :: (p, 4) :: c₂) m₁ := hf.newCell hnew
  have hk₁ : Keeps m [(p, 4)] m₁ [(q, 4), (p, 4)] := hnew.keeps (by decide) _
  have hmem : (q, 4) ∈ [(q, 4), (p, 4)] := List.mem_cons_self
  have hmem' : (p, 4) ∈ [(q, 4), (p, 4)] := List.mem_cons_of_mem _ List.mem_cons_self
  unfold link
  by_cases hlt : rank y < rank x
  · -- the first tree becomes a son of the second one
    have hf' := firstAsSon_filling h y t (next m.words r) hf₁ List.mem_cons_self
      (List.mem_cons_of_mem _ List.mem_cons_self)
    have hk₂ := firstAsSon_keeps m₁ h y t (next m.words r) hmem hmem'
    have hk : Keeps m [(p, 4)] (firstAsSon m₁ q p h y t (next m.words r)) [(q, 4)] :=
      (hk₁.trans hk₂).trans (Keeps.close _ fun c hc =>
        List.mem_cons.mpr (.inl (List.mem_singleton.mp hc)))
    have hl := firstAsSon_linked (y := y) (t := t) (n := next m.words r) hcell₁ hq.first
    have hK := hk.frame c₂
    refine ⟨q, _, linkFirstTwo_first rank h₂ hq hnew hlt,
      hf'.close (.cons_cons _ (.cons _ (.refl _))), hk, by simp [firstAsSon]; omega, ?_⟩
    rw [if_pos hlt]
    exact hl.firstAt (hl.root hh) hnew.ne_nullPtr hp (fun i hi => hf'.closed_second hi)
      (hsons'.keeps hK) (hsons.keeps hK) (hrest'.keeps hK)
  · -- the second tree becomes a son of the first one
    have hf' := secondAsSon_filling h y t s (next m.words r) hf₁ List.mem_cons_self
      (List.mem_cons_of_mem _ List.mem_cons_self)
    have hk₂ := secondAsSon_keeps m₁ h y t s (next m.words r) hmem hmem'
    have hk : Keeps m [(p, 4)] (secondAsSon m₁ q p h y t s (next m.words r)) [(p, 4)] :=
      (hk₁.trans hk₂).trans (Keeps.close _ fun c hc => List.mem_cons_of_mem _ hc)
    have hl := secondAsSon_linked (y := y) (t := t) (n := next m.words r) hcell₁ hq.first
    have hK := hk.frame c₂
    refine ⟨p, _, linkFirstTwo_second rank h₂ hq hnew (not_lt.mp hlt),
      hf'.close (.cons _ (.refl _)), hk, by simp [secondAsSon]; omega, ?_⟩
    rw [if_neg hlt]
    exact hl.firstAt (hl.root hh) hp hnew.ne_nullPtr (fun i hi => hf'.closed_first hi)
      (hsons.keeps hK) (hsons'.keeps hK) (hrest'.keeps hK)

/-! ## two trees of different queues are linked -/

/-- `linkCells` writes two new cells. -/
theorem linkCells_spec {y t : Nat} {p' : Nat} (hcell : TreeCell m.words p h x s)
    (hcell' : TreeCell m.words p' h y t) (hnext : m.words (p + 3) = ptrToWord n)
    (hq : m.words q = CellType.priqItem.header) (hr : m.words r = CellType.priqItem.header)
    (hqr : r + 4 ≤ q) (hout : ∀ i < 4, p + i < r ∨ q + 4 ≤ p + i)
    (hout' : ∀ i < 4, p' + i < r ∨ q + 4 ≤ p' + i) :
    LinkedWords (linkCells m q r p p').words q r h x s y t n ∧
      ∀ a, a < r ∨ q + 4 ≤ a → (linkCells m q r p p').words a = m.words a := by
  have hset : ∀ a w, a ≠ r → (m.set r w).words a = m.words a := fun a w ha => by
    rw [set_words, if_neg ha]
  have hread : ∀ w, ∀ i < 4, (m.set r w).words (p + i) = m.words (p + i) := fun w i hi => by
    have hi' := hout i hi
    exact hset _ w (by omega)
  have hread' : ∀ w, ∀ i < 4, (m.set r w).words (p' + i) = m.words (p' + i) := fun w i hi => by
    have hi' := hout' i hi
    exact hset _ w (by omega)
  obtain ⟨m₁, hm₁⟩ : ∃ m₁, m₁ = fillCell r 1 [ptrToWord y, ptrToWord t, ptrToWord s]
    (m.set r (CellType.priqItem.header ||| h)) := ⟨_, rfl⟩
  obtain ⟨hwr, hwr₁, hwr₂, hwr₃, hw₁⟩ := writeTree_words m r
    (CellType.priqItem.header ||| h) (ptrToWord y) (ptrToWord t) (ptrToWord s)
  rw [← hm₁] at hwr hwr₁ hwr₂ hwr₃ hw₁
  have hp₁ : ∀ i < 4, m₁.words (p + i) = m.words (p + i) := fun i hi => by
    have hi' := hout i hi
    exact hw₁ _ (by omega)
  have hq₁ : m₁.words q = CellType.priqItem.header := (hw₁ _ (by omega)).trans hq
  have hset₁ : ∀ w, ∀ i < 4, (m₁.set q w).words (p + i) = m.words (p + i) := fun w i hi => by
    have hi' := hout i hi
    rw [set_words, if_neg (by omega), hp₁ i hi]
  have heq : linkCells m q r p p' = fillCell q 1 [ptrToWord x, ptrToWord r, ptrToWord n]
      (m₁.set q (CellType.priqItem.header ||| (h + 1))) := by
    have hheight : height m₁.words p = h :=
      (hcell.congr fun i hi => hp₁ i (by omega)).height_eq
    unfold linkCells
    simp only [hr, hcell'.height_eq, hread' _ 1 (by decide), hread' _ 2 (by decide),
      hread _ 2 (by decide), hcell'.item, hcell'.son, hcell.son, ← hm₁, hq₁, hheight,
      hset₁ _ 1 (by decide), hset₁ _ 3 (by decide), hcell.item, hnext]
  obtain ⟨hwq, hwq₁, hwq₂, hwq₃, hw₂⟩ := writeTree_words m₁ q
    (CellType.priqItem.header ||| (h + 1)) (ptrToWord x) (ptrToWord r) (ptrToWord n)
  rw [← heq] at hwq hwq₁ hwq₂ hwq₃ hw₂
  refine ⟨⟨hwq, hwq₁, hwq₂, hwq₃, ⟨?_, hcell'.height_lt, ?_, ?_⟩, ?_⟩, fun a ha => ?_⟩
  · rw [hw₂ _ (by omega), hwr]
  · rw [hw₂ _ (by omega), hwr₁]
  · rw [hw₂ _ (by omega), hwr₂]
  · rw [hw₂ _ (by omega), hwr₃]
  · rw [hw₂ _ (by omega), hw₁ _ (by omega)]

theorem linkCells_filling (p p' : Nat) (hf : m₀.Filling c₁ m) (hq : (q, 4) ∈ c₁)
    (hr : (r, 4) ∈ c₁) :
    m₀.Filling c₁ (linkCells m q r p p') ∧ Keeps m c₁ (linkCells m q r p p') c₁ ∧
      (linkCells m q r p p').allocationPtr = m.allocationPtr := by
  refine ⟨?_, ?_, by simp [linkCells]⟩
  · exact (((hf.set (i := 0) hr (by decide) _).fill hr _ (by simp)).set (i := 0) hq
      (by decide) _).fill hq _ (by simp)
  · exact (((Keeps.set (i := 0) m hr (by decide) _).trans (Keeps.fill _ hr _ (by simp))).trans
      (Keeps.set (i := 0) _ hq (by decide) _)).trans (Keeps.fill _ hq _ (by simp))

variable (rank) in
theorem linkEqual_spec {y t : Nat} {p' : Nat} {st : Merging} (hf : m₀.Filling c₁ st.m)
    (hpq : st.pq1 = p ∧ st.pq2 = p') (hcell : TreeCell st.m.words p h x s)
    (hcell' : TreeCell st.m.words p' h y t) (hlive : ∀ i < 4, st.m.Live (p + i))
    (hlive' : ∀ i < 4, st.m.Live (p' + i))
    (hnext : st.m.words (p + 3) = ptrToWord (next st.m.words p))
    (hnext' : st.m.words (p' + 3) = ptrToWord (next st.m.words p'))
    (hcan : st.m.canAllocate 8) :
    ∃ q q' m', q ≠ nullPtr ∧ q' ≠ nullPtr ∧ m₀.Filling ((q', 4) :: (q, 4) :: c₁) m' ∧
      Keeps st.m c₁ m' ((q', 4) :: (q, 4) :: c₁) ∧ st.m.allocationPtr = m'.allocationPtr + 8 ∧
      (∀ a, st.m.allocationPtr ≤ a → m'.words a = st.m.words a) ∧
      ((rank y < rank x ∧ linkEqual (rankCmp rank) st =
          .ok { st with m := m', pq1 := q, pq2 := next st.m.words p } ∧
        LinkedWords m'.words q q' h y t x s (next st.m.words p')) ∨
      (¬ rank y < rank x ∧ linkEqual (rankCmp rank) st =
          .ok { st with m := m', pq1 := q, pq2 := next st.m.words p' } ∧
        LinkedWords m'.words q q' h x s y t (next st.m.words p))) := by
  obtain ⟨m, pq1, pq2, pp, last⟩ := st
  obtain ⟨rfl, rfl⟩ : pq1 = p ∧ pq2 = p' := hpq
  dsimp only at *
  obtain ⟨q, m₁, hnew⟩ := exists_newCell .priqItem (by decide)
    (canAllocate_mono hcan (by decide : 4 ≤ 8))
  have hcan₁ : m₁.canAllocate 4 := by
    have hsize := hnew.size
    have hptr := hnew.allocationPtr_eq
    have hend := hnew.firstGenerationEnd_eq
    unfold canAllocate at hcan ⊢
    omega
  obtain ⟨r, m₂, hnew'⟩ := exists_newCell .priqItem (by decide) hcan₁
  have hf₂ := (hf.newCell hnew).newCell hnew'
  have hk₂ := (hnew.keeps (by decide) c₁).trans (hnew'.keeps (by decide) _)
  have hq := hnew.ne_nullPtr
  have hr := hnew'.ne_nullPtr
  obtain ⟨halloc, hsize, hfits, hheader, hw, hptr, hend, -⟩ := hnew
  obtain ⟨halloc', hsize', hfits', hheader', hw', hptr', hend', -⟩ := hnew'
  have hout : ∀ {a : Nat}, (∀ i < 4, m.Live (a + i)) → ∀ i < 4, a + i < r ∨ q + 4 ≤ a + i := by
    intro a ha i hi
    have hi' := ha i hi
    unfold Live at hi'
    omega
  have hwords : ∀ {a : Nat}, (∀ i < 4, m.Live (a + i)) → ∀ i < 4,
      m₂.words (a + i) = m.words (a + i) := by
    intro a ha i hi
    have hi' := hout ha i hi
    rw [hw' _ (by omega), hw _ (by omega)]
  have hcell₂ := hcell.congr fun i hi => hwords hlive i (by omega)
  have hcell₂' := hcell'.congr fun i hi => hwords hlive' i (by omega)
  have hnext₂ := (hwords hlive 3 (by decide)).trans hnext
  have hnext₂' := (hwords hlive' 3 (by decide)).trans hnext'
  have hheader₂ : m₂.words q = CellType.priqItem.header := (hw' _ (by omega)).trans hheader
  have hmem : (q, 4) ∈ (r, 4) :: (q, 4) :: c₁ := List.mem_cons_of_mem _ List.mem_cons_self
  have hmem' : (r, 4) ∈ (r, 4) :: (q, 4) :: c₁ := List.mem_cons_self
  have hitem := hcell.item_eq
  have hitem' := hcell'.item_eq
  have hnextAfter : ∀ {m' : Memory} {a n : Nat}, (∀ a, a < r ∨ q + 4 ≤ a →
      m'.words a = m₂.words a) → (∀ i < 4, m.Live (a + i)) → m₂.words (a + 3) = ptrToWord n →
      next m'.words a = n := by
    intro m' a n hother ha hn
    have hi := hout ha 3 (by decide)
    rw [Priq.next, hother _ (by omega), hn, wordToPtr_ptrToWord]
  have habove : ∀ {m' : Memory}, (∀ a, a < r ∨ q + 4 ≤ a → m'.words a = m₂.words a) →
      ∀ a, m.allocationPtr ≤ a → m'.words a = m.words a := by
    intro m' hother a ha
    rw [hother a (by omega), hw' a (by omega), hw a (by omega)]
  have hne : ¬ rankCmp rank x y = .error := rankCmp_ne_error
  by_cases hlt : rank y < rank x
  · have hcmp : rankCmp rank x y = .greater := rankCmp_eq_greater.mpr hlt
    obtain ⟨hl, hother⟩ := linkCells_spec hcell₂' hcell₂ hnext₂' hheader₂ hheader' (by omega)
      (hout hlive') (hout hlive)
    obtain ⟨hf', hk', hptr₃⟩ := linkCells_filling pq2 pq1 hf₂ hmem hmem'
    refine ⟨q, r, linkCells m₂ q r pq2 pq1, hq, hr, hf', hk₂.trans hk', by omega,
      habove hother, .inl ⟨hlt, ?_, hl⟩⟩
    unfold linkEqual
    simp only [hitem, hitem', hcmp, reduceCtorEq, if_false, if_true, halloc, halloc',
      hnextAfter hother hlive hnext₂]
  · have hcmp : ¬ rankCmp rank x y = .greater := mt rankCmp_eq_greater.mp hlt
    obtain ⟨hl, hother⟩ := linkCells_spec hcell₂ hcell₂' hnext₂ hheader₂ hheader' (by omega)
      (hout hlive) (hout hlive')
    obtain ⟨hf', hk', hptr₃⟩ := linkCells_filling pq1 pq2 hf₂ hmem hmem'
    refine ⟨q, r, linkCells m₂ q r pq1 pq2, hq, hr, hf', hk₂.trans hk', by omega,
      habove hother, .inr ⟨hlt, ?_, hl⟩⟩
    unfold linkEqual
    simp only [hitem, hitem', if_neg hne, if_neg hcmp, halloc, halloc',
      hnextAfter hother hlive' hnext₂']

/-! ## a tree is copied -/

/-- A cell of four words is written. -/
theorem writeCell_words (m : Memory) (q w a b c : Nat) :
    (fillCell q 0 [w, a, b, c] m).words q = w ∧ (fillCell q 0 [w, a, b, c] m).words (q + 1) = a ∧
    (fillCell q 0 [w, a, b, c] m).words (q + 2) = b := by
  simp [fillCell]

/-- The copy is a new open cell. -/
theorem cellCopy_spec (hf : m₀.Filling c₁ m) (hcell : TreeCell m.words p h x s)
    (hcan : m.canAllocate 4) :
    ∃ q m', cellCopy m p = .ok (q, m') ∧ q ≠ nullPtr ∧ m₀.Filling ((q, 4) :: c₁) m' ∧
      Keeps m c₁ m' ((q, 4) :: c₁) ∧ m.allocationPtr = m'.allocationPtr + 4 ∧
      TreeCell m'.words q h x s ∧ ∀ a, m.allocationPtr ≤ a → m'.words a = m.words a := by
  obtain ⟨q, m₁, hnew⟩ := exists_newCell .priqItem (by decide) hcan
  have hmem : (q, 4) ∈ (q, 4) :: c₁ := List.mem_cons_self
  obtain ⟨hw, hw₁, hw₂⟩ := writeCell_words m₁ q (m.words p) (m.words (p + 1))
    (m.words (p + 2)) (m.words (p + 3))
  have hptr := hnew.allocationPtr_eq
  have hsize := hnew.size
  refine ⟨q, fillCell q 0 (slice m.words p 4) m₁, ?_, hnew.ne_nullPtr,
    (hf.newCell hnew).fill hmem _ (by simp), (hnew.keeps (by decide) c₁).trans
    (Keeps.fill m₁ hmem _ (by simp)), by rw [fillCell_allocationPtr]; omega,
    ⟨hw.trans hcell.header, hcell.height_lt, hw₁.trans hcell.item, hw₂.trans hcell.son⟩,
    fun a ha => ?_⟩
  · unfold cellCopy
    rw [if_pos ⟨hcell.cellType_eq, hcan⟩, hnew.eq]
  · rw [fillCell_words_of_ge _ _ (by simp; omega), hnew.words a (by omega)]

/-- The copy is put at the end of the new queue; `c₁` are the cells that stay
open. -/
theorem append_spec (st : Merging) (hf : m₀.Filling ((q, 4) :: (c₁ ++ c₂)) st.m)
    (hq : q ≠ nullPtr) (hcell : TreeCell st.m.words q h x s)
    (hsons : HeapAt st.m.words (st.m.Closed ((q, 4) :: (c₁ ++ c₂))) sons s)
    (hnew : NewQueue st.m.words (st.m.Closed ((q, 4) :: (c₁ ++ c₂))) c₂ H st.p st.last) :
    ∃ m' p', st.append q = { st with m := m', p := p', last := q } ∧
      m₀.Filling (c₁ ++ [(q, 4)]) m' ∧
      Keeps st.m ((q, 4) :: (c₁ ++ c₂)) m' (c₁ ++ [(q, 4)]) ∧
      m'.allocationPtr = st.m.allocationPtr ∧
      (∀ a, (∀ c ∈ c₂, a < c.1 ∨ c.1 + c.2 ≤ a) → m'.words a = st.m.words a) ∧
      NewQueue m'.words (m'.Closed (c₁ ++ [(q, 4)])) [(q, 4)]
        (H.append (.tree h x sons .nil)) p' q := by
  obtain ⟨m, pq1, pq2, pp, last⟩ := st
  dsimp only at *
  have hperm : ((q, 4) :: c₁).Perm (c₁ ++ [(q, 4)]) := (List.perm_append_singleton _ _).symm
  cases hnew with
  | nil =>
    rw [List.append_nil] at hf hsons ⊢
    have hk : Keeps m ((q, 4) :: c₁) m (c₁ ++ [(q, 4)]) :=
      Keeps.close m fun c hc => hperm.symm.subset hc
    exact ⟨m, q, by simp [Merging.append], hf.perm hperm.symm, hk, rfl, fun _ _ => rfl,
      .upTo hq (.last hq hcell (hsons.keeps hk))⟩
  | upTo hlast hto =>
    have hmem : (last, 4) ∈ (q, 4) :: (c₁ ++ [(last, 4)]) := by simp
    have hf' := hf.set (i := 3) hmem (by decide) (ptrToWord q)
    have hsub : ((q, 4) :: c₁).Sublist ((q, 4) :: (c₁ ++ [(last, 4)])) :=
      .cons_cons _ (List.sublist_append_left _ _)
    have hk : Keeps m ((q, 4) :: (c₁ ++ [(last, 4)])) (m.set (last + 3) (ptrToWord q))
        (c₁ ++ [(q, 4)]) :=
      (Keeps.set m hmem (by decide) _).trans
        (Keeps.close _ fun c hc => hsub.subset (hperm.symm.subset hc))
    obtain ⟨hqa, hrest⟩ := List.pairwise_cons.mp hf.apart
    have hqlast := hqa (last, 4) (by simp)
    dsimp only at hqlast
    have hclosed : ∀ i < 4, (m.set (last + 3) (ptrToWord q)).Closed (c₁ ++ [(q, 4)])
        (last + i) := by
      intro i hi
      refine hf'.closed hmem (fun d hd => ?_) hi
      rcases List.mem_append.mp hd with hd | hd
      · exact (List.pairwise_append.mp hrest).2.2 d hd _ List.mem_cons_self
      · obtain rfl := List.mem_singleton.mp hd
        exact hqlast
    refine ⟨_, pp, by simp [Merging.append, hlast], (hf'.close hsub).perm hperm.symm, hk, rfl,
      fun a ha => ?_, .upTo hq ((hto.frame hk.agree hk.closed fun i hi => ?_).snoc hclosed
        (by simp) hq (hcell.congr fun i hi => ?_) (hsons.keeps hk))⟩
    · have ha' := ha _ List.mem_cons_self
      dsimp only at ha'
      rw [set_words, if_neg (by omega)]
    · rw [set_words, if_neg (by omega)]
    · rw [set_words, if_neg (by omega)]

/-! ## a round -/

/-- The variables of `merge` stand for the three lists of a melding. -/
def MergesTo (m₀ : Memory) (st : Merging) (M : Melding Nat) : Prop :=
  ∃ c₁ c₂, m₀.Filling (c₁ ++ c₂) st.m ∧
    FirstAt st.m.words (st.m.Closed (c₁ ++ c₂)) c₁ M.left st.pq1 ∧
    HeapAt st.m.words (st.m.Closed (c₁ ++ c₂)) M.right st.pq2 ∧
    NewQueue st.m.words (st.m.Closed (c₁ ++ c₂)) c₂ M.out st.p st.last

variable {st : Merging} {M M' : Melding Nat} {low words y : Nat} {sons' : Heap Nat}

theorem lt_of_two_pow_le {a n : Nat} (h : 2 ^ a ≤ n) (hn : n < 2 ^ 2 ^ 24) : a < 2 ^ 24 :=
  (Nat.pow_lt_pow_iff_right (by decide)).mp (Nat.lt_of_le_of_lt h hn)

variable (rank) in
/-- The first two trees of `pq_1` become one, if its height fits in the cell. -/
theorem MergesTo.linkFirstTwo_fits (hst : MergesTo m₀ st M) (hh : h + 1 < 2 ^ 24)
    (hleft : M.left = .tree h x sons (.tree h y sons' rest)) (hcan : st.m.canAllocate 4) :
    ∃ q m', Priq.linkFirstTwo (rankCmp rank) st.m st.pq1 = .ok (q, m') ∧
      MergesTo m₀ { st with m := m', pq1 := q }
        ⟨M.out, link rank h x sons y sons' rest, M.right⟩ ∧
      st.m.allocationPtr = m'.allocationPtr + 4 := by
  obtain ⟨c₁, c₂, hf, hfirst, hright, hnew⟩ := hst
  rw [hleft] at hfirst
  cases hfirst with
  | complete _ hroots => exact absurd hroots.2.2.1 (by omega)
  | new hp hcell hnext hsons hrest =>
    obtain ⟨q, m', hrun, hf', hk, hptr, hfirst'⟩ :=
      linkFirstTwo_spec rank hf hp hcell hnext hsons hrest hh hcan
    exact ⟨q, m', hrun, ⟨[(q, 4)], c₂, hf', hfirst', hright.keeps (hk.frame c₂),
      hnew.keeps hf hk⟩, hptr⟩

variable (rank) in
/-- The carry. -/
theorem MergesTo.linkFirstTwo (hst : MergesTo m₀ st M) (hM : M.Inv low)
    (hcard : M.items.card < 2 ^ 2 ^ 24)
    (hleft : M.left = .tree h x sons (.tree h y sons' rest)) (hcan : st.m.canAllocate 4) :
    ∃ q m', Priq.linkFirstTwo (rankCmp rank) st.m st.pq1 = .ok (q, m') ∧
      MergesTo m₀ { st with m := m', pq1 := q }
        ⟨M.out, link rank h x sons y sons' rest, M.right⟩ ∧
      st.m.allocationPtr = m'.allocationPtr + 4 := by
  have hh : h + 1 < 2 ^ 24 := by
    have hleft' := hM.left
    rw [hleft] at hleft'
    refine lt_of_two_pow_le (Nat.le_trans hleft'.card_two ?_) hcard
    rw [← hleft, Melding.items, Multiset.card_add, Multiset.card_add]
    omega
  exact hst.linkFirstTwo_fits rank hh hleft hcan

variable (rank) in
/-- The test for two trees of equal heights. -/
theorem MergesTo.twoEqual (hst : MergesTo m₀ st M) (hne : M.left ≠ .nil) :
    twoEqual st.m.words st.pq1 = (carry? rank M.left).isSome := by
  obtain ⟨c₁, c₂, -, hfirst, -⟩ := hst
  obtain ⟨out, left, right⟩ := M
  cases left with
  | nil => exact absurd rfl hne
  | tree h x sons rest =>
    obtain ⟨-, hnext, s, hcell, -, hrest⟩ := hfirst.tree
    unfold Priq.twoEqual
    rw [hcell.height_eq]
    cases rest with
    | nil =>
      have hnull : next st.m.words st.pq1 = nullPtr := hrest
      rw [hnext, hnull]
      rfl
    | tree k y sons' rest =>
      obtain ⟨hp, -, s', hcell', -⟩ := hrest.tree
      rw [hcell'.height_eq, hnext]
      have hword : ptrToWord (next st.m.words st.pq1) ≠ nullWord := by
        unfold nullWord
        rwa [ne_eq, ptrToWord_eq_zero]
      by_cases hhk : h = k
      · simp [carry?, hhk, hword]
      · simp [carry?, hhk]

/-- A tree of one of the queues is copied to the end of the new queue; the other
cells are kept. -/
theorem MergesTo.copy {c₁ c₂ : List (Nat × Nat)} (hf : m₀.Filling (c₁ ++ c₂) st.m)
    (hnew : NewQueue st.m.words (st.m.Closed (c₁ ++ c₂)) c₂ H st.p st.last)
    (hcell : TreeCell st.m.words p h x s)
    (hsons : HeapAt st.m.words (st.m.Closed (c₁ ++ c₂)) sons s) (hcan : st.m.canAllocate 4) :
    ∃ q m₁ m' p', cellCopy st.m p = .ok (q, m₁) ∧
      ({ st with m := m₁ } : Merging).append q = { st with m := m', p := p', last := q } ∧
      m₀.Filling (c₁ ++ [(q, 4)]) m' ∧ Keeps st.m (c₁ ++ c₂) m' (c₁ ++ [(q, 4)]) ∧
      st.m.allocationPtr = m'.allocationPtr + 4 ∧
      (∀ c ∈ c₁, ∀ i < c.2, m'.words (c.1 + i) = st.m.words (c.1 + i)) ∧
      NewQueue m'.words (m'.Closed (c₁ ++ [(q, 4)])) [(q, 4)]
        (H.append (.tree h x sons .nil)) p' q := by
  obtain ⟨q, m₁, hcopy, hq, hf₁, hk₁, hptr, hcell₁, hw₁⟩ := cellCopy_spec hf hcell hcan
  -- the open cells lie above the new one
  have habove : ∀ c ∈ c₁ ++ c₂, ∀ i, st.m.allocationPtr ≤ c.1 + i := fun c hc i => by
    have hfresh := hf.fresh c hc
    omega
  obtain ⟨m', p', happend, hf', hk', hptr', hw', hnew'⟩ :=
    append_spec { st with m := m₁ } hf₁ hq hcell₁ (hsons.keeps hk₁)
      (hnew.frame hk₁ fun c hc i _ => hw₁ _ (habove c (List.mem_append_right _ hc) i))
  refine ⟨q, m₁, m', p', hcopy, happend, hf', hk₁.trans hk', ?_, fun c hc i hi => ?_, hnew'⟩
  · rw [hptr, hptr']
  rw [hw' _ fun d hd => ?_, hw₁ _ (habove c (List.mem_append_left _ hc) i)]
  have hapart := (List.pairwise_append.mp hf.apart).2.2 c hc d hd
  omega

/-- The first tree of `pq_1` is the lowest one. -/
theorem MergesTo.copyFirst (hst : MergesTo m₀ st M) (hleft : M.left = .tree h x sons rest)
    (hroots : rest.Roots 0) (hcan : st.m.canAllocate 4) :
    ∃ q m₁ m' p', cellCopy st.m st.pq1 = .ok (q, m₁) ∧
      ({ st with m := m₁ } : Merging).append q = { st with m := m', p := p', last := q } ∧
      MergesTo m₀ ⟨m', next m'.words st.pq1, st.pq2, p', q⟩
        ⟨M.out.append (.tree h x sons .nil), rest, M.right⟩ ∧
      st.m.allocationPtr = m'.allocationPtr + 4 := by
  obtain ⟨c₁, c₂, hf, hfirst, hright, hnew⟩ := hst
  rw [hleft] at hfirst
  obtain ⟨-, -, s, hcell, hsons, -⟩ := hfirst.tree
  obtain ⟨q, m₁, m', p', hcopy, happend, hf', hk, hptr, hw, hnew'⟩ :=
    MergesTo.copy hf hnew hcell hsons hcan
  obtain ⟨-, -, -, -, -, hrest⟩ := (hfirst.frame hk hw).tree
  have hsub : [(q, 4)].Sublist (c₁ ++ [(q, 4)]) := List.sublist_append_right _ _
  have hclose : Keeps m' (c₁ ++ [(q, 4)]) m' ([] ++ [(q, 4)]) :=
    Keeps.close m' fun c hc => hsub.subset hc
  exact ⟨q, m₁, m', p', hcopy, happend, ⟨[], [(q, 4)], hf'.close hsub,
    .complete (hrest.keeps hclose) hroots, (hright.keeps hk).keeps hclose,
    hnew'.frame hclose fun _ _ _ _ => rfl⟩, hptr⟩

/-- The first tree of `pq_2` is the lowest one. -/
theorem MergesTo.copySecond (hst : MergesTo m₀ st M)
    (hright : M.right = .tree h x sons rest) (hcan : st.m.canAllocate 4) :
    ∃ q m₁ m' p', cellCopy st.m st.pq2 = .ok (q, m₁) ∧
      ({ st with m := m₁ } : Merging).append q = { st with m := m', p := p', last := q } ∧
      MergesTo m₀ ⟨m', st.pq1, next m'.words st.pq2, p', q⟩
        ⟨M.out.append (.tree h x sons .nil), M.left, rest⟩ ∧
      st.m.allocationPtr = m'.allocationPtr + 4 := by
  obtain ⟨c₁, c₂, hf, hfirst, hr, hnew⟩ := hst
  rw [hright] at hr
  obtain ⟨-, -, s, hcell, hsons, -⟩ := hr.tree
  obtain ⟨q, m₁, m', p', hcopy, happend, hf', hk, hptr, hw, hnew'⟩ :=
    MergesTo.copy hf hnew hcell hsons hcan
  obtain ⟨-, -, -, -, -, hrest⟩ := (hr.keeps hk).tree
  exact ⟨q, m₁, m', p', hcopy, happend, ⟨c₁, [(q, 4)], hf', hfirst.frame hk hw, hrest, hnew'⟩,
    hptr⟩

/-- The new root is the first tree of `pq_1`. -/
theorem MergesTo.linked {c₁ c₂ : List (Nat × Nat)} {q' t n n' k : Nat} {right : Heap Nat}
    (hf : m₀.Filling ((q', 4) :: (q, 4) :: (c₁ ++ c₂)) m') (hq : q ≠ nullPtr)
    (hq' : q' ≠ nullPtr) (hl : LinkedWords m'.words q q' h x s y t n)
    (hroot : TreeCell m'.words q k x q')
    (hsons : HeapAt m'.words (m'.Closed ((q', 4) :: (q, 4) :: (c₁ ++ c₂))) sons s)
    (hsons' : HeapAt m'.words (m'.Closed ((q', 4) :: (q, 4) :: (c₁ ++ c₂))) sons' t)
    (hrest : HeapAt m'.words (m'.Closed ((q', 4) :: (q, 4) :: (c₁ ++ c₂))) rest n)
    (hright : HeapAt m'.words (m'.Closed ((q', 4) :: (q, 4) :: (c₁ ++ c₂))) right n')
    (hnew : NewQueue m'.words (m'.Closed ((q', 4) :: (q, 4) :: (c₁ ++ c₂))) c₂ M.out st.p
      st.last) :
    MergesTo m₀ { st with m := m', pq1 := q, pq2 := n' }
      ⟨M.out, .tree k x (.tree h y sons' sons) rest, right⟩ := by
  have hsub : ((q, 4) :: c₂).Sublist ((q', 4) :: (q, 4) :: (c₁ ++ c₂)) :=
    .cons _ (.cons_cons _ (List.sublist_append_right _ _))
  have hclose : Keeps m' ((q', 4) :: (q, 4) :: (c₁ ++ c₂)) m' ([(q, 4)] ++ c₂) :=
    Keeps.close m' fun c hc => hsub.subset hc
  have hclosed : ∀ i < 4, m'.Closed ((q, 4) :: c₂) (q' + i) := fun i hi =>
    hf.closed List.mem_cons_self (fun d hd => by
      have hapart := (List.pairwise_cons.mp hf.apart).1 d
      rcases List.mem_cons.mp hd with rfl | hd
      · exact (hapart List.mem_cons_self).symm
      · exact (hapart (List.mem_cons_of_mem _ (List.mem_append_right _ hd))).symm) hi
  exact ⟨[(q, 4)], c₂, hf.close hsub, hl.firstAt hroot hq hq' hclosed (hsons.keeps hclose)
    (hsons'.keeps hclose) (hrest.keeps hclose), hright.keeps hclose,
    hnew.frame hclose fun _ _ _ _ => rfl⟩

theorem FirstAt.live (hf : m₀.Filling (c₁ ++ c₂) m)
    (hF : FirstAt m.words (m.Closed (c₁ ++ c₂)) c₁ (.tree h x sons rest) p) :
    ∀ i < 4, m.Live (p + i) := by
  intro i hi
  cases hF with
  | complete hH _ => exact (hH.tree.2.1 i hi).1
  | new _ _ _ _ _ =>
    have hfresh := hf.fresh (p, 4) List.mem_cons_self
    dsimp only at hfresh
    exact .inr (by omega)

variable (rank) in
/-- Two trees of the height `h` become one; its height as it is in the cell is `k`. -/
theorem MergesTo.linkEqual_as {k : Nat} {rest' : Heap Nat} (hst : MergesTo m₀ st M)
    (hroot : ∀ {words : Nat → Nat} {q q' x s y t n : Nat},
      LinkedWords words q q' h x s y t n → TreeCell words q k x q')
    (hleft : M.left = .tree h x sons rest) (hright : M.right = .tree h y sons' rest')
    (hcan : st.m.canAllocate 8) :
    ∃ st', Priq.linkEqual (rankCmp rank) st = .ok st' ∧
      st.m.allocationPtr = st'.m.allocationPtr + 8 ∧
      MergesTo m₀ st' (if rank y < rank x then
        ⟨M.out, .tree k y (.tree h x sons sons') rest', rest⟩
      else ⟨M.out, .tree k x (.tree h y sons' sons) rest, rest'⟩) := by
  obtain ⟨c₁, c₂, hf, hfirst, hr, hnew⟩ := hst
  rw [hleft] at hfirst
  rw [hright] at hr
  obtain ⟨-, hnext, s, hcell, hsons, hrest⟩ := hfirst.tree
  obtain ⟨-, hlive', s', hcell', hsons', hrest'⟩ := hr.tree
  obtain ⟨q, q', m', hq, hq', hf', hk, hptr, habove, hcase⟩ :=
    linkEqual_spec rank hf ⟨rfl, rfl⟩ hcell hcell' (hfirst.live hf)
      (fun i hi => (hlive' i hi).1) hnext hr.next_word hcan
  have hwords : ∀ c ∈ c₂, ∀ i < c.2, m'.words (c.1 + i) = st.m.words (c.1 + i) := by
    intro c hc i _
    have hfresh := hf.fresh c (List.mem_append_right _ hc)
    exact habove _ (by omega)
  have hnew' := hnew.frame hk hwords
  rcases hcase with ⟨hlt, hrun, hl⟩ | ⟨hlt, hrun, hl⟩
  · refine ⟨_, hrun, hptr, ?_⟩
    rw [if_pos hlt]
    exact .linked hf' hq hq' hl (hroot hl) (hsons'.keeps hk) (hsons.keeps hk) (hrest'.keeps hk)
      (hrest.keeps hk) hnew'
  · refine ⟨_, hrun, hptr, ?_⟩
    rw [if_neg hlt]
    exact .linked hf' hq hq' hl (hroot hl) (hsons.keeps hk) (hsons'.keeps hk) (hrest.keeps hk)
      (hrest'.keeps hk) hnew'

variable (rank) in
/-- Two trees of equal heights become one. -/
theorem MergesTo.linkEqual {rest' : Heap Nat} (hst : MergesTo m₀ st M) (hM : M.Inv low)
    (hcard : M.items.card < 2 ^ 2 ^ 24) (hleft : M.left = .tree h x sons rest)
    (hright : M.right = .tree h y sons' rest') (hcan : st.m.canAllocate 8) :
    ∃ st', Priq.linkEqual (rankCmp rank) st = .ok st' ∧
      st.m.allocationPtr = st'.m.allocationPtr + 8 ∧
      MergesTo m₀ st' (if rank y < rank x then
        ⟨M.out, .tree (h + 1) y (.tree h x sons sons') rest', rest⟩
      else ⟨M.out, .tree (h + 1) x (.tree h y sons' sons) rest, rest'⟩) := by
  have hh : h + 1 < 2 ^ 24 := by
    have hl := hM.left
    have hr' := hM.right.carried
    rw [hleft] at hl
    rw [hright] at hr'
    have hcardl := hl.card
    have hcardr := hr'.card
    refine lt_of_two_pow_le ?_ hcard
    rw [Melding.items, Multiset.card_add, Multiset.card_add, hleft, hright, pow_succ]
    omega
  exact hst.linkEqual_as rank (fun hl => hl.root hh) hleft hright hcan

/-- The heights of the first trees. -/
theorem MergesTo.heights {k : Nat} {rest' : Heap Nat} (hst : MergesTo m₀ st M)
    (hleft : M.left = .tree h x sons rest) (hright : M.right = .tree k y sons' rest') :
    height st.m.words st.pq1 = h ∧ height st.m.words st.pq2 = k := by
  obtain ⟨c₁, c₂, -, hfirst, hr, -⟩ := hst
  rw [hleft] at hfirst
  rw [hright] at hr
  obtain ⟨-, -, s, hcell, -⟩ := hfirst.tree
  obtain ⟨-, -, s', hcell', -⟩ := hr.tree
  exact ⟨hcell.height_eq, hcell'.height_eq⟩

/-- A round of the first loop is a step of the melding. -/
theorem MergesTo.round (hst : MergesTo m₀ st M) (hM : M.Inv low)
    (hcard : M.items.card < 2 ^ 2 ^ 24) (hstep : M.step rank = some (words, M'))
    (hcan : st.m.canAllocate words) :
    ∃ st', mergeRound (rankCmp rank) st = .ok st' ∧ MergesTo m₀ st' M' ∧
      st.m.allocationPtr = st'.m.allocationPtr + words := by
  rcases Melding.step_cases hstep with ⟨h, x, s, y, t, rest, hleft, rfl, rfl⟩ |
    ⟨h, x, s, rest, k, y, t, rest', hleft, hr, hne, hcase⟩
  · -- the carry is linked
    have htwo : Priq.twoEqual st.m.words st.pq1 = true := by
      rw [hst.twoEqual rank (by rw [hleft]; exact fun heq => by cases heq), hleft]
      simp [carry?]
    obtain ⟨q, m', hrun, hst', hptr⟩ := hst.linkFirstTwo rank hM hcard hleft hcan
    refine ⟨{ st with m := m', pq1 := q }, ?_, hst', hptr⟩
    unfold mergeRound
    rw [if_pos htwo, hrun]
    rfl
  · have htwo : ¬ Priq.twoEqual st.m.words st.pq1 = true := by
      rw [hst.twoEqual rank (by rw [hleft]; exact fun heq => by cases heq), hleft]
      cases rest with
      | nil => simp [carry?]
      | tree k' y' t' r' => simp [carry?, hne k' y' t' r' rfl]
    obtain ⟨hh, hk⟩ := hst.heights hleft hr
    rcases hcase with ⟨hlt, rfl, rfl⟩ | ⟨hlt, rfl, rfl⟩ | ⟨rfl, hlt, rfl, rfl⟩ |
      ⟨rfl, hlt, rfl, rfl⟩
    · have hroots : rest.Roots 0 := by
        have hleft' := hM.left
        rw [hleft] at hleft'
        exact (hleft'.tail hne).mono (Nat.zero_le _)
      obtain ⟨q, m₁, m', p', hcopy, happend, hst', hptr⟩ := hst.copyFirst hleft hroots hcan
      refine ⟨_, ?_, hst', hptr⟩
      unfold mergeRound
      rw [if_neg htwo, hh, hk, if_pos hlt, hcopy]
      simp only [bind, Except.bind, pure, Except.pure, happend]
    · obtain ⟨q, m₁, m', p', hcopy, happend, hst', hptr⟩ := hst.copySecond hr hcan
      refine ⟨_, ?_, hst', hptr⟩
      unfold mergeRound
      rw [if_neg htwo, hh, hk, if_neg (Nat.lt_asymm hlt), if_pos hlt, hcopy]
      simp only [bind, Except.bind, pure, Except.pure, happend]
    all_goals
      obtain ⟨st', hrun, hptr, hst'⟩ := hst.linkEqual rank hM hcard hleft hr hcan
      refine ⟨st', ?_, ?_, hptr⟩
      · unfold mergeRound
        rw [if_neg htwo, hh, hk, if_neg (Nat.lt_irrefl _), if_neg (Nat.lt_irrefl _), hrun]
      · simpa [hlt] using hst'

/-! ## the loops -/

theorem MergesTo.pq1_eq_nullPtr_iff (hst : MergesTo m₀ st M) :
    st.pq1 = nullPtr ↔ M.left = .nil := by
  obtain ⟨c₁, c₂, -, hfirst, -⟩ := hst
  exact hfirst.eq_nullPtr_iff

theorem MergesTo.pq2_eq_nullPtr_iff (hst : MergesTo m₀ st M) :
    st.pq2 = nullPtr ↔ M.right = .nil := by
  obtain ⟨c₁, c₂, -, -, hr, -⟩ := hst
  exact hr.eq_nullPtr_iff

theorem MergesTo.canAllocate {st' : Merging} {n : Nat} (hst : MergesTo m₀ st M)
    (hst' : MergesTo m₀ st' M') (hptr : st.m.allocationPtr = st'.m.allocationPtr + words)
    (hcan : st.m.canAllocate (words + n)) : st'.m.canAllocate n := by
  obtain ⟨c₁, c₂, hf, -⟩ := hst
  obtain ⟨c₁', c₂', hf', -⟩ := hst'
  have hend := hf.allocates.firstGenerationEnd_eq
  have hend' := hf'.allocates.firstGenerationEnd_eq
  unfold Memory.canAllocate at hcan ⊢
  omega

/-- The first loop ends when one of the queues is empty. -/
theorem MergesTo.loop {n : Nat} (hst : MergesTo m₀ st M) (hM : M.Inv low)
    (hcard : M.items.card < 2 ^ 2 ^ 24) (hn : M.length < n)
    (hcan : st.m.canAllocate (Melding.run rank M.length M).1) :
    ∃ st' M' words low', mergeLoop (rankCmp rank) n st = .ok st' ∧ MergesTo m₀ st' M' ∧
      M'.Inv low' ∧ M'.items = M.items ∧ M'.length ≤ M.length ∧
      (M'.left = .nil ∨ M'.right = .nil) ∧
      Melding.run rank M.length M = (words + (Melding.run rank M'.length M').1,
        (Melding.run rank M'.length M').2) ∧
      st.m.allocationPtr = st'.m.allocationPtr + words := by
  induction n generalizing st M low with
  | zero => omega
  | succ n ih =>
    unfold mergeLoop
    by_cases hempty : M.left = .nil ∨ M.right = .nil
    · refine ⟨st, M, 0, low, ?_, hst, hM, rfl, Nat.le_refl _, hempty, by simp, rfl⟩
      rw [if_neg]
      rw [ne_eq, ne_eq, hst.pq1_eq_nullPtr_iff, hst.pq2_eq_nullPtr_iff]
      exact fun hne => hempty.elim hne.1 hne.2
    · obtain ⟨hleft, hright⟩ := not_or.mp hempty
      obtain ⟨w, M₁, hstep⟩ := Melding.exists_step rank hleft hright
      have hrun := Melding.run_step hstep
      have hlen := Melding.step_length hstep
      obtain ⟨low₁, hM₁⟩ := hM.step hstep
      rw [hrun] at hcan
      obtain ⟨st₁, hround, hst₁, hptr⟩ :=
        hst.round hM hcard hstep (canAllocate_mono hcan (Nat.le_add_right _ _))
      obtain ⟨st', M', w', low', hloop, hst', hM', hitems, hlen', hnil, hrun', hptr'⟩ :=
        ih hst₁ hM₁ (by rwa [Melding.step_items hstep]) (by omega)
          (hst.canAllocate hst₁ hptr hcan)
      refine ⟨st', M', w + w', low', ?_, hst', hM', hitems.trans (Melding.step_items hstep),
        by omega, hnil, ?_, by omega⟩
      · rw [if_pos ⟨mt hst.pq1_eq_nullPtr_iff.mp hleft, mt hst.pq2_eq_nullPtr_iff.mp hright⟩,
          hround]
        exact hloop
      · rw [hrun, hrun', Nat.add_assoc]

/-- The second loop links the carry until the heights of `pq_1` increase. -/
theorem MergesTo.carryLoop {n : Nat} (hst : MergesTo m₀ st M) (hM : M.Inv low)
    (hcard : M.items.card < 2 ^ 2 ^ 24) (hn : M.length < n) (hleft : M.left ≠ .nil)
    (hright : M.right = .nil) (hcan : st.m.canAllocate (Melding.run rank M.length M).1) :
    ∃ q m' M' words low', memoryItemLoop (rankCmp rank) n st.m st.pq1 = .ok (q, m') ∧
      MergesTo m₀ { st with m := m', pq1 := q } M' ∧ M'.Inv low' ∧ M'.left ≠ .nil ∧
      M'.right = .nil ∧ M'.step rank = none ∧
      Melding.run rank M.length M = (words, M'.finish) ∧
      st.m.allocationPtr = m'.allocationPtr + words := by
  induction n generalizing st M low with
  | zero => omega
  | succ n ih =>
    have hpq1 : st.pq1 ≠ nullPtr := mt hst.pq1_eq_nullPtr_iff.mp hleft
    have htwo := hst.twoEqual rank hleft
    unfold memoryItemLoop
    cases hstep : M.step rank with
    | none =>
      have hcarry : carry? rank M.left = none := by
        rcases Melding.step_none hstep with hnil | ⟨-, hcarry⟩
        · exact absurd hnil hleft
        · exact hcarry
      refine ⟨st.pq1, st.m, M, 0, low, ?_, hst, hM, hleft, hright, hstep,
        Melding.run_none hstep, rfl⟩
      rw [if_neg]
      rw [htwo, hcarry]
      exact fun h => absurd h.2 (by decide)
    | some r =>
      obtain ⟨w, M₁⟩ := r
      have hrun := Melding.run_step hstep
      have hlen := Melding.step_length hstep
      have hitems := Melding.step_items hstep
      obtain ⟨low₁, hM₁⟩ := hM.step hstep
      rw [hrun] at hcan
      rcases Melding.step_cases hstep with ⟨h, x, s, y, t, rest, hl, rfl, rfl⟩ |
        ⟨_, _, _, _, _, _, _, _, _, hr, -⟩
      · obtain ⟨q, m₁, hlink, hst₁, hptr⟩ := hst.linkFirstTwo rank hM hcard hl
          (canAllocate_mono hcan (Nat.le_add_right _ _))
        have hne : link rank h x s y t rest ≠ .nil := by
          unfold link
          split <;> exact fun heq => by cases heq
        obtain ⟨q', m', M', w', low', hloop, hst', hM', hl', hr', hnone, hrun', hptr'⟩ :=
          ih hst₁ hM₁ (by rwa [hitems]) (by omega) hne hright (hst.canAllocate hst₁ hptr hcan)
        refine ⟨q', m', M', 4 + w', low', ?_, hst', hM', hl', hr', hnone, ?_, ?_⟩
        · rw [if_pos ⟨hpq1, by rw [htwo, hl]; simp [carry?]⟩, hlink]
          exact hloop
        · rw [hrun, hrun']
        · dsimp only at hptr hptr'
          omega
      · rw [hright] at hr
        cases hr

/-- `pq_1` is complete. -/
theorem FirstAt.close (hf : m₀.Filling (c₁ ++ c₂) m)
    (hF : FirstAt m.words (m.Closed (c₁ ++ c₂)) c₁ H p) : HeapAt m.words (m.Closed c₂) H p := by
  have hclose : Keeps m (c₁ ++ c₂) m c₂ := Keeps.close m fun c hc => List.mem_append_right _ hc
  cases hF with
  | complete hH _ => exact hH
  | new hp hcell hnext hsons hrest =>
    exact .cons hp (fun i hi => hf.closed_first hi) hcell hnext (hsons.keeps hclose)
      (hrest.keeps hclose)

/-- The rest of a list becomes the end of the new queue. -/
theorem finish_spec (st : Merging) {r : Nat} {R : Heap Nat} (hf : m₀.Filling c₂ st.m)
    (hnew : NewQueue st.m.words (st.m.Closed c₂) c₂ H st.p st.last)
    (hR : HeapAt st.m.words (st.m.Closed c₂) R r) :
    ∃ q m', st.finish r = (q, m') ∧ m₀.Extends m' ∧
      m'.allocationPtr = st.m.allocationPtr ∧ HeapAt m'.words m'.Live (H.append R) q := by
  obtain ⟨m, pq1, pq2, pp, last⟩ := st
  dsimp only at *
  cases hnew with
  | nil =>
    exact ⟨r, m, by simp [Merging.finish], hf.extends, rfl,
      hR.frame (fun _ _ => rfl) fun a ha => ha.1⟩
  | upTo hlast hto =>
    have hmem : (last, 4) ∈ [(last, 4)] := List.mem_cons_self
    have hk := Keeps.set m hmem (by decide : 3 < 4) (ptrToWord r)
    have hfresh := hf.fresh _ hmem
    dsimp only at hfresh
    refine ⟨pp, m.set (last + 3) (ptrToWord r), by simp [Merging.finish, hlast],
      (hf.set hmem (by decide) _).extends, rfl, ?_⟩
    refine (hto.frame hk.agree (fun a ha => ha.1) fun i hi => ?_).close
      (fun i _ => .inr ?_) ?_ (hR.frame hk.agree fun a ha => ha.1)
    · rw [set_words, if_neg (by omega)]
    · omega
    · rw [set_words, if_pos rfl]

/-- The variables of `merge` at first. -/
theorem MergesTo.start {P Q : Heap Nat} (hf : m₀.Filling [] m)
    (hP : HeapAt m.words m.Live P p) (hQ : HeapAt m.words m.Live Q q) (hPr : P.Roots 0) :
    MergesTo m₀ ⟨m, p, q, nullPtr, nullPtr⟩ ⟨.nil, P, Q⟩ := by
  rw [← closed_nil] at hP hQ
  exact ⟨[], [], hf, .complete hP hPr, hQ, .nil⟩

/-- Two queues have fewer trees than a loop has rounds. -/
theorem length_lt_rounds {P Q : Heap Nat} {S : Nat → Prop} {words : Nat → Nat}
    (hP : HeapAt words S P p) (hQ : HeapAt words S Q q) (hPr : P.Roots 0) (hQr : Q.Roots 0) :
    Melding.length (⟨.nil, P, Q⟩ : Melding Nat) < priqRounds := by
  have hlp := hPr.length_le hP.below (Nat.zero_le _)
  have hlq := hQr.length_le hQ.below (Nat.zero_le _)
  unfold Melding.length priqRounds
  dsimp only
  omega

/-- `merge` gives the melding of both queues, for its price. -/
theorem mergeQueues_spec {P Q : Heap Nat} (hf : m₀.Filling [] m)
    (hP : HeapAt m.words m.Live P p) (hQ : HeapAt m.words m.Live Q q) (hne : P ≠ .nil ∨ Q ≠ .nil)
    (hPr : P.Roots 0) (hQr : Q.Roots 0) (hcard : (P.items + Q.items).card < 2 ^ 2 ^ 24)
    (hcan : m.canAllocate (meld rank P Q).1) :
    ∃ r m', merge (rankCmp rank) m p q = .ok (r, m') ∧ m₀.Extends m' ∧
      m.allocationPtr = m'.allocationPtr + (meld rank P Q).1 ∧
      HeapAt m'.words m'.Live (meld rank P Q).2 r := by
  by_cases hp : P = .nil
  · obtain rfl := hp
    have hq : q ≠ nullPtr := mt hQ.eq_nullPtr_iff.mp (by simpa using hne)
    rw [meld_nil_left]
    exact ⟨q, m, by simp [merge, show p = nullPtr from hP, hq], hf.extends, rfl, hQ⟩
  by_cases hq : Q = .nil
  · obtain rfl := hq
    have hp' : p ≠ nullPtr := mt hP.eq_nullPtr_iff.mp hp
    rw [meld_nil_right hPr]
    exact ⟨p, m, by simp [merge, show q = nullPtr from hQ, hp'], hf.extends, rfl, hP⟩
  have hp' : p ≠ nullPtr := mt hP.eq_nullPtr_iff.mp hp
  have hq' : q ≠ nullPtr := mt hQ.eq_nullPtr_iff.mp hq
  have hst := MergesTo.start hf hP hQ hPr
  have hM : Melding.Inv 0 (⟨.nil, P, Q⟩ : Melding Nat) := ⟨fun r hr => hr, hPr.carried, hQr⟩
  have hcard' : (⟨.nil, P, Q⟩ : Melding Nat).items.card < 2 ^ 2 ^ 24 := by
    rwa [Melding.items, Heap.items, zero_add]
  have hlength := length_lt_rounds hP hQ hPr hQr
  obtain ⟨st', M', words, low', hloop, hst', hM', hitems, hlen, hnil, hrun, hptr⟩ :=
    hst.loop hM hcard' hlength hcan
  have hmeld : meld rank P Q = _ := hrun
  unfold merge
  rw [if_neg (fun h => hp' h.1), if_neg hp', if_neg hq', hloop]
  by_cases hleft : M'.left = .nil
  · -- the rest of `pq_2`
    obtain ⟨c₁, c₂, hf', hfirst, hright, hnew⟩ := hst'
    have hnull : st'.pq1 = nullPtr := hfirst.eq_nullPtr_iff.mpr hleft
    rw [hleft] at hfirst
    cases hfirst with
    | complete _ _ =>
      obtain ⟨r, m', hfinish, hext, hptr', hR⟩ := finish_spec st' hf' hnew hright
      have hstep : M'.step rank = none := by simp [Melding.step, hleft]
      rw [hmeld, Melding.run_none hstep]
      refine ⟨r, m', ?_, hext, by rw [hptr']; exact hptr, ?_⟩
      · simp only [bind, Except.bind, hnull, if_true, pure, Except.pure, hfinish]
      · simpa [Melding.finish, hleft] using hR
  · -- the rest of `pq_1`, without a carry
    have hright : M'.right = .nil := hnil.resolve_left hleft
    have hnull : st'.pq1 ≠ nullPtr := mt hst'.pq1_eq_nullPtr_iff.mp hleft
    obtain ⟨r, m', M₂, words', low₂, hcarry, hst₂, hM₂, hleft₂, hright₂, hstep, hrun₂, hptr₂⟩ :=
      hst'.carryLoop (n := priqRounds) hM' (by rwa [hitems]) (by omega) hleft hright
        (hst.canAllocate hst' hptr (by rw [hmeld] at hcan; exact hcan))
    obtain ⟨c₁, c₂, hf', hfirst, -, hnew⟩ := hst₂
    have hsub : c₂.Sublist (c₁ ++ c₂) := List.sublist_append_right _ _
    have hclose : Keeps m' (c₁ ++ c₂) m' c₂ := Keeps.close m' fun c hc => hsub.subset hc
    obtain ⟨r', m'', hfinish, hext, hptr', hR⟩ :=
      finish_spec _ (hf'.close hsub) (hnew.frame hclose fun _ _ _ _ => rfl) (hfirst.close hf')
    rw [hmeld, hrun₂]
    refine ⟨r', m'', ?_, hext, ?_, ?_⟩
    · simp only [bind, Except.bind, if_neg hnull, hcarry, pure, Except.pure]
      exact congrArg Except.ok hfinish
    · dsimp only at hptr hptr' hptr₂ ⊢
      omega
    · cases hl : M₂.left with
      | nil => exact absurd hl hleft₂
      | tree h x s p => simpa [Melding.finish, hl] using hR

end Shades
