import Shades.Lq.Insert

/-!
# Shades.Lq.Remove

`lq_remove_first` refines the removal from a queue of trees.  The new entry point
is open until the end: its word `1` is the head made so far, and each round puts
a tree in front of it.
-/

namespace Shades

open Memory Lq SkewForest

variable {m₀ m m' m'' : Memory} {cells : List (Nat × Nat)} {xs : (Nat → Nat) → List Nat}
variable {p q e a b s h x n k rounds : Nat} {type : CellType}
variable {t u newer older : SkewTree Nat} {ts head init : List (SkewTree Nat)} {Q : SkewQueue Nat}

/-! ## the new head -/

/-- At most `n` words were allocated, and the closed words are as before. -/
structure Memory.Spends (m : Memory) (cells : List (Nat × Nat)) (n : Nat) (m' : Memory) : Prop where
  keeps : Keeps m cells m' cells
  allocationPtr_le : m.allocationPtr ≤ m'.allocationPtr + n
  firstGenerationEnd_eq : m'.firstGenerationEnd = m.firstGenerationEnd

theorem Memory.Spends.refl (m : Memory) (cells : List (Nat × Nat)) : m.Spends cells 0 m :=
  ⟨.refl m cells, Nat.le_refl _, rfl⟩

theorem Memory.Spends.trans (h : m.Spends cells n m') (h' : m'.Spends cells k m'') :
    m.Spends cells (n + k) m'' where
  keeps := h.keeps.trans h'.keeps
  allocationPtr_le := by
    have hle := h.allocationPtr_le
    have hle' := h'.allocationPtr_le
    omega
  firstGenerationEnd_eq := h'.firstGenerationEnd_eq.trans h.firstGenerationEnd_eq

theorem Memory.Spends.mono (h : m.Spends cells n m') (hnk : n ≤ k) : m.Spends cells k m' :=
  ⟨h.keeps, Nat.le_trans h.allocationPtr_le (Nat.add_le_add_left hnk _), h.firstGenerationEnd_eq⟩

theorem Memory.Spends.canAllocate (h : m.Spends cells n m') (hcan : m.canAllocate (n + k)) :
    m'.canAllocate k := by
  have hle := h.allocationPtr_le
  have hend := h.firstGenerationEnd_eq
  unfold Memory.canAllocate at hcan ⊢
  omega

/-- The new entry point `e` with its head and the word of its tail. -/
structure EntryOpen (m₀ : Memory) (cells : List (Nat × Nat)) (m : Memory) (e : Nat)
    (head : List (SkewTree Nat)) (a b : Nat) : Prop where
  filling : m₀.Filling ((e, 3) :: cells) m
  ne_null : e ≠ nullPtr
  head_word : m.words (e + 1) = ptrToWord a
  tail_word : m.words (e + 2) = ptrToWord b
  head : ChainAt m.words (m.Closed ((e, 3) :: cells)) head a

/-- The word of the head is read. -/
theorem EntryOpen.read (he : EntryOpen m₀ cells m e head a b) {words : Nat → Nat}
    (hagree : AgreeOn m.Live m.words words) : words (e + 1) = ptrToWord a := by
  have hfresh := he.filling.fresh _ List.mem_cons_self
  exact (hagree _ (.inr (by dsimp only at hfresh; omega))).trans he.head_word

theorem EntryOpen.head_ne_nullWord (he : EntryOpen m₀ cells m e head a b) (hne : head ≠ []) :
    m.words (e + 1) ≠ nullWord := by
  rw [he.head_word, ne_eq, ptrToWord_eq_nullWord]
  exact mt he.head.eq_nullPtr_iff.mp hne

/-- A new item is put in front of the head. -/
theorem EntryOpen.push (type : CellType) (n h : Nat) (xs : (Nat → Nat) → List Nat) (s x : Nat)
    (he : EntryOpen m₀ cells m e head a b) (htype : itemType a s = type)
    (hn : (itemLinks a s).length + 2 = n) (hcan : m.canAllocate n) (hh : h < 2 ^ 24)
    (hxs : ∀ words, AgreeOn m.Live m.words words → xs words = ptrToWord x :: itemLinks a s)
    (htree : ∀ {m' q}, Keeps m ((e, 3) :: cells) m' ((e, 3) :: cells) →
      ItemCell m'.words (m'.Closed ((e, 3) :: cells)) q a s h x →
        LqTreeAt m'.words (m'.Closed ((e, 3) :: cells)) t a q) :
    ∃ m' q, pushHead e (newItem m n type h xs) = m' ∧ m.Spends ((e, 3) :: cells) n m' ∧
      EntryOpen m₀ cells m' e (t :: head) q b := by
  obtain ⟨q, m₁, hnew, hf₁, htook, hq⟩ :=
    newItem_spec type n h xs a s x he.filling htype hn hcan hh hxs
  have hmem : (e, 3) ∈ (e, 3) :: cells := List.mem_cons_self
  have hfresh := he.filling.fresh _ hmem
  dsimp only at hfresh
  have hkeeps : Keeps m ((e, 3) :: cells) (m₁.set (e + 1) (ptrToWord q)) ((e, 3) :: cells) :=
    (htook.keeps _).trans (.set m₁ hmem (by decide) _)
  have hset : Keeps m₁ ((e, 3) :: cells) (m₁.set (e + 1) (ptrToWord q)) ((e, 3) :: cells) :=
    .set m₁ hmem (by decide) _
  refine ⟨_, q, by rw [hnew]; rfl, ⟨hkeeps, Nat.le_of_eq htook.allocationPtr_eq,
    htook.firstGenerationEnd_eq⟩, hf₁.set hmem (by decide) _, he.ne_null, ?_, ?_, a, ?_,
    he.head.keeps hkeeps⟩
  · rw [Memory.set_words, if_pos rfl]
  · rw [Memory.set_words, if_neg (by omega)]
    exact (htook.words _ (.inr (by omega))).trans he.tail_word
  · exact htree hkeeps (hq.frame hset.agree hset.closed)

variable {n' : Nat}

/-- A single item is put in front of the head. -/
theorem EntryOpen.pushSingle (he : EntryOpen m₀ cells m e head a b) (hne : head ≠ [])
    (hcan : m.canAllocate 3)
    (hitem : ∀ words, AgreeOn m.Live m.words words → words (p + 1) = ptrToWord x) :
    ∃ m' q, pushHead e (newItem m 3 .lqItem01 0 fun words => [words (p + 1), words (e + 1)]) = m' ∧
      m.Spends ((e, 3) :: cells) 3 m' ∧ EntryOpen m₀ cells m' e (.single x :: head) q b := by
  have ha : a ≠ nullPtr := mt he.head.eq_nullPtr_iff.mp hne
  exact he.push .lqItem01 3 0 _ nullPtr x (by simp [itemType, ha]) (by simp [itemLinks, ha]) hcan
    (by decide) (fun words hagree => by
      rw [hitem words hagree, he.read hagree]
      simp [itemLinks, ha]) fun _ hq => hq

/-- A tree is put in front of the head: its root is copied. -/
theorem EntryOpen.pushTree {l r : SkewTree Nat} (he : EntryOpen m₀ cells m e head a b)
    (hne : head ≠ []) (hcan : m.canAllocate 4)
    (hcell : ItemCell m.words (m.Closed ((e, 3) :: cells)) p n' s (l.height + 1) x)
    (hr : LqTreeAt m.words (m.Closed ((e, 3) :: cells)) r n s)
    (hl : LqTreeAt m.words (m.Closed ((e, 3) :: cells)) l nullPtr n)
    (xs : (Nat → Nat) → List Nat) (hxs : ∀ words, AgreeOn m.Live m.words words →
      xs words = [ptrToWord x, words (e + 1), ptrToWord s]) :
    ∃ m' q, pushHead e (newItem m 4 .lqItem11 (height m.words p) xs) = m' ∧
      m.Spends ((e, 3) :: cells) 4 m' ∧ EntryOpen m₀ cells m' e (.node x l r :: head) q b := by
  have ha : a ≠ nullPtr := mt he.head.eq_nullPtr_iff.mp hne
  have hs := hr.ne_null
  rw [hcell.height_eq]
  exact he.push .lqItem11 4 _ xs s x (by simp [itemType, ha, hs]) (by simp [itemLinks, ha, hs]) hcan
    hcell.height_lt (fun words hagree => by
      rw [hxs words hagree, he.read hagree]
      simp [itemLinks, ha, hs]) fun hkeeps hq => ⟨s, n, hq, hr.keeps hkeeps, hl.keeps hkeeps⟩

/-! ## the loops -/

/-- The words that a tree takes when it is dismantled. -/
def unpackWords (t : SkewTree Nat) : Nat := 7 * t.height + 3

/-- The loop `unpack`: `p` is the right son of a node whose root was moved to the
head, and its brother is the left son. -/
theorem unpack_spec (rounds : Nat) (he : EntryOpen m₀ cells m e head a b) (hne : head ≠ [])
    (holder : LqTreeAt m.words (m.Closed ((e, 3) :: cells)) older n p)
    (hnewer : LqTreeAt m.words (m.Closed ((e, 3) :: cells)) newer nullPtr n)
    (heq : newer.height = older.height) (hperfect : older.Perfect)
    (hcan : m.canAllocate (unpackWords older)) (hrounds : older.height < rounds) :
    ∃ m' a', unpack e rounds p m = some m' ∧ m.Spends ((e, 3) :: cells) (unpackWords older) m' ∧
      EntryOpen m₀ cells m' e (removeOldest older (newer :: head)) a' b := by
  induction older generalizing m p n a newer head rounds with
  | single x =>
    obtain ⟨rounds, rfl⟩ : ∃ r, rounds = r + 1 := ⟨rounds - 1, by omega⟩
    have hcell : ItemCell m.words (m.Closed ((e, 3) :: cells)) p n nullPtr 0 x := holder
    have hn : n ≠ nullPtr := hnewer.ne_null
    have htype : IsType m.words p .lqItem01 := by
      rw [hcell.isType_iff]
      simp [itemType, hn]
    have hnext : next m.words p = n := by rw [next, hcell.brother hn, wordToPtr_ptrToWord]
    have hheight : height m.words n = 0 := by
      rw [hnewer.height_eq, heq]
      rfl
    cases newer with
    | node y l r => simp at heq
    | single y =>
      have hcell' : ItemCell m.words (m.Closed ((e, 3) :: cells)) n nullPtr nullPtr 0 y := hnewer
      obtain ⟨m', q, hpush, hspends, he'⟩ := he.pushSingle hne hcan
        fun words hagree => hcell'.read_item hagree
      refine ⟨m', q, ?_, hspends, he'⟩
      simp only [unpack, assert_true (he.head_ne_nullWord hne), bind, Option.bind, if_pos htype,
        hcell.height_eq, hnext, hheight, assert_true trivial, hpush]
  | node x l r _ ih =>
    obtain ⟨rounds, rfl⟩ : ∃ k, rounds = k + 1 := ⟨rounds - 1, by omega⟩
    obtain ⟨hlr, hl, hr⟩ := hperfect
    have hn : n ≠ nullPtr := hnewer.ne_null
    obtain ⟨s, n', hcell, hsr, hsl⟩ := holder
    have hs := hsr.ne_null
    have htype : IsType m.words p .lqItem11 := by
      rw [hcell.isType_iff]
      simp [itemType, hn, hs]
    have hnot : ¬ IsType m.words p .lqItem01 := by
      rw [hcell.isType_iff]
      simp [itemType, hn, hs]
    have hnext : next m.words p = n := by rw [next, hcell.brother hn, wordToPtr_ptrToWord]
    cases newer with
    | single y => simp at heq
    | node y l' r' =>
      obtain ⟨s', n'', hcell', hsr', hsl'⟩ := hnewer
      have hbrother : IsType m.words n .lqItem10 := by
        rw [hcell'.isType_iff]
        simp [itemType, hsr'.ne_null]
      have hwords : unpackWords (.node x l r) = 4 + (3 + unpackWords r) := by
        simp only [unpackWords, SkewTree.height_node, hlr]
        omega
      rw [hwords] at hcan ⊢
      -- the brother
      obtain ⟨m₁, a₁, hpush₁, hspends₁, he₁⟩ := he.pushTree hne (canAllocate_mono hcan (by omega))
        hcell' hsr' hsl' (fun words => [words (n + 1), words (e + 1), words (n + 2)])
        fun words hagree => by rw [hcell'.read_item hagree, hcell'.read_son hsr'.ne_null hagree]
      have hcell₁ := hcell.frame hspends₁.keeps.agree hspends₁.keeps.closed
      -- the root
      obtain ⟨m₂, a₂, hpush₂, hspends₂, he₂⟩ := he₁.pushSingle (by simp)
        (hspends₁.canAllocate (canAllocate_mono hcan (by omega)))
        fun words hagree => hcell₁.read_item hagree
      have hkeeps := (hspends₁.trans hspends₂).keeps
      have hcell₂ := hcell.frame hkeeps.agree hkeeps.closed
      have hsr₂ := hsr.keeps hkeeps
      have hson : wordToPtr (m₂.words (p + 3)) = s := by
        rw [hcell₂.son_of_brother hn hs, wordToPtr_ptrToWord]
      have hlt := hcell₂.height_lt
      obtain ⟨m', a', hrun, hspends, he'⟩ := ih rounds he₂ (by simp) hsr₂ (hsl.keeps hkeeps) hlr
        hr (hspends₂.canAllocate (hspends₁.canAllocate hcan))
        (by rw [SkewTree.height_node, hlr] at hrounds; omega)
      refine ⟨m', a', ?_, hspends₁.trans (hspends₂.trans hspends), he'⟩
      simp only [unpack, assert_true (he.head_ne_nullWord hne), bind, Option.bind, if_neg hnot,
        assert_true htype, hnext, assert_true hbrother, hpush₁, hpush₂, hson, hsr₂.height_eq,
        hcell₂.height_eq]
      rw [sub32_of_le (by omega) (by omega), Nat.add_sub_cancel, assert_true hlr.symm]
      exact hrun

/-- The root of a tree without a brother goes to the head, and the tree is
unpacked. -/
theorem unpackLast_spec {l r : SkewTree Nat} (rounds : Nat) (he : EntryOpen m₀ cells m e head a b)
    (hne : head ≠ []) (ht : LqTreeAt m.words (m.Closed ((e, 3) :: cells)) (.node x l r) nullPtr p)
    (hperfect : (SkewTree.node x l r).Perfect) (hcan : m.canAllocate (7 * (l.height + 1)))
    (hrounds : l.height < rounds) :
    ∃ m₁ m' a', pushHead e (newItem m 3 .lqItem01 0 fun words => [words (p + 1), words (e + 1)]) =
        m₁ ∧
      height m₁.words (wordToPtr (m₁.words (p + 2))) = sub32 (height m₁.words p) 1 ∧
      unpack e rounds (wordToPtr (m₁.words (p + 2))) m₁ = some m' ∧
      m.Spends ((e, 3) :: cells) (7 * (l.height + 1)) m' ∧
      EntryOpen m₀ cells m' e (removeOldest (.node x l r) head) a' b := by
  obtain ⟨hlr, hl, hr⟩ := hperfect
  obtain ⟨s, n, hcell, hsr, hsl⟩ := ht
  have hlt := hcell.height_lt
  obtain ⟨m₁, a₁, hpush, hspends₁, he₁⟩ := he.pushSingle hne (canAllocate_mono hcan (by omega))
    fun words hagree => hcell.read_item hagree
  have hcell₁ := hcell.frame hspends₁.keeps.agree hspends₁.keeps.closed
  have hsr₁ := hsr.keeps hspends₁.keeps
  have hson : wordToPtr (m₁.words (p + 2)) = s := by
    rw [hcell₁.son hsr.ne_null, wordToPtr_ptrToWord]
  have hwords : 3 + unpackWords r ≤ 7 * (l.height + 1) := by
    unfold unpackWords
    omega
  obtain ⟨m', a', hrun, hspends, he'⟩ := unpack_spec rounds he₁ (by simp) hsr₁
    (hsl.keeps hspends₁.keeps) hlr hr (hspends₁.canAllocate (canAllocate_mono hcan hwords))
    (hlr ▸ hrounds)
  refine ⟨m₁, m', a', hpush, ?_, by rw [hson]; exact hrun,
    (hspends₁.trans hspends).mono hwords, he'⟩
  rw [hson, hsr₁.height_eq, hcell₁.height_eq, sub32_of_le (by omega) (by omega),
    Nat.add_sub_cancel, hlr]

/-- The loop `reverse`: the trees of the tail up to the one at `p` are in the head
already. -/
theorem reverse_spec {p' : Nat} (rounds : Nat) (he : EntryOpen m₀ cells m e head a b)
    (hne : head ≠ [])
    (hnext : next m.words p = p')
    (hchain : ChainAt m.words (m.Closed ((e, 3) :: cells)) (init ++ [u]) p')
    (hperfect : u.Perfect) (hcan : m.canAllocate (4 * init.length + 7 * u.height))
    (hrounds : init.length < rounds) (hheight : u.height ≤ lqRemoveMaxAllocation) :
    ∃ m' a', reverse e rounds p m = some m' ∧
      m.Spends ((e, 3) :: cells) (4 * init.length + 7 * u.height) m' ∧
      EntryOpen m₀ cells m' e (removeOldest u (init.reverse ++ head)) a' b := by
  obtain ⟨rounds, rfl⟩ : ∃ k, rounds = k + 1 := ⟨rounds - 1, by omega⟩
  induction init generalizing m p p' head a rounds with
  | nil =>
    obtain ⟨b', hu, hb⟩ := hchain
    obtain rfl : b' = nullPtr := hb
    cases u with
    | single x =>
      have hcell : ItemCell m.words (m.Closed ((e, 3) :: cells)) p' nullPtr nullPtr 0 x := hu
      refine ⟨m, a, ?_, .refl m _, he⟩
      simp only [reverse, hnext, if_pos ((hcell.isType_iff .lqItem00).mpr rfl)]
    | node x l r =>
      obtain ⟨s, n, hcell, hsr, -⟩ := id hu
      have htype : IsType m.words p' .lqItem10 := by
        rw [hcell.isType_iff]
        simp [itemType, hsr.ne_null]
      have hnot : ¬ IsType m.words p' .lqItem00 := by
        rw [hcell.isType_iff]
        simp [itemType, hsr.ne_null]
      rw [List.length_nil, Nat.mul_zero, Nat.zero_add] at hcan ⊢
      obtain ⟨m₁, m', a', hpush, hson, hrun, hspends, he'⟩ := unpackLast_spec
        lqRemoveMaxAllocation he hne hu hperfect hcan hheight
      refine ⟨m', a', ?_, hspends, he'⟩
      simp only [reverse, hnext, if_neg hnot, if_pos htype, bind, Option.bind, hcell.height_eq,
        assert_true (Nat.succ_pos l.height), hpush, assert_true hson, hrun]
  | cons t init ih =>
    obtain ⟨b', ht, hrest⟩ := hchain
    have hb : b' ≠ nullPtr := mt hrest.eq_nullPtr_iff.mp (by simp)
    rw [List.length_cons] at hrounds hcan ⊢
    obtain ⟨rounds, rfl⟩ : ∃ k, rounds = k + 1 := ⟨rounds - 1, by omega⟩
    have hcan₁ : m.canAllocate (4 + (4 * init.length + 7 * u.height)) :=
      canAllocate_mono hcan (by omega)
    -- the next rounds
    have hloop : ∀ {m₁ q}, m.Spends ((e, 3) :: cells) 4 m₁ →
        EntryOpen m₀ cells m₁ e (t :: head) q b → next m₁.words p' = b' →
        ∃ m' a', reverse e (rounds + 1) p' m₁ = some m' ∧
          m.Spends ((e, 3) :: cells) (4 * (init.length + 1) + 7 * u.height) m' ∧
          EntryOpen m₀ cells m' e (removeOldest u ((t :: init).reverse ++ head)) a' b := by
      intro m₁ q hspends₁ he₁ hnext₁
      obtain ⟨m', a', hrun, hspends, he'⟩ := ih he₁ (by simp) hnext₁ (hrest.keeps hspends₁.keeps)
        (hspends₁.canAllocate hcan₁) rounds (by omega)
      refine ⟨m', a', hrun, (hspends₁.trans hspends).mono (by omega), ?_⟩
      rw [List.reverse_cons, List.append_assoc, List.singleton_append]
      exact he'
    cases t with
    | single x =>
      have hcell : ItemCell m.words (m.Closed ((e, 3) :: cells)) p' b' nullPtr 0 x := ht
      obtain ⟨m₁, q, hpush, hspends₁, he₁⟩ := he.pushSingle hne
        (canAllocate_mono hcan₁ (by omega)) fun words hagree => hcell.read_item hagree
      have hcell₁ := hcell.frame hspends₁.keeps.agree hspends₁.keeps.closed
      obtain ⟨m', a', hrun, hspends, he'⟩ := hloop (hspends₁.mono (by decide)) he₁
        (by rw [next, hcell₁.brother hb, wordToPtr_ptrToWord])
      have hnot : ∀ type, type ≠ .lqItem01 → ¬ IsType m.words p' type := fun type hne => by
        rw [hcell.isType_iff]
        simpa [itemType, hb] using hne.symm
      refine ⟨m', a', ?_, hspends, he'⟩
      rw [reverse]
      simp only [hnext, if_neg (hnot .lqItem00 (by decide)), if_neg (hnot .lqItem10 (by decide)),
        if_pos ((hcell.isType_iff .lqItem01).mpr (by simp [itemType, hb])), hpush, hrun]
    | node x l r =>
      obtain ⟨s, n, hcell, hsr, hsl⟩ := ht
      have hs := hsr.ne_null
      obtain ⟨m₁, q, hpush, hspends₁, he₁⟩ := he.pushTree hne (canAllocate_mono hcan₁ (by omega))
        hcell hsr hsl (fun words => [words (p' + 1), words (e + 1), words (p' + 3)])
        fun words hagree => by
          rw [hcell.read_item hagree, hcell.read_son_of_brother hb hs hagree]
      have hcell₁ := hcell.frame hspends₁.keeps.agree hspends₁.keeps.closed
      obtain ⟨m', a', hrun, hspends, he'⟩ := hloop hspends₁ he₁
        (by rw [next, hcell₁.brother hb, wordToPtr_ptrToWord])
      have hnot : ∀ type, type ≠ .lqItem11 → ¬ IsType m.words p' type := fun type hne => by
        rw [hcell.isType_iff]
        simpa [itemType, hb, hs] using hne.symm
      refine ⟨m', a', ?_, hspends, he'⟩
      rw [hcell.height_eq] at hpush
      rw [reverse]
      simp only [hnext, if_neg (hnot .lqItem00 (by decide)), if_neg (hnot .lqItem10 (by decide)),
        if_neg (hnot .lqItem01 (by decide)), bind, Option.bind,
        assert_true ((hcell.isType_iff .lqItem11).mpr (by simp [itemType, hb, hs])),
        hcell.height_eq, assert_true (Nat.succ_pos l.height), hpush, hrun]

/-! ## the operation -/

theorem Memory.Took.spends (ht : m.Took n m') (cells : List (Nat × Nat)) : m.Spends cells n m' :=
  ⟨ht.keeps cells, Nat.le_of_eq ht.allocationPtr_eq, ht.firstGenerationEnd_eq⟩

/-- What happens to other open cells does not matter. -/
theorem Memory.Spends.close (h : m.Spends ((e, 3) :: cells) n m')
    (hk : Keeps m'' cells m ((e, 3) :: cells)) : Keeps m'' cells m' cells :=
  hk.trans (h.keeps.trans (.close m' fun _ hc => List.mem_cons_of_mem _ hc))

/-- The new entry point. -/
theorem newHead_spec (hf : m₀.Filling cells m) (hcan : m.canAllocate 3)
    (hhead : ChainAt m.words (m.Closed cells) head p) (w : (Nat → Nat) → Nat)
    (hw : ∀ words, AgreeOn m.Live m.words words → w words = ptrToWord b) :
    ∃ e m', newHead p w m = (e, m') ∧ m.Took 3 m' ∧ Keeps m cells m' ((e, 3) :: cells) ∧
      EntryOpen m₀ cells m' e head p b := by
  obtain ⟨e, m', hnew, hf', htook, hptr, hnull, -, hwords⟩ := newItem_open (n := 3) .lqEntryPoint 0
    [ptrToWord p, ptrToWord b] hf (by simp) hcan
    (fun words hagree => show [ptrToWord p, w words] = _ by rw [hw words hagree])
  have hkeeps := htook.keeps_open hf'.fits cells
  rw [hptr] at hkeeps
  simp only [List.length_cons, List.length_nil, slice, List.cons.injEq, and_true] at hwords
  exact ⟨e, m', hnew, htook, hkeeps, hf', hnull, hwords.1, hwords.2, hhead.keeps hkeeps⟩

/-- The new queue is complete. -/
theorem EntryOpen.complete (tail : List (SkewTree Nat)) (he : EntryOpen m₀ cells m e head a b)
    (hne : head ≠ []) (htail : ChainAt m.words (m.Closed ((e, 3) :: cells)) tail b) :
    m₀.Filling cells m ∧ LqAt m.words (m.Closed cells) ⟨head, tail⟩ e := by
  have hclose : Keeps m ((e, 3) :: cells) m cells :=
    .close m fun _ hc => List.mem_cons_of_mem _ hc
  exact ⟨he.filling.close (List.sublist_cons_self _ _), .inr ⟨a, b, he.ne_null,
    fun i hi => he.filling.closed_first hi, he.head_word, he.tail_word, he.head.keeps hclose,
    htail.keeps hclose, .inl hne⟩⟩

/-- The first tree of a list is dismantled: its root is the first item of the new
head, with the brother `n'`. -/
theorem removeNode_spec {l r : SkewTree Nat} (head tail : List (SkewTree Nat)) (type : CellType)
    (k : Nat) (xs : (Nat → Nat) → List Nat) (w : (Nat → Nat) → Nat) (hf : m₀.Filling cells m)
    (hsr : LqTreeAt m.words (m.Closed cells) r n s)
    (hsl : LqTreeAt m.words (m.Closed cells) l nullPtr n)
    (hperfect : (SkewTree.node x l r).Perfect) (hhead : ChainAt m.words (m.Closed cells) head n')
    (htail : ChainAt m.words (m.Closed cells) tail b) (htype : itemType n' nullPtr = type)
    (hk : (itemLinks n' nullPtr).length + 2 = k)
    (hxs : ∀ words, AgreeOn m.Live m.words words → xs words = ptrToWord x :: itemLinks n' nullPtr)
    (hw : ∀ words, AgreeOn m.Live m.words words → w words = ptrToWord b)
    (hcan : m.canAllocate (k + (3 + unpackWords r))) (hheight : l.height < lqRemoveMaxAllocation) :
    ∃ i m₁ e m₂ m', newItem m k type 0 xs = (i, m₁) ∧ m.Took k m₁ ∧ newHead i w m₁ = (e, m₂) ∧
      unpack e lqRemoveMaxAllocation s m₂ = some m' ∧ m₀.Filling cells m' ∧
      m.Spends cells (k + (3 + unpackWords r)) m' ∧
      LqAt m'.words (m'.Closed cells) ⟨removeOldest (.node x l r) head, tail⟩ e := by
  obtain ⟨hlr, hl, hr⟩ := hperfect
  obtain ⟨i, m₁, hnew, hf₁, htook₁, hi⟩ := newItem_spec type k 0 xs n' nullPtr x hf htype hk
    (canAllocate_mono hcan (by omega)) (by decide) hxs
  have hkeeps₁ := htook₁.keeps cells
  have hchain : ChainAt m₁.words (m₁.Closed cells) (.single x :: head) i :=
    ⟨n', hi, hhead.keeps hkeeps₁⟩
  obtain ⟨e, m₂, hentry, htook₂, hkeeps₂, he⟩ := newHead_spec (b := b) hf₁
    (htook₁.canAllocate (canAllocate_mono hcan (by omega))) hchain w
    fun words hagree => hw words (htook₁.agree hagree)
  have hkeeps := hkeeps₁.trans hkeeps₂
  obtain ⟨m', a', hrun, hspends, he'⟩ := unpack_spec lqRemoveMaxAllocation he (by simp)
    (hsr.keeps hkeeps) (hsl.keeps hkeeps) hlr hr
    (htook₂.canAllocate (htook₁.canAllocate hcan)) (hlr ▸ hheight)
  obtain ⟨hf', hQ⟩ := he'.complete tail (removeOldest_ne_nil _ (by simp))
    (htail.keeps (hkeeps.trans hspends.keeps))
  refine ⟨i, m₁, e, m₂, m', hnew, htook₁, hentry, hrun, hf', ⟨hspends.close hkeeps, ?_, ?_⟩, hQ⟩
  · have hptr₁ := htook₁.allocationPtr_eq
    have hptr₂ := htook₂.allocationPtr_eq
    have hptr := hspends.allocationPtr_le
    omega
  · exact hspends.firstGenerationEnd_eq.trans
      (htook₂.firstGenerationEnd_eq.trans htook₁.firstGenerationEnd_eq)

/-- What `lq_remove_first` gives for the queue `Q`. -/
def Removes (m₀ : Memory) (cells : List (Nat × Nat)) (m : Memory) (n : Nat)
    (r : Option (Nat × Memory)) (Q : SkewQueue Nat) : Prop :=
  ∃ q m', r = some (q, m') ∧ m₀.Filling cells m' ∧ m.Spends cells n m' ∧
    LqAt m'.words (m'.Closed cells) Q q

theorem EntryAt.live (hQ : EntryAt m.words (m.Closed cells) Q p a b) {i : Nat} (hi : i < 3) :
    m.Live (p + i) := (hQ.cell i hi).1

/-- The head is not empty. -/
theorem removeHead_spec (hf : m₀.Filling cells m) (hQ : EntryAt m.words (m.Closed cells) Q p a b)
    (hhead : Q.head = t :: head) (hperfect : t.Perfect) (hcan : m.canAllocate (7 * t.height + 6))
    (hheight : t.height ≤ lqRemoveMaxAllocation) :
    Removes m₀ cells m (7 * t.height + 6) (removeHead m p) ⟨removeOldest t head, Q.tail⟩ := by
  obtain ⟨b', ht, hrest⟩ := hhead ▸ hQ.head
  have htree : wordToPtr (m.words (p + 1)) = a := by rw [hQ.head_word, wordToPtr_ptrToWord]
  have htail : ∀ words, AgreeOn m.Live m.words words → words (p + 2) = ptrToWord b :=
    fun words hagree => (hagree _ (hQ.live (by decide))).trans hQ.tail_word
  have hcan₃ : m.canAllocate 3 := canAllocate_mono hcan (by omega)
  cases t with
  | single x =>
    have hcell : ItemCell m.words (m.Closed cells) a b' nullPtr 0 x := ht
    rw [removeOldest]
    by_cases hb : b' = nullPtr
    · subst hb
      obtain rfl := hrest.eq_nullPtr_iff.mp rfl
      have htype : IsType m.words a .lqItem00 := (hcell.isType_iff _).mpr rfl
      by_cases hnil : Q.tail = []
      · have hb : b = nullPtr := hQ.tail.eq_nullPtr_iff.mpr hnil
        refine ⟨nullPtr, m, ?_, hf, (Spends.refl m cells).mono (Nat.zero_le _),
          .inl ⟨rfl, rfl, hnil⟩⟩
        simp only [removeHead, htree, if_pos htype, hQ.tail_word, hb]
        rfl
      · have hb : b ≠ nullPtr := mt hQ.tail.eq_nullPtr_iff.mp hnil
        obtain ⟨q, m', hnew, hf', htook, hq⟩ := newEntry_spec
          (fun words => [nullWord, words (p + 2)]) ⟨[], Q.tail⟩ nullPtr b hf hcan₃
          (fun words hagree => by rw [htail words hagree]; rfl) rfl hQ.tail (.inr hnil)
        refine ⟨q, m', ?_, hf', (htook.spends cells).mono (by omega), .inr ⟨_, _, hq⟩⟩
        simp only [removeHead, htree, if_pos htype, hQ.tail_word,
          if_neg (mt ptrToWord_eq_nullWord.mp hb), hnew]
    · have htype : IsType m.words a .lqItem01 := by
        rw [hcell.isType_iff]
        simp [itemType, hb]
      have hnot : ¬ IsType m.words a .lqItem00 := by
        rw [hcell.isType_iff]
        simp [itemType, hb]
      obtain ⟨q, m', hnew, hf', htook, hq⟩ := newEntry_spec
        (fun words => [words (a + 2), words (p + 2)]) ⟨head, Q.tail⟩ b' b hf hcan₃
        (fun words hagree => by rw [htail words hagree, hcell.read_brother hb hagree]) hrest hQ.tail
        (.inl (mt hrest.eq_nullPtr_iff.mpr hb))
      refine ⟨q, m', ?_, hf', (htook.spends cells).mono (by omega), .inr ⟨_, _, hq⟩⟩
      simp only [removeHead, htree, if_neg hnot, if_pos htype, hnew]
  | node x l r =>
    obtain ⟨s, n, hcell, hsr, hsl⟩ := ht
    have hs := hsr.ne_null
    have hlr : l.height = r.height := hperfect.1
    have hwords : 7 * (SkewTree.node x l r).height + 6 = 3 + (3 + unpackWords r) + 4 := by
      simp only [unpackWords, SkewTree.height_node, hlr]
      omega
    rw [hwords] at hcan ⊢
    rw [SkewTree.height_node] at hheight
    have hnot : ∀ type, type ≠ .lqItem10 → type ≠ .lqItem11 → ¬ IsType m.words a type := by
      intro type h h'
      rw [hcell.isType_iff, itemType, if_neg hs]
      split
      · exact h.symm
      · exact h'.symm
    by_cases hb : b' = nullPtr
    · subst hb
      obtain ⟨i, m₁, e, m₂, m', hnew, htook, hentry, hrun, hf', hspends, hq⟩ := removeNode_spec head
        Q.tail .lqItem00 2 (fun words => [words (a + 1)]) (fun words => words (p + 2)) hf hsr hsl
        hperfect hrest hQ.tail rfl rfl (fun words hagree => by rw [hcell.read_item hagree]; rfl)
        htail (canAllocate_mono hcan (by omega)) hheight
      have hson : wordToPtr (m₁.words (a + 2)) = s := by
        rw [hcell.read_son hs htook.words, wordToPtr_ptrToWord]
      refine ⟨e, m', ?_, hf', hspends.mono (by omega), hq⟩
      simp only [removeHead, htree, if_neg (hnot .lqItem00 (by decide) (by decide)),
        if_neg (hnot .lqItem01 (by decide) (by decide)), bind, Option.bind,
        if_pos ((hcell.isType_iff .lqItem10).mpr (by simp [itemType, hs])), hcell.height_eq,
        assert_true (Nat.succ_pos l.height), hnew, hson, hentry, hrun]
    · obtain ⟨i, m₁, e, m₂, m', hnew, htook, hentry, hrun, hf', hspends, hq⟩ := removeNode_spec head
        Q.tail .lqItem01 3 (fun words => [words (a + 1), words (a + 2)])
        (fun words => words (p + 2)) hf hsr hsl hperfect hrest hQ.tail (by simp [itemType, hb])
        (by simp [itemLinks, hb])
        (fun words hagree => by
          rw [hcell.read_item hagree, hcell.read_brother hb hagree]
          simp [itemLinks, hb])
        htail (canAllocate_mono hcan (by omega)) hheight
      have hson : wordToPtr (m₁.words (a + 3)) = s := by
        rw [hcell.read_son_of_brother hb hs htook.words, wordToPtr_ptrToWord]
      refine ⟨e, m', ?_, hf', hspends.mono (by omega), hq⟩
      simp only [removeHead, htree, if_neg (hnot .lqItem00 (by decide) (by decide)),
        if_neg (hnot .lqItem01 (by decide) (by decide)), bind, Option.bind,
        if_neg (mt (hcell.isType_iff .lqItem10).mp (by simp [itemType, hb, hs])),
        assert_true ((hcell.isType_iff .lqItem11).mpr (by simp [itemType, hb, hs])),
        hcell.height_eq, assert_true (Nat.succ_pos l.height), hnew, hson, hentry, hrun]

/-- The first tree of the tail is in the new head, and the others follow. -/
theorem reverseTail_spec {i : Nat} {m₁ : Memory} (hf₁ : m₀.Filling cells m₁) (htook₁ : m.Took k m₁)
    (hi : ChainAt m₁.words (m₁.Closed cells) [t] i) (hnext : next m₁.words p = b)
    (hlive : m₁.Closed cells (p + 2))
    (hchain : ChainAt m₁.words (m₁.Closed cells) (init ++ [u]) b) (hperfect : u.Perfect)
    (hcan : m.canAllocate (k + (3 + (4 * init.length + 7 * u.height))))
    (hinit : init.length < lqRemoveMaxAllocation) (hheight : u.height ≤ lqRemoveMaxAllocation) :
    ∃ e m₂ m', newHead i (fun _ => nullWord) m₁ = (e, m₂) ∧
      reverse e lqRemoveMaxAllocation p m₂ = some m' ∧ m₀.Filling cells m' ∧
      m.Spends cells (k + (3 + (4 * init.length + 7 * u.height))) m' ∧
      LqAt m'.words (m'.Closed cells) ⟨removeOldest u (init.reverse ++ [t]), []⟩ e := by
  obtain ⟨e, m₂, hentry, htook₂, hkeeps₂, he⟩ := newHead_spec (b := nullPtr) hf₁
    (htook₁.canAllocate (canAllocate_mono hcan (by omega))) hi (fun _ => nullWord) fun _ _ => rfl
  have hnext₂ : next m₂.words p = b := by
    rw [next, (hkeeps₂ _ hlive).2]
    exact hnext
  obtain ⟨m', a', hrun, hspends, he'⟩ := reverse_spec lqRemoveMaxAllocation he (by simp) hnext₂
    (hchain.keeps hkeeps₂) hperfect (htook₂.canAllocate (htook₁.canAllocate hcan)) hinit hheight
  have hkeeps := (htook₁.keeps cells).trans hkeeps₂
  obtain ⟨hf', hQ⟩ := he'.complete [] (removeOldest_ne_nil _ (by simp)) rfl
  refine ⟨e, m₂, m', hentry, hrun, hf', ⟨hspends.close hkeeps, ?_, ?_⟩, hQ⟩
  · have hptr₁ := htook₁.allocationPtr_eq
    have hptr₂ := htook₂.allocationPtr_eq
    have hptr := hspends.allocationPtr_le
    omega
  · exact hspends.firstGenerationEnd_eq.trans
      (htook₂.firstGenerationEnd_eq.trans htook₁.firstGenerationEnd_eq)

/-- The head is empty, and the tail has only one tree. -/
theorem removeTail_single (hf : m₀.Filling cells m) (hQ : EntryAt m.words (m.Closed cells) Q p a b)
    (htail : Q.tail = [t]) (hperfect : t.Perfect) (hcan : m.canAllocate (7 * t.height + 6))
    (hheight : t.height ≤ lqRemoveMaxAllocation) :
    Removes m₀ cells m (7 * t.height + 6) (removeTail m p) ⟨removeOldest t [], []⟩ := by
  obtain ⟨b', ht, hnull⟩ := htail ▸ hQ.tail
  obtain rfl : b' = nullPtr := hnull
  have htree : wordToPtr (m.words (p + 2)) = b := by rw [hQ.tail_word, wordToPtr_ptrToWord]
  have hb : m.words (p + 2) ≠ nullWord := by
    rw [hQ.tail_word, ne_eq, ptrToWord_eq_nullWord]
    exact ht.ne_null
  cases t with
  | single x =>
    have hcell : ItemCell m.words (m.Closed cells) b nullPtr nullPtr 0 x := ht
    refine ⟨nullPtr, m, ?_, hf, (Spends.refl m cells).mono (Nat.zero_le _), .inl ⟨rfl, rfl, rfl⟩⟩
    simp only [removeTail, assert_true hb, bind, Option.bind, htree,
      if_pos ((hcell.isType_iff .lqItem00).mpr rfl)]
  | node x l r =>
    obtain ⟨s, n, hcell, hsr, hsl⟩ := ht
    have hs := hsr.ne_null
    have hlr : l.height = r.height := hperfect.1
    have hwords : 7 * (SkewTree.node x l r).height + 6 = 2 + (3 + unpackWords r) + 5 := by
      simp only [unpackWords, SkewTree.height_node, hlr]
      omega
    rw [hwords] at hcan ⊢
    obtain ⟨i, m₁, e, m₂, m', hnew, htook, hentry, hrun, hf', hspends, hq⟩ := removeNode_spec [] []
      (b := nullPtr) .lqItem00 2 (fun words => [words (b + 1)])
      (fun _ => nullWord) hf hsr hsl hperfect rfl rfl rfl rfl
      (fun words hagree => by rw [hcell.read_item hagree]; rfl) (fun _ _ => rfl)
      (canAllocate_mono hcan (by omega)) hheight
    have hson : wordToPtr (m₁.words (b + 2)) = s := by
      rw [hcell.read_son hs htook.words, wordToPtr_ptrToWord]
    refine ⟨e, m', ?_, hf', hspends.mono (by omega), hq⟩
    simp only [removeTail, assert_true hb, bind, Option.bind, htree,
      if_neg (mt (hcell.isType_iff .lqItem00).mp (by simp [itemType, hs])),
      if_pos ((hcell.isType_iff .lqItem10).mpr (by simp [itemType, hs])), hcell.height_eq,
      assert_true (Nat.succ_pos l.height), hnew, hson, hentry, hrun]

/-- The head is empty, and the tail has several trees. -/
theorem removeTail_spec (hf : m₀.Filling cells m) (hQ : EntryAt m.words (m.Closed cells) Q p a b)
    (htail : Q.tail = t :: (init ++ [u])) (hperfect : u.Perfect)
    (hcan : m.canAllocate (4 * init.length + 7 * u.height + 6))
    (hinit : init.length < lqRemoveMaxAllocation) (hheight : u.height ≤ lqRemoveMaxAllocation) :
    Removes m₀ cells m (4 * init.length + 7 * u.height + 6) (removeTail m p)
      ⟨removeOldest u (init.reverse ++ [t]), []⟩ := by
  obtain ⟨b', ht, hrest⟩ := htail ▸ hQ.tail
  have hb' : b' ≠ nullPtr := mt hrest.eq_nullPtr_iff.mp (by simp)
  have htree : wordToPtr (m.words (p + 2)) = b := by rw [hQ.tail_word, wordToPtr_ptrToWord]
  have hb : m.words (p + 2) ≠ nullWord := by
    rw [hQ.tail_word, ne_eq, ptrToWord_eq_nullWord]
    exact ht.ne_null
  cases t with
  | single x =>
    have hcell : ItemCell m.words (m.Closed cells) b b' nullPtr 0 x := ht
    obtain ⟨i, m₁, hnew, hf₁, htook₁, hi⟩ := newItem_spec .lqItem00 2 0
      (fun words => [words (b + 1)]) nullPtr nullPtr x hf rfl rfl (canAllocate_mono hcan (by omega))
      (by decide) fun words hagree => by rw [hcell.read_item hagree]; rfl
    have hkeeps := htook₁.keeps cells
    have hcell₁ := hcell.frame hkeeps.agree hkeeps.closed
    obtain ⟨e, m₂, m', hentry, hrun, hf', hspends, hq⟩ := reverseTail_spec (t := .single x) hf₁
      htook₁ ⟨nullPtr, hi, rfl⟩ (by rw [next, hcell₁.brother hb', wordToPtr_ptrToWord])
      (hcell₁.cell 2 (by simp [itemLinks, hb'])) (hrest.keeps hkeeps) hperfect
      (canAllocate_mono hcan (by omega)) hinit hheight
    refine ⟨e, m', ?_, hf', hspends.mono (by omega), hq⟩
    simp only [removeTail, assert_true hb, bind, Option.bind, htree,
      if_neg (mt (hcell.isType_iff .lqItem00).mp (by simp [itemType, hb'])),
      if_neg (mt (hcell.isType_iff .lqItem10).mp (by simp [itemType, hb'])),
      if_pos ((hcell.isType_iff .lqItem01).mpr (by simp [itemType, hb'])), hnew, hentry, hrun]
  | node x l r =>
    obtain ⟨s, n, hcell, hsr, hsl⟩ := ht
    have hs := hsr.ne_null
    obtain ⟨i, m₁, hnew, hf₁, htook₁, hi⟩ := newItem_spec .lqItem10 3 (l.height + 1)
      (fun words => [words (b + 1), words (b + 3)]) nullPtr s x hf (by simp [itemType, hs])
      (by simp [itemLinks, hs]) (canAllocate_mono hcan (by omega)) hcell.height_lt
      fun words hagree => by
        rw [hcell.read_item hagree, hcell.read_son_of_brother hb' hs hagree]
        simp [itemLinks, hs]
    have hkeeps := htook₁.keeps cells
    have hcell₁ := hcell.frame hkeeps.agree hkeeps.closed
    obtain ⟨e, m₂, m', hentry, hrun, hf', hspends, hq⟩ := reverseTail_spec (t := .node x l r) hf₁
      htook₁ ⟨nullPtr, ⟨s, n, hi, hsr.keeps hkeeps, hsl.keeps hkeeps⟩, rfl⟩
      (by rw [next, hcell₁.brother hb', wordToPtr_ptrToWord])
      (hcell₁.cell 2 (by simp [itemLinks, hb'])) (hrest.keeps hkeeps) hperfect
      (canAllocate_mono hcan (by omega)) hinit hheight
    refine ⟨e, m', ?_, hf', hspends.mono (by omega), hq⟩
    simp only [removeTail, assert_true hb, bind, Option.bind, htree,
      if_neg (mt (hcell.isType_iff .lqItem00).mp (by simp [itemType, hb', hs])),
      if_neg (mt (hcell.isType_iff .lqItem10).mp (by simp [itemType, hb', hs])),
      if_neg (mt (hcell.isType_iff .lqItem01).mp (by simp [itemType, hb', hs])),
      assert_true ((hcell.isType_iff .lqItem11).mpr (by simp [itemType, hb', hs])),
      hcell.height_eq, assert_true (Nat.succ_pos l.height), hnew, hentry, hrun]

/-- The heights of the trees of a queue with at most `2 ^ 29` items are below this. -/
def lqHeight : Nat := 29

/-- `lq_remove_first`. -/
theorem lqRemoveFirst_spec (hf : m₀.Filling cells m) (hQ : LqAt m.words (m.Closed cells) Q p)
    (hord : Q.Ordered) (hheight : ∀ t, t ∈ Q.head ∨ t ∈ Q.tail → t.height < lqHeight)
    (hcan : m.canAllocate lqRemoveMaxAllocation) :
    Removes m₀ cells m lqRemoveMaxAllocation (lqRemoveFirst m p) Q.removeFirst := by
  have hmax : lqRemoveMaxAllocation = 375 := rfl
  have hlq : lqHeight = 29 := rfl
  rcases hQ with ⟨rfl, hhead, htail⟩ | ⟨a, b, hQ⟩
  · refine ⟨nullPtr, m, if_pos rfl, hf, (Spends.refl m cells).mono (Nat.zero_le _), .inl ?_⟩
    simp [SkewQueue.removeFirst, hhead, htail]
  have hremoves : ∀ {n r Q'}, n ≤ lqRemoveMaxAllocation → Removes m₀ cells m n r Q' →
      Removes m₀ cells m lqRemoveMaxAllocation r Q' :=
    fun hn ⟨q, m', hrun, hf', hspends, hq⟩ => ⟨q, m', hrun, hf', hspends.mono hn, hq⟩
  cases hhead : Q.head with
  | cons t head =>
    have ha : m.words (p + 1) ≠ nullWord := by
      rw [hQ.head_word, ne_eq, ptrToWord_eq_nullWord]
      exact mt hQ.head.eq_nullPtr_iff.mp (by simp [hhead])
    have hmem : t ∈ Q.head := hhead ▸ List.mem_cons_self
    have hlt := hheight t (.inl hmem)
    rw [lqRemoveFirst, if_neg hQ.ne_null, if_pos ha, SkewQueue.removeFirst, hhead]
    exact hremoves (by omega) (removeHead_spec hf hQ hhead (hord.head t hmem)
      (canAllocate_mono hcan (by omega)) (by omega))
  | nil =>
    have ha : ¬ m.words (p + 1) ≠ nullWord := by
      rw [hQ.head_word, not_not, ptrToWord_eq_nullWord]
      exact hQ.head.eq_nullPtr_iff.mpr hhead
    have hlength := hord.skew.length_le fun t ht => hheight t (.inr ht)
    rw [lqRemoveFirst, if_neg hQ.ne_null, if_neg ha, SkewQueue.removeFirst, hhead]
    cases htail : Q.tail with
    | nil => exact absurd htail (hQ.nonempty.resolve_left fun hne => hne hhead)
    | cons t ts =>
      rcases List.eq_nil_or_concat ts with rfl | ⟨init, u, rfl⟩
      · have hmem : t ∈ Q.tail := htail ▸ List.mem_cons_self
        have hlt := hheight t (.inr hmem)
        exact hremoves (by omega) (removeTail_single hf hQ htail (hord.tail t hmem)
          (canAllocate_mono hcan (by omega)) (by omega))
      · rw [List.concat_eq_append] at htail ⊢
        have hmem : u ∈ Q.tail := by simp [htail]
        have hlt := hheight u (.inr hmem)
        rw [htail, List.length_cons, List.length_append, List.length_singleton] at hlength
        have hspec := removeTail_spec hf hQ htail (hord.tail u hmem)
          (canAllocate_mono hcan (by omega)) (by omega) (by omega)
        simpa using hremoves (by omega) hspec

end Shades
