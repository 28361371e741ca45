import Shades.Shtring.CreateCode

/-!
# Shades.Shtring.Forest

What `build_tree` allocates and what `shtring_tree_size` computes, for chunks of at
most `chunkMax` bytes, the value of `SHTRING_CHUNK_MAX`.  `build_tree` fills the
trees of each level from the left, so only the trees at the right edge have less
than `treeBytes` bytes, and what it allocates for `n` bytes is the same as for trees
of that height side by side: `treesWords`.
-/

namespace Shades

/-! ## counting blocks -/

/-- The number of blocks of `b` items for `n` items. -/
def blockCount (n b : Nat) : Nat := (n + b - 1) / b

section blocks

variable {n b : Nat}

theorem shtringIdiv_eq (hn : n + b < 2 ^ 32) (hb : 0 < b) : shtringIdiv n b = blockCount n b := by
  rw [shtringIdiv, add32_of_lt hn, sub32_of_le (by omega) hn, blockCount]

@[simp] theorem blockCount_zero (hb : 0 < b) : blockCount 0 b = 0 := by
  unfold blockCount
  exact Nat.div_eq_of_lt (by omega)

theorem blockCount_of_pos (hn : 0 < n) (hb : 0 < b) : blockCount n b = (n - 1) / b + 1 := by
  rw [blockCount, show n + b - 1 = n - 1 + b by omega, Nat.add_div_right _ hb]

theorem blockCount_add {x : Nat} (hx : b ∣ x) (hb : 0 < b) (n : Nat) :
    blockCount (x + n) b = blockCount x b + blockCount n b := by
  obtain ⟨k, rfl⟩ := hx
  have hmul : blockCount (b * k) b = k := by
    rw [blockCount, Nat.add_sub_assoc hb, Nat.mul_add_div hb, Nat.div_eq_of_lt (by omega),
      Nat.add_zero]
  rw [hmul, blockCount, Nat.add_assoc, Nat.add_sub_assoc (by omega), Nat.mul_add_div hb, blockCount]

theorem blockCount_eq_one (hn : 0 < n) (hle : n ≤ b) : blockCount n b = 1 := by
  rw [blockCount_of_pos hn (by omega), Nat.div_eq_of_lt (by omega)]

/-- Blocks of blocks. -/
theorem blockCount_blockCount {c : Nat} (hb : 0 < b) (hc : 0 < c) :
    blockCount (blockCount n b) c = blockCount n (b * c) := by
  rcases Nat.eq_zero_or_pos n with rfl | hn
  · rw [blockCount_zero hb, blockCount_zero hc, blockCount_zero (Nat.mul_pos hb hc)]
  · rw [blockCount_of_pos hn hb, blockCount_of_pos (Nat.add_pos_right _ Nat.one_pos) hc,
      blockCount_of_pos hn (Nat.mul_pos hb hc), Nat.add_sub_cancel, Nat.div_div_eq_div_mul]

theorem blockCount_le {k : Nat} (hb : 0 < b) (h : n ≤ k * b) : blockCount n b ≤ k := by
  rcases Nat.eq_zero_or_pos n with rfl | hn
  · rw [blockCount_zero hb]
    exact Nat.zero_le _
  · rw [blockCount_of_pos hn hb]
    exact (Nat.div_lt_iff_lt_mul hb).mpr (by omega)

theorem blockCount_mono {k : Nat} (h : n ≤ k) : blockCount n b ≤ blockCount k b :=
  Nat.div_le_div_right (by omega)

theorem le_of_blockCount_le_one (hb : 0 < b) (h : blockCount n b ≤ 1) : n ≤ b := by
  rcases Nat.eq_zero_or_pos n with rfl | hn
  · exact Nat.zero_le _
  · rw [blockCount_of_pos hn hb] at h
    have hlt := (Nat.div_eq_zero_iff_lt hb).mp (Nat.le_zero.mp (Nat.le_of_succ_le_succ h))
    omega

end blocks

/-! ## the words of the trees -/

/-- The bytes below a full tree of the height `h`. -/
def treeBytes (chunkMax h : Nat) : Nat := chunkMax * maxShtringNodeChildren ^ (h - 1)

/-- The words of trees of the height `h` side by side for `n` bytes. -/
def treesWords (chunkMax : Nat) : Nat → Nat → Nat
  | 0, _ => 0
  | 1, n => blockCount n 4 + blockCount n chunkMax
  | h + 2, n => treesWords chunkMax (h + 1) n +
    (blockCount n (treeBytes chunkMax (h + 1)) + 3 * blockCount n (treeBytes chunkMax (h + 2)))

section words

variable {c : Nat}

theorem treeBytes_pos (hc : 0 < c) (h : Nat) : 0 < treeBytes c h :=
  Nat.mul_pos hc (Nat.pow_pos (by decide))

theorem treeBytes_one (c : Nat) : treeBytes c 1 = c := by simp [treeBytes]

theorem treeBytes_succ (c h : Nat) :
    treeBytes c (h + 2) = treeBytes c (h + 1) * maxShtringNodeChildren := by
  simp [treeBytes, Nat.pow_succ, Nat.mul_assoc]

theorem treesWords_zero (hc : 0 < c) (h : Nat) : treesWords c h 0 = 0 := by
  induction h with
  | zero => rfl
  | succ h ih =>
    cases h with
    | zero => simp [treesWords, hc]
    | succ h => simp [treesWords, ih, treeBytes_pos hc]

theorem treesWords_mono {n k : Nat} (h : Nat) (hle : n ≤ k) :
    treesWords c h n ≤ treesWords c h k := by
  induction h with
  | zero => exact Nat.le_refl _
  | succ h ih =>
    cases h with
    | zero => exact Nat.add_le_add (blockCount_mono hle) (blockCount_mono hle)
    | succ h =>
      exact Nat.add_le_add ih (Nat.add_le_add (blockCount_mono hle)
        (Nat.mul_le_mul_left 3 (blockCount_mono hle)))

/-- Lower trees take no more words. -/
theorem treesWords_le {h k : Nat} (hle : h ≤ k) (n : Nat) :
    treesWords c h n ≤ treesWords c k n := by
  induction hle with
  | refl => exact Nat.le_refl _
  | @step k hle ih =>
    refine Nat.le_trans ih ?_
    cases k with
    | zero => exact Nat.zero_le _
    | succ k => exact Nat.le_add_right _ _

/-- One tree: its root and the trees below, which fit in a node. -/
theorem treesWords_node (hc : 0 < c) {h n : Nat} (hpos : 0 < n) (hle : n ≤ treeBytes c (h + 2)) :
    treesWords c (h + 2) n =
      treesWords c (h + 1) n + (3 + blockCount n (treeBytes c (h + 1))) ∧
    0 < blockCount n (treeBytes c (h + 1)) ∧
    blockCount n (treeBytes c (h + 1)) ≤ maxShtringNodeChildren := by
  have hcap := treeBytes_pos hc (h + 1)
  refine ⟨?_, ?_, blockCount_le hcap ?_⟩
  · simp only [treesWords, blockCount_eq_one hpos hle]
    omega
  · rw [blockCount_of_pos hpos hcap]
    exact Nat.succ_pos _
  · rwa [Nat.mul_comm, ← treeBytes_succ]

/-- Full trees in front. -/
theorem treesWords_add (hc : 0 < c) (hfour : 4 ∣ c) {h x : Nat} (hx : treeBytes c h ∣ x)
    (n : Nat) : treesWords c h (x + n) = treesWords c h x + treesWords c h n := by
  induction h with
  | zero => rfl
  | succ h ih =>
    cases h with
    | zero =>
      have hchunk : c ∣ x := by rwa [treeBytes_one] at hx
      simp only [treesWords, blockCount_add (Nat.dvd_trans hfour hchunk) (show 0 < 4 by decide),
        blockCount_add hchunk hc]
      omega
    | succ h =>
      have hupper : treeBytes c (h + 2) ∣ x := hx
      have hlower : treeBytes c (h + 1) ∣ x :=
        Nat.dvd_trans ⟨maxShtringNodeChildren, treeBytes_succ c h⟩ hupper
      simp only [treesWords, ih hlower, blockCount_add hlower (treeBytes_pos hc _),
        blockCount_add hupper (treeBytes_pos hc _)]
      omega

/-- The first tree and the others. -/
theorem treesWords_split (hc : 0 < c) (hfour : 4 ∣ c) (h k n : Nat) :
    treesWords c h (min n ((k + 1) * treeBytes c h)) =
      treesWords c h (min n (treeBytes c h)) +
        treesWords c h (min (n - treeBytes c h) (k * treeBytes c h)) ∧
    blockCount (min n ((k + 1) * treeBytes c h)) (treeBytes c h) =
      blockCount (min n (treeBytes c h)) (treeBytes c h) +
        blockCount (min (n - treeBytes c h) (k * treeBytes c h)) (treeBytes c h) := by
  have hpos := treeBytes_pos hc h
  rw [Nat.add_mul, Nat.one_mul]
  rcases Nat.le_total n (treeBytes c h) with hle | hle
  · rw [Nat.min_eq_left hle, Nat.min_eq_left (by omega), Nat.sub_eq_zero_of_le hle, Nat.zero_min,
      treesWords_zero hc, blockCount_zero hpos]
    exact ⟨rfl, rfl⟩
  · have hsplit : min n (k * treeBytes c h + treeBytes c h) =
        treeBytes c h + min (n - treeBytes c h) (k * treeBytes c h) := by omega
    rw [hsplit, Nat.min_eq_right hle, treesWords_add hc hfour (Nat.dvd_refl _),
      blockCount_add (Nat.dvd_refl _) hpos]
    exact ⟨rfl, rfl⟩

end words

/-! ## the size of a tree -/

theorem treeSizeLoop_done {i : Nat} (hi : ¬ 1 < i) (h words : Nat) :
    treeSizeLoop i h words = (h, words) := by
  rw [treeSizeLoop, dif_neg hi]

section size

variable {c : Nat}

/-- The loop of `shtring_tree_size` goes up to the first height at which one tree is
enough. -/
theorem treeSizeLoop_spec (hc : 0 < c) {n h i words : Nat} (hh : 0 < h)
    (hi : i = blockCount n (treeBytes c h)) (hwords : words = treesWords c h n)
    (hfit : words + 5 * i + 16 < 2 ^ 32) (hsum : h + i < 2 ^ 32) :
    ∃ h', treeSizeLoop i h words = (h', treesWords c h' n) ∧ 0 < h' ∧ n ≤ treeBytes c h' ∧
      (∀ k, h ≤ k → k < h' → treeBytes c k < n) ∧
      treesWords c h' n + shtringWords < 2 ^ 32 := by
  induction i using Nat.strong_induction_on generalizing h words with
  | _ i ih =>
    by_cases hlt : 1 < i
    · rw [treeSizeLoop, dif_pos hlt]
      obtain ⟨h, rfl⟩ : ∃ k, h = k + 1 := ⟨h - 1, by omega⟩
      have hdiv : shtringIdiv i maxShtringNodeChildren = (i + 7) / 8 :=
        shtringIdiv_eq (show i + 8 < 2 ^ 32 by omega) (by decide)
      have hnext : (i + 7) / 8 = blockCount n (treeBytes c (h + 2)) := by
        rw [treeBytes_succ, ← blockCount_blockCount (treeBytes_pos hc _) (by decide), ← hi]
        rfl
      have hnextWords : words + (i + (i + 7) / 8 * 3) = treesWords c (h + 2) n := by
        rw [treesWords, ← hwords, ← hi, ← hnext, Nat.mul_comm 3]
      simp only
      rw [hdiv, add32_of_lt (show i + (i + 7) / 8 * 3 < 2 ^ 32 by omega),
        add32_of_lt (show words + (i + (i + 7) / 8 * 3) < 2 ^ 32 by omega),
        add32_of_lt (show h + 1 + 1 < 2 ^ 32 by omega)]
      obtain ⟨h', hloop, hh', hle, hleast, hlt'⟩ := ih ((i + 7) / 8) (by omega)
        (Nat.succ_pos (h + 1)) hnext hnextWords (by omega) (by omega)
      refine ⟨h', hloop, hh', hle, fun k hk hk' => ?_, hlt'⟩
      rcases Nat.eq_or_lt_of_le hk with rfl | hk
      · by_contra hge
        have := blockCount_le (treeBytes_pos hc (h + 1)) (show n ≤ 1 * treeBytes c (h + 1) by omega)
        omega
      · exact hleast k hk hk'
    · rw [treeSizeLoop_done hlt]
      refine ⟨h, by rw [hwords], hh, le_of_blockCount_le_one (treeBytes_pos hc h) (by omega),
        fun k hk hk' => absurd hk (by omega), ?_⟩
      unfold shtringWords
      omega

/-- The words of the chunks, and room for the words of the nodes. -/
theorem treesWords_one_lt (hc : 4 ≤ c) {n : Nat} (hfit : n < 2 ^ 31) :
    treesWords c 1 n + 5 * blockCount n (treeBytes c 1) + 16 < 2 ^ 32 := by
  have hfour : blockCount n 4 ≤ 2 ^ 29 := blockCount_le (by decide) (by omega)
  have hchunks : blockCount n c ≤ 2 ^ 29 := blockCount_le (by omega) (by
    have := Nat.mul_le_mul_left (2 ^ 29) hc
    omega)
  rw [treesWords, treeBytes_one]
  omega

/-- `shtring_tree_size`: the least height for which one tree is enough, and the words
of that tree and of the shtring. -/
theorem shtringTreeSizeOf_spec (hc : 4 ≤ c) (hmax : c ≤ 2 ^ 31) {n : Nat} (hn : 0 < n)
    (hfit : n < 2 ^ 31) :
    ∃ h, shtringTreeSizeOf c n = (h, treesWords c h n + shtringWords) ∧ 0 < h ∧
      n ≤ treeBytes c h ∧ ∀ k, 0 < k → k < h → treeBytes c k < n := by
  have hpos : 0 < c := by omega
  have hchunks : shtringIdiv n c = blockCount n (treeBytes c 1) := by
    rw [treeBytes_one]
    exact shtringIdiv_eq (by omega) hpos
  have hbytes : shtringIdiv n 4 = blockCount n 4 := shtringIdiv_eq (by omega) (by decide)
  have hbound := treesWords_one_lt hc hfit
  have hsum : add32 (blockCount n 4) (blockCount n (treeBytes c 1)) = treesWords c 1 n := by
    rw [treesWords, treeBytes_one] at *
    exact add32_of_lt (by omega)
  have hone : (if 0 < blockCount n (treeBytes c 1) then 1 else 0) = 1 := by
    rw [blockCount_of_pos hn (treeBytes_pos hpos 1)]
    exact if_pos (Nat.succ_pos _)
  have hsmall : blockCount n (treeBytes c 1) ≤ n :=
    blockCount_le (treeBytes_pos hpos 1) (Nat.le_mul_of_pos_right _ (treeBytes_pos hpos 1))
  obtain ⟨h, hloop, hh, hle, hleast, hlt⟩ := treeSizeLoop_spec hpos Nat.one_pos
    (show blockCount n (treeBytes c 1) = _ from rfl) rfl hbound (by omega)
  refine ⟨h, ?_, hh, hle, fun k hk => hleast k hk⟩
  simp only [shtringTreeSizeOf, hchunks, hbytes, hone, hsum, hloop, add32_of_lt hlt]

theorem shtringTreeSizeOf_zero (hc : 0 < c) (hmax : c ≤ 2 ^ 31) :
    shtringTreeSizeOf c 0 = (0, shtringWords) := by
  have hchunks : shtringIdiv 0 c = 0 := by rw [shtringIdiv_eq (by omega) hc, blockCount_zero hc]
  have hfour : shtringIdiv 0 4 = 0 := by decide
  simp only [shtringTreeSizeOf, hchunks, hfour, if_neg (Nat.lt_irrefl 0),
    treeSizeLoop_done (show ¬ 1 < 0 by decide)]
  decide

/-- A longer array takes no fewer words. -/
theorem shtringTreeSizeOf_mono (hc : 4 ≤ c) (hmax : c ≤ 2 ^ 31) {n k : Nat} (hle : n ≤ k)
    (hfit : k < 2 ^ 31) : (shtringTreeSizeOf c n).2 ≤ (shtringTreeSizeOf c k).2 := by
  rcases Nat.eq_zero_or_pos k with rfl | hk
  · rw [Nat.le_zero.mp hle]
  obtain ⟨h', hsize', hh', hle', -⟩ := shtringTreeSizeOf_spec hc hmax hk hfit
  rcases Nat.eq_zero_or_pos n with rfl | hn
  · rw [shtringTreeSizeOf_zero (by omega) hmax, hsize']
    exact Nat.le_add_left _ _
  · obtain ⟨h, hsize, hh, hle'', hleast⟩ := shtringTreeSizeOf_spec hc hmax hn (by omega)
    have hheight : h ≤ h' := by
      by_contra hlt
      have := hleast h' hh' (by omega)
      omega
    rw [hsize, hsize']
    exact Nat.add_le_add_right (Nat.le_trans (treesWords_mono h hle) (treesWords_le hheight k)) _

end size

end Shades
