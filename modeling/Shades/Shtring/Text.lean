import Shades.Shtring.Monkey

/-!
# Shades.Shtring.Text

What the reading operations compute: `shtring_strat` copies the text asked for,
`shtring_cmp_without_allocating` compares two texts, and `shtring_hash` folds
over the text, provided that no part of a chunk that is visited starts within a
word in a way that `hash_chunk` counts wrongly.
-/

namespace Shades

/-! ## bytes -/

theorem lshift32_lshift32 (w a b : Nat) : lshift32 (lshift32 w a) b = lshift32 w (a + b) := by
  rw [lshift32_eq, lshift32_eq, lshift32_eq, Nat.mod_mul_mod, Nat.mul_assoc, ← Nat.pow_add]

/-- The uppermost byte of a word that was shifted. -/
theorem top_byte_lshift32 {w o : Nat} (ho : o < 4) :
    (lshift32 w (8 * o) >>> 24) &&& 0xFF = wordByte w o := by
  have hmask : (0xFF : Nat) = 2 ^ 8 - 1 := rfl
  unfold wordByte
  rw [hmask, and_mask, and_mask, Nat.shiftRight_eq_div_pow, Nat.shiftRight_eq_div_pow, lshift32_eq]
  rcases (by omega : o = 0 ∨ o = 1 ∨ o = 2 ∨ o = 3) with rfl | rfl | rfl | rfl <;> omega

/-- The upper bytes of a word that was shifted. -/
theorem copyUpper_lshift32 {w o n : Nat} (h : o + n ≤ 4) :
    copyUpper n (lshift32 w (8 * o)) = (List.range' o n).map (wordByte w) := by
  induction n generalizing o with
  | zero => rfl
  | succ n ih =>
    rw [copyUpper, top_byte_lshift32 (by omega), lshift32_lshift32, List.range'_succ, List.map_cons,
      show 8 * o + 8 = 8 * (o + 1) by omega, ih (by omega)]

/-- The upper bytes of a word. -/
theorem copyUpper_eq {w n : Nat} (h : n ≤ 4) :
    copyUpper n w = (List.range n).map (wordByte w) := by
  cases n with
  | zero => rfl
  | succ n =>
    have htop : (w >>> 24) &&& 0xFF = wordByte w 0 := rfl
    have hrest := copyUpper_lshift32 (w := w) (o := 1) (n := n) (by omega)
    rw [copyUpper, htop, List.range_succ_eq_map, List.map_cons]
    exact congrArg _ (hrest.trans (by rw [List.range'_eq_map_range, List.map_map, List.map_map]
                                      exact List.map_congr_left fun i _ => by simp [Nat.add_comm]))

/-! ## copying a chunk -/

/-- Bytes of one word. -/
theorem chunkBytes_word (words : Nat → Nat) (p k o n : Nat) (h : o + n ≤ 4) :
    chunkBytes words p (4 * k + o) n = (List.range' o n).map (wordByte (words (p + 1 + k))) := by
  unfold chunkBytes
  rw [List.range'_eq_map_range, List.range'_eq_map_range, List.map_map, List.map_map]
  refine List.map_congr_left fun i hi => ?_
  have hi := List.mem_range.mp hi
  simp only [Function.comp_apply]
  rw [show (4 * k + o + i) / 4 = k by omega, show (4 * k + o + i) % 4 = o + i by omega]

theorem copyWords_eq (words : Nat → Nat) (p k n : Nat) :
    copyWords words n (p + 1 + k) = chunkBytes words p (4 * k) (4 * n) := by
  induction n generalizing k with
  | zero => rfl
  | succ n ih =>
    have hword : chunkBytes words p (4 * k) 4 = (List.range' 0 4).map (wordByte (words (p + 1 + k))) :=
      chunkBytes_word words p k 0 4 (by omega)
    rw [copyWords, Nat.add_assoc (p + 1), ih, show 4 * (n + 1) = 4 + 4 * n by omega,
      ← chunkBytes_append, hword, show 4 * (k + 1) = 4 * k + 4 by omega]
    rfl

/-- What `copy_chunk_to_cstr` copies. -/
theorem copyChunkToCstr_eq (words : Nat → Nat) (p start len : Nat) :
    copyChunkToCstr words p start len = chunkBytes words p start len := by
  -- whole words and the upper bytes of the last one
  have haligned : ∀ k n, copyWords words (n / 4) (p + 1 + k) ++
      copyUpper (n % 4) (words (p + 1 + k + n / 4)) = chunkBytes words p (4 * k) n := by
    intro k n
    have hupper : chunkBytes words p (4 * k + 4 * (n / 4)) (n % 4) =
        copyUpper (n % 4) (words (p + 1 + (k + n / 4))) := by
      rw [copyUpper_eq (by omega), ← Nat.mul_add]
      have := chunkBytes_word words p (k + n / 4) 0 (n % 4) (by omega)
      rw [Nat.add_zero, ← List.range_eq_range'] at this
      exact this
    rw [copyWords_eq, Nat.add_assoc (p + 1), ← hupper, chunkBytes_append]
    congr 1
    omega
  unfold copyChunkToCstr
  by_cases hoff : 0 < start % 4
  · have hfirst : (((List.range 4).map (wordByte (words (p + 1 + start / 4)))).drop (start % 4)).take len =
        chunkBytes words p start (min len (4 - start % 4)) := by
      have hword := chunkBytes_word words p (start / 4) (start % 4)
        (min len (4 - start % 4)) (by omega)
      rw [Nat.div_add_mod] at hword
      rw [hword, ← List.map_drop, ← List.map_take, List.range_eq_range',
        List.drop_range', Nat.zero_add, Nat.mul_one]
      rcases Nat.le_total len (4 - start % 4) with h | h
      · rw [Nat.min_eq_left h, List.take_range'_of_length_ge h]
      · rw [Nat.min_eq_right h, List.take_range'_of_length_le h]
    simp only [if_pos hoff, hfirst, length_chunkBytes]
    rw [List.append_assoc, show p + 1 + start / 4 + 1 = p + 1 + (start / 4 + 1) by omega, haligned]
    by_cases hshort : len ≤ 4 - start % 4
    · rw [Nat.min_eq_left hshort, Nat.sub_self]
      simp [chunkBytes]
    · rw [Nat.min_eq_right (by omega), show 4 * (start / 4 + 1) = start + (4 - start % 4) by omega,
        chunkBytes_append]
      congr 1
      omega
  · simp only [if_neg hoff, List.nil_append, List.length_nil, Nat.sub_zero]
    rw [haligned]
    congr 1
    omega

/-! ## copying text -/

section text

variable {words : Nat → Nat} {S : Nat → Prop} {p off len : Nat} {chunks : List Chunk}

theorem foldl_append_byte (bytes buf : List Nat) :
    bytes.foldl (fun buf b => buf ++ [b]) buf = buf ++ bytes := by
  induction bytes generalizing buf with
  | nil => simp
  | cons b bytes ih => simp [ih]

/-- `shtring_monkey` over the tree of a shtring, which may be empty. -/
theorem ShtringAt.monkey {α : Type} {f : Nat → Nat → Nat → Nat → α → Int × α} (start n : Nat)
    (arg : α) (hs : ShtringAt words S p chunks off len) (hf : ∀ c o t l a, (f c o t l a).1 ≠ -1)
    (hwindow : start + n < 2 ^ 32) :
    ∃ ret pos, shtringMonkey words f .leftToRight start n (shtringHeight words p + 1)
        (shtringChunkTree words p) shtringMonkeyStartPos arg =
      some (ret, pos, visitChunks f start n chunks 0 arg) := by
  rcases hs.tree with ⟨hheight, hnull, rfl⟩ | ht
  · rw [hheight, hnull, shtringMonkey, if_pos rfl]
    exact ⟨_, _, rfl⟩
  · obtain ⟨ret, hret⟩ := shtringMonkey_start arg hf ht hwindow hs.fit
    exact ⟨ret, _, hret⟩

theorem ShtringAt.chunkAt (hs : ShtringAt words S p chunks off len) :
    ∀ c ∈ chunks, ChunkAt words S c.1 c.2 := by
  rcases hs.tree with ⟨-, -, rfl⟩ | ht
  · intro c hc
    cases hc
  · exact ht.chunkAt

/-- `shtring_strat` copies the text asked for. -/
theorem shtringStrat_eq {pos n : Nat} (hs : ShtringAt words S p chunks off len)
    (hn : pos + n ≤ len) :
    shtringStrat words p pos n = some (windowText chunks (off + pos) n) := by
  have hwindow := hs.window
  have hfit := hs.fit
  have hchunks : ∀ c ∈ chunks, ∀ o t l (buf : List Nat), o + l ≤ c.2.length → True →
      (collectString words c.1 o t l buf).2 =
        ((c.2.drop o).take l).foldl (fun buf b => buf ++ [b]) buf := by
    intro c hc o t l buf hle _
    rw [collectString, copyChunkToCstr_eq, (hs.chunkAt c hc).chunkBytes_eq hle,
      foldl_append_byte]
  obtain ⟨ret, pos', hret⟩ := hs.monkey (off + pos) n []
    (fun _ _ _ _ _ => by simp [collectString] : ∀ c o t l a, (collectString words c o t l a).1 ≠ -1)
    (by omega)
  have hvisit := visitChunks_fold hchunks 0 [] (visitedParts_true (off + pos) n chunks 0)
  have hlength : (((textOf chunks).drop (off + pos)).take n).length = n := by
    rw [List.length_take, List.length_drop]
    omega
  unfold shtringStrat
  rw [hs.offset, add32_of_lt (by omega), hret, hvisit, foldl_append_byte, List.nil_append,
    Nat.sub_zero, Nat.max_eq_right (Nat.zero_le _), Nat.add_sub_cancel_left]
  simp only [Option.bind_eq_bind, Option.bind_some, assert_true hlength, windowText]

/-- The text of a shtring is determined by the memory. -/
theorem ShtringAt.text_unique {S' : Nat → Prop} {chunks' : List Chunk} {off' len' : Nat}
    (hs : ShtringAt words S p chunks off len) (hs' : ShtringAt words S' p chunks' off' len') :
    windowText chunks off len = windowText chunks' off' len' := by
  obtain rfl : len = len' := hs.length.symm.trans hs'.length
  have h := shtringStrat_eq hs (Nat.zero_add len).le
  rw [shtringStrat_eq hs' (Nat.zero_add len).le] at h
  exact (Option.some.inj h).symm

/-! ## comparing -/

/-- The order of two texts. -/
def textCmp (t₁ t₂ : List Nat) : CmpResult :=
  if t₁ < t₂ then .less else if t₂ < t₁ then .greater else .equal

theorem textCmp_eq_equal (t₁ t₂ : List Nat) : textCmp t₁ t₂ = .equal ↔ t₁ = t₂ := by
  unfold textCmp
  split
  · case isTrue h => exact ⟨nofun, fun heq => absurd (heq ▸ h) (List.lt_irrefl _)⟩
  · case isFalse h =>
    split
    · case isTrue h' => exact ⟨nofun, fun heq => absurd (heq ▸ h') (List.lt_irrefl _)⟩
    · case isFalse h' => exact ⟨fun _ => List.le_antisymm h' h, fun _ => rfl⟩

/-- Blocks that differ decide the order. -/
theorem append_lt_append_of_lt {b₁ b₂ : List Nat} (hlen : b₁.length = b₂.length) (h : b₁ < b₂)
    (r₁ r₂ : List Nat) : b₁ ++ r₁ < b₂ ++ r₂ := by
  induction b₁ generalizing b₂ with
  | nil =>
    obtain rfl := List.length_eq_zero_iff.mp hlen.symm
    exact absurd h (List.lt_irrefl _)
  | cons x b₁ ih =>
    obtain _ | ⟨y, b₂⟩ := b₂
    · cases hlen
    rw [List.cons_append, List.cons_append, List.cons_lt_cons_iff]
    rcases List.cons_lt_cons_iff.mp h with hxy | ⟨rfl, hlt⟩
    · exact .inl hxy
    · exact .inr ⟨rfl, ih (Nat.succ.inj hlen) hlt⟩

/-- A common beginning does not matter. -/
theorem append_lt_append_iff (b r₁ r₂ : List Nat) : b ++ r₁ < b ++ r₂ ↔ r₁ < r₂ := by
  induction b with
  | nil => rfl
  | cons x b ih => simp [ih]

theorem textCmp_append (b r₁ r₂ : List Nat) : textCmp (b ++ r₁) (b ++ r₂) = textCmp r₁ r₂ := by
  simp only [textCmp, append_lt_append_iff]

theorem textCmp_nil_left {r : List Nat} (h : r ≠ []) : textCmp [] r = .less := by
  obtain ⟨x, r, rfl⟩ := List.exists_cons_of_ne_nil h
  exact if_pos (List.nil_lt_cons x r)

theorem textCmp_nil_right {r : List Nat} (h : r ≠ []) : textCmp r [] = .greater := by
  obtain ⟨x, r, rfl⟩ := List.exists_cons_of_ne_nil h
  rw [textCmp, if_neg (List.not_lt_nil _), if_pos (List.nil_lt_cons x r)]

/-- The text of a window is as long as the window. -/
theorem length_windowText {chunks : List Chunk} {off len : Nat}
    (h : off + len ≤ (textOf chunks).length) : (windowText chunks off len).length = len := by
  rw [windowText, List.length_take, List.length_drop]
  omega

/-- A part of the text of a window, and the rest. -/
theorem drop_windowText {chunks : List Chunk} {off len pos n : Nat} (hn : pos + n ≤ len) :
    (windowText chunks off len).drop pos =
      windowText chunks (off + pos) n ++ (windowText chunks off len).drop (pos + n) := by
  have hpart : ((windowText chunks off len).drop pos).take n = windowText chunks (off + pos) n := by
    unfold windowText
    rw [List.drop_take, List.take_take, List.drop_drop, Nat.min_eq_left (by omega)]
  rw [← List.drop_drop, ← hpart, List.take_append_drop]

section cmp

variable {words : Nat → Nat} {S₁ S₂ : Nat → Prop} {p₁ p₂ off₁ off₂ len₁ len₂ : Nat}
  {chunks₁ chunks₂ : List Chunk}

/-- The last multiple of `CMP_BUF` in a word: the sum with `CMP_BUF` does not fit. -/
def cmpLimit : Nat := 2 ^ 32 - 4096

/-- Up to the limit two texts from a position on consist of a block of each and of
the texts from the next position on. -/
theorem take_limit_drop {chunks : List Chunk} {off len pos n : Nat} (hn : pos + n ≤ len)
    (hlimit : pos + n ≤ cmpLimit) (hblock : (windowText chunks (off + pos) n).length = n) :
    ((windowText chunks off len).drop pos).take (cmpLimit - pos) =
      windowText chunks (off + pos) n ++
        ((windowText chunks off len).drop (pos + n)).take (cmpLimit - (pos + n)) := by
  rw [drop_windowText hn, List.take_append, List.take_of_length_le (by omega), hblock, Nat.sub_sub]

/-- The loop of `shtring_cmp_without_allocating`, where the texts end or differ
before the limit.  The position is a multiple of `CMP_BUF` until the last block, so
that the sum with `CMP_BUF` fits a word. -/
theorem cmpLoop_eq (hs₁ : ShtringAt words S₁ p₁ chunks₁ off₁ len₁)
    (hs₂ : ShtringAt words S₂ p₂ chunks₂ off₂ len₂) {len : Nat} (hlen : len = min len₁ len₂) :
    ∀ {fuel n pos : Nat}, pos ≤ len → (pos < len → n = cmpBuf ∧ pos % cmpBuf = 0) →
      (len ≤ cmpLimit ∨ pos ≤ cmpLimit ∧
        ((windowText chunks₁ off₁ len₁).drop pos).take (cmpLimit - pos) ≠
          ((windowText chunks₂ off₂ len₂).drop pos).take (cmpLimit - pos)) →
      (len - pos + cmpBuf - 1) / cmpBuf < fuel →
      cmpLoop words p₁ p₂ len fuel n pos =
        some (textCmp ((windowText chunks₁ off₁ len₁).drop pos)
          ((windowText chunks₂ off₂ len₂).drop pos)) := by
  intro fuel
  induction fuel with
  | zero => exact fun _ _ _ h => absurd h (Nat.not_lt_zero _)
  | succ fuel ih =>
    intro n pos hpos hn hok hfuel
    have hlen₁ := length_windowText hs₁.window
    have hlen₂ := length_windowText hs₂.window
    have hfit : len < 2 ^ 32 := by
      have := hs₁.window
      have := hs₁.fit
      omega
    rw [cmpLoop]
    by_cases hlt : pos < len
    · obtain ⟨rfl, hmod⟩ := hn hlt
      have hroom : len ≤ cmpLimit ∨ pos + cmpBuf ≤ cmpLimit := by
        refine hok.imp_right fun hok => ?_
        have hne : pos ≠ cmpLimit := by
          rintro rfl
          exact hok.2 (by rw [Nat.sub_self, List.take_zero, List.take_zero])
        have := hok.1
        unfold cmpBuf at hmod
        unfold cmpBuf cmpLimit at *
        omega
      unfold cmpLimit cmpBuf at hroom
      unfold cmpBuf at hmod hfuel ⊢
      have hsum : add32 pos 10240 = pos + 10240 := add32_of_lt (by omega)
      rw [if_pos hlt, hsum, sub32_of_le hpos (by omega)]
      generalize hblock : (if len < pos + 10240 then len - pos else 10240) = n
      have hle : pos + n ≤ len := by
        split at hblock <;> omega
      have hle₁ : pos + n ≤ len₁ := hle.trans (hlen ▸ Nat.min_le_left _ _)
      have hle₂ : pos + n ≤ len₂ := hle.trans (hlen ▸ Nat.min_le_right _ _)
      have hnext : pos + n < len → n = cmpBuf ∧ (pos + n) % cmpBuf = 0 := by
        unfold cmpBuf
        split at hblock <;> omega
      have hblock₁ : (windowText chunks₁ (off₁ + pos) n).length = n :=
        length_windowText (Nat.le_trans (by omega) hs₁.window)
      have hblock₂ : (windowText chunks₂ (off₂ + pos) n).length = n :=
        length_windowText (Nat.le_trans (by omega) hs₂.window)
      have hok' : windowText chunks₁ (off₁ + pos) n = windowText chunks₂ (off₂ + pos) n →
          len ≤ cmpLimit ∨ pos + n ≤ cmpLimit ∧
            ((windowText chunks₁ off₁ len₁).drop (pos + n)).take (cmpLimit - (pos + n)) ≠
              ((windowText chunks₂ off₂ len₂).drop (pos + n)).take (cmpLimit - (pos + n)) := by
        intro hsame
        rcases hroom with hroom | hroom
        · exact .inl hroom
        · refine hok.imp_right fun hok => ?_
          have hlimit : pos + n ≤ cmpLimit := by
            unfold cmpLimit
            split at hblock <;> omega
          refine ⟨hlimit, fun heq => hok.2 ?_⟩
          rw [take_limit_drop hle₁ hlimit hblock₁, take_limit_drop hle₂ hlimit hblock₂, hsame, heq]
      have hrest := fun hsame => ih hle hnext (hok' hsame)
        (by unfold cmpBuf; split at hblock <;> omega)
      simp only [shtringStrat_eq hs₁ hle₁, shtringStrat_eq hs₂ hle₂, Option.bind_some]
      rw [drop_windowText hle₁, drop_windowText hle₂]
      have hblocks := hblock₁.trans hblock₂.symm
      generalize windowText chunks₁ (off₁ + pos) n = b₁ at hblocks hrest ⊢
      generalize windowText chunks₂ (off₂ + pos) n = b₂ at hblocks hrest ⊢
      by_cases hless : b₁ < b₂
      · have hlt := append_lt_append_of_lt hblocks hless
        rw [if_pos hless, textCmp, if_pos (hlt _ _)]
      · rw [if_neg hless]
        by_cases hgreater : b₂ < b₁
        · have hlt := append_lt_append_of_lt hblocks.symm hgreater
          rw [if_pos hgreater, textCmp, if_neg fun h => List.lt_asymm h (hlt _ _), if_pos (hlt _ _)]
        · obtain rfl : b₁ = b₂ := List.le_antisymm hgreater hless
          rw [if_neg hgreater, add32_of_lt (by omega), hrest rfl, textCmp_append]
    · -- the shorter text is at its end
      rw [if_neg hlt, hs₁.length, hs₂.length]
      rcases Nat.lt_trichotomy len₁ len₂ with h | h | h
      · rw [if_pos h, List.drop_of_length_le (by omega), textCmp_nil_left]
        rw [List.ne_nil_iff_length_pos, List.length_drop]
        omega
      · rw [if_neg (by omega), if_neg (by omega), List.drop_of_length_le (by omega),
          List.drop_of_length_le (by omega), (textCmp_eq_equal _ _).mpr rfl]
      · rw [if_neg (by omega), if_pos h,
          List.drop_of_length_le (by omega : (windowText chunks₂ off₂ len₂).length ≤ pos),
          textCmp_nil_right]
        rw [List.ne_nil_iff_length_pos, List.length_drop]
        omega

/-- `shtring_cmp_without_allocating` compares the texts, if one of them ends or if
they differ before the limit. -/
theorem shtringCmpWithoutAllocating_eq (hs₁ : ShtringAt words S₁ p₁ chunks₁ off₁ len₁)
    (hs₂ : ShtringAt words S₂ p₂ chunks₂ off₂ len₂)
    (hok : min len₁ len₂ ≤ cmpLimit ∨ (windowText chunks₁ off₁ len₁).take cmpLimit ≠
      (windowText chunks₂ off₂ len₂).take cmpLimit) :
    shtringCmpWithoutAllocating words p₁ p₂ =
      some (textCmp (windowText chunks₁ off₁ len₁) (windowText chunks₂ off₂ len₂)) := by
  have hlen : (if len₁ < len₂ then len₁ else len₂) = min len₁ len₂ := by
    split <;> omega
  unfold shtringCmpWithoutAllocating
  simp only [hs₁.length, hs₂.length, hlen]
  rw [cmpLoop_eq hs₁ hs₂ rfl (Nat.zero_le _) (fun _ => ⟨rfl, rfl⟩)
    (hok.imp_right fun hok => ⟨Nat.zero_le _, by simpa using hok⟩)
    (by unfold cmpBuf; omega), List.drop_zero, List.drop_zero]

end cmp

/-! ## hashing -/

/-- The parts of a chunk of which `hash_chunk` hashes the right bytes.  A part
that starts within a word must start in the middle of it, where the number of
bytes before it is that of the bytes after it, and use up that word. -/
def HashAligned (off len : Nat) : Prop := off % 4 = 0 ∨ off % 4 = 2 ∧ 2 ≤ len

instance (off len : Nat) : Decidable (HashAligned off len) :=
  inferInstanceAs (Decidable (_ ∨ _))

theorem hashUpper_eq (n w h : Nat) : hashUpper n w h = (copyUpper n w).foldl hashByte h := by
  induction n generalizing w h with
  | zero => rfl
  | succ n ih =>
    have htop : (w &&& 0xFF000000) >>> 24 = (w >>> 24) &&& 0xFF := Nat.shiftRight_and_distrib
    rw [hashUpper, copyUpper, List.foldl_cons, ih, htop]

theorem hashWords_eq (words : Nat → Nat) (n p h : Nat) :
    hashWords words n p h = (copyWords words n p).foldl hashByte h := by
  induction n generalizing p h with
  | zero => rfl
  | succ n ih =>
    have hword := copyUpper_eq (w := words p) (n := 4) (Nat.le_refl _)
    rw [hashWords, copyWords, List.foldl_append, ih, hashUpper_eq, hword]
    rfl

/-- The characters that `hash_chunk` adds to the hash, in order. -/
def hashedPart (words : Nat → Nat) (chunk offInChunk len : Nat) : List Nat :=
  let p := chunk + 1 + offInChunk / 4
  let off := offInChunk % 4
  let first := if 0 < off then copyUpper (4 - off) (lshift32 (words p) (8 * off)) else []
  let p := if 0 < off then p + 1 else p
  let len := if 0 < off then sub32 len off else len
  first ++ copyWords words (len / 4) p ++ copyUpper (len % 4) (words (p + len / 4))

theorem hashChunk_eq_hashedPart (words : Nat → Nat) (chunk off t len h : Nat) :
    hashChunk words chunk off t len h = (0, (hashedPart words chunk off len).foldl hashByte h) := by
  unfold hashChunk hashedPart
  by_cases hoff : 0 < off % 4
  · simp only [if_pos hoff, hashWords_eq, hashUpper_eq, List.foldl_append]
  · simp only [if_neg hoff, hashWords_eq, hashUpper_eq, List.nil_append, List.foldl_append]

/-- The parts that `hash_chunk` can deal with. -/
theorem hashedPart_eq {words : Nat → Nat} {p off len : Nat} (hok : HashAligned off len)
    (hlen : len < 2 ^ 32) : hashedPart words p off len = chunkBytes words p off len := by
  rw [← copyChunkToCstr_eq]
  unfold hashedPart copyChunkToCstr
  rcases hok with hoff | ⟨hoff, hle⟩
  · have hzero : ¬ 0 < off % 4 := by omega
    simp only [if_neg hzero, List.nil_append, List.length_nil, Nat.sub_zero]
  · have hfirst : (((List.range 4).map (wordByte (words (p + 1 + off / 4)))).drop 2).take len =
        copyUpper 2 (lshift32 (words (p + 1 + off / 4)) (8 * 2)) := by
      rw [copyUpper_lshift32 (by decide), List.take_of_length_le (by simp; omega)]
      rfl
    have htwo : (copyUpper 2 (lshift32 (words (p + 1 + off / 4)) (8 * 2))).length = 2 := rfl
    simp only [hoff, Nat.zero_lt_two, if_true, hfirst, htwo, sub32_of_le hle hlen]

/-- `hash_chunk` on the parts it can deal with. -/
theorem hashChunk_eq {words : Nat → Nat} {p off t len h : Nat} (hok : HashAligned off len)
    (hlen : len < 2 ^ 32) :
    hashChunk words p off t len h = (0, (chunkBytes words p off len).foldl hashByte h) := by
  rw [hashChunk_eq_hashedPart, hashedPart_eq hok hlen]

/-- The hash of a text. -/
def textHash (text : List Nat) : Nat := text.foldl hashByte shtringHashStartValue

/-- `shtring_hash` depends on the text only, where `hash_chunk` counts
rightly. -/
theorem shtringHash_eq (hs : ShtringAt words S p chunks off len)
    (haligned : VisitedParts HashAligned off len chunks 0) :
    shtringHash words p = some (textHash (windowText chunks off len)) := by
  have hwindow := hs.window
  have hfit := hs.fit
  have hchunks : ∀ c ∈ chunks, ∀ o t l h, o + l ≤ c.2.length → HashAligned o l →
      (hashChunk words c.1 o t l h).2 = ((c.2.drop o).take l).foldl hashByte h := by
    intro c hc o t l h hle hok
    have hat := hs.chunkAt c hc
    have hmax := hat.le_max
    unfold shtringChunkMax at hmax
    rw [hashChunk_eq hok (by omega), hat.chunkBytes_eq hle]
  obtain ⟨ret, pos, hret⟩ := hs.monkey off len shtringHashStartValue
    (fun _ _ _ _ _ => by simp [hashChunk] : ∀ c o t l a, (hashChunk words c o t l a).1 ≠ -1)
    (by omega)
  have hvisit := visitChunks_fold hchunks 0 shtringHashStartValue haligned
  unfold shtringHash
  rw [hs.offset, hs.length, hret, Option.map_some, hvisit, Nat.sub_zero,
    Nat.max_eq_right (Nat.zero_le _), Nat.add_sub_cancel_left, windowText, textHash]

end text

end Shades
