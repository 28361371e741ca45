import Shades.Shtring.Slice

/-!
# Shades.Shtring.Compare

`shtring_cmp_without_allocating` compares by the order of the texts, until the
position of the next block and `CMP_BUF` do not fit a word together.  From there
on nothing is copied to the buffers.  A shtring can be that long because a chunk
may stand in a tree many times.
-/

namespace Shades

/-! ## the order -/

theorem textCmp_eq_less (t₁ t₂ : List Nat) : textCmp t₁ t₂ = .less ↔ t₁ < t₂ := by
  unfold textCmp
  split
  · next h => simp [h]
  · next h => split <;> simp [h]

theorem textCmp_eq_greater (t₁ t₂ : List Nat) : textCmp t₁ t₂ = .greater ↔ t₂ < t₁ := by
  unfold textCmp
  split
  · next h => simp [List.lt_asymm h]
  · next h => split <;> simp [*]

/-- The order is antisymmetric. -/
theorem textCmp_swap (t₁ t₂ : List Nat) : textCmp t₁ t₂ = .less ↔ textCmp t₂ t₁ = .greater := by
  rw [textCmp_eq_less, textCmp_eq_greater]

/-- The order is transitive. -/
theorem textCmp_trans {t₁ t₂ t₃ : List Nat} (h : textCmp t₁ t₂ = .less)
    (h' : textCmp t₂ t₃ = .less) : textCmp t₁ t₃ = .less := by
  rw [textCmp_eq_less] at h h' ⊢
  exact List.lt_trans h h'

/-- A proper beginning of a text is smaller. -/
theorem textCmp_prefix (t : List Nat) {r : List Nat} (hr : r ≠ []) :
    textCmp t (t ++ r) = .less := by
  have h := textCmp_append t [] r
  rwa [List.append_nil, textCmp_nil_left hr] at h

/-! ## a window whose end does not fit a word -/

section wrapped

variable {words : Nat → Nat} {S : Nat → Prop} {α : Type} {h p : Nat} {chunks : List Chunk}

theorem visitChunks_const (start len : Nat) (chunks : List Chunk) (pos : Nat) (arg : α) :
    visitChunks (fun _ _ _ _ arg => ((0 : Int), arg)) start len chunks pos arg = arg := by
  induction chunks generalizing pos with
  | nil => rfl
  | cons c chunks ih =>
    obtain ⟨c, bytes⟩ := c
    rw [visitChunks, ite_self, ih]

/-- No chunk is visited: none reaches from before the end of the window, which
wrapped around, to after its start. -/
theorem shtringMonkey_wrapped {f : Nat → Nat → Nat → Nat → α → Int × α} {start len : Nat}
    (ht : TreeAt words S h p chunks) (hwrap : add32 start len + shtringChunkMax ≤ start) :
    ∀ {depth : Nat} (pos : Nat) (arg : α), h ≤ depth → pos + (textOf chunks).length < 2 ^ 32 →
      ∃ ret, shtringMonkey words f .leftToRight start len depth p pos arg =
        some (ret, pos + (textOf chunks).length, arg) ∧ ret ≠ -1 := by
  induction ht with
  | @chunk p bytes hchunk =>
    intro depth pos arg hdepth hpos
    obtain ⟨depth, rfl⟩ : ∃ d, depth = d + 1 := ⟨depth - 1, by omega⟩
    simp only [textOf_cons, textOf_nil, List.append_nil] at hpos ⊢
    have hbytes := hchunk.pos
    have hmax := hchunk.le_max
    have hout : ¬ (pos < add32 start len ∧ start < pos + bytes.length) := by omega
    refine ⟨0, ?_, by decide⟩
    rw [shtringMonkey, if_neg hchunk.ne_null]
    simp only [if_neg (show pos ≠ shtringMonkeyStartPos by unfold shtringMonkeyStartPos; omega),
      hchunk.not_node, Bool.false_eq_true, if_false, monkeyChunk, hchunk.length, reduceCtorEq,
      if_neg hout, if_true, add32_of_lt hpos]
  | @node p h kids hnode htrees ih =>
    intro depth pos arg hdepth hpos
    obtain ⟨depth, rfl⟩ : ∃ d, depth = d + 1 := ⟨depth - 1, by omega⟩
    have htext := (TreeAt.node hnode htrees).text_pos
    rw [shtringMonkey, if_neg hnode.ne_null]
    simp only [if_neg (show pos ≠ shtringMonkeyStartPos by unfold shtringMonkeyStartPos; omega),
      hnode.node, if_true, hnode.count, hnode.ptrs, hnode.length, add32_of_lt hpos]
    split
    · exact ⟨0, rfl, by decide⟩
    · have hkids := @monkeyChildren_eq α (fun _ _ _ _ arg => (0, arg)) start len
        (shtringMonkey words f .leftToRight start len depth) kids
        (fun kid hkid pos arg hpos => by
          rw [visitChunks_const]
          exact ih kid hkid pos arg (by omega) hpos)
        0 pos arg (by decide) hpos
      simpa only [visitChunks_const] using hkids

/-- `shtring_strat` then copies nothing, which its assertion finds. -/
theorem shtringStrat_wrapped {off len pos n : Nat} (hs : ShtringAt words S p chunks off len)
    (hpos : pos < len) (hn : 0 < n) (hmax : n ≤ cmpBuf) (hwrap : 2 ^ 32 ≤ pos + n) :
    shtringStrat words p pos n = none := by
  have hwindow := hs.window
  have hfit := hs.fit
  unfold cmpBuf at hmax
  have ht := hs.tree.resolve_left (fun h => by
    obtain ⟨-, -, rfl⟩ := h
    rw [textOf_nil, List.length_nil] at hwindow
    omega)
  have hend : add32 (off + pos) n + shtringChunkMax ≤ off + pos := by
    unfold add32 shtringChunkMax
    omega
  obtain ⟨ret, hret, -⟩ := @shtringMonkey_wrapped words S (List Nat) _ _ _ (collectString words)
    (off + pos) n ht hend (shtringHeight words p + 1) 0 [] (Nat.le_succ _) (by omega)
  have hrun : shtringMonkey words (collectString words) .leftToRight (off + pos) n
      (shtringHeight words p + 1) (shtringChunkTree words p) shtringMonkeyStartPos [] =
        some (ret, 0 + (textOf chunks).length, []) := by
    rw [← hret, shtringMonkey, if_neg ht.ne_null, shtringMonkey, if_neg ht.ne_null]
    simp [shtringMonkeyStartPos]
  have hassert : assert (([] : List Nat).length = n) = none := if_neg (by simpa using hn.ne)
  unfold shtringStrat
  rw [hs.offset, add32_of_lt (by omega), hrun]
  simp only [Option.bind_eq_bind, Option.bind_some, hassert, Option.bind_none]

end wrapped

/-! ## comparing -/

section cmp

variable {words : Nat → Nat} {S₁ S₂ : Nat → Prop} {p₁ p₂ off₁ off₂ len₁ len₂ : Nat}
  {chunks₁ chunks₂ : List Chunk}

/-- The loop does not get past the limit when both texts do and agree up to it. -/
theorem cmpLoop_stuck (hs₁ : ShtringAt words S₁ p₁ chunks₁ off₁ len₁)
    (hs₂ : ShtringAt words S₂ p₂ chunks₂ off₂ len₂) {len : Nat} (hlen : len = min len₁ len₂)
    (hlong : cmpLimit < len) :
    ∀ {fuel pos : Nat}, pos ≤ cmpLimit → pos % cmpBuf = 0 →
      ((windowText chunks₁ off₁ len₁).drop pos).take (cmpLimit - pos) =
        ((windowText chunks₂ off₂ len₂).drop pos).take (cmpLimit - pos) →
      cmpLoop words p₁ p₂ len fuel cmpBuf pos = none := by
  intro fuel
  have hlimit : cmpLimit = 2 ^ 32 - 4096 := rfl
  have hbuf : cmpBuf = 10240 := rfl
  have hwindow₁ := hs₁.window
  have hwindow₂ := hs₂.window
  have hfit₁ := hs₁.fit
  have hfit₂ := hs₂.fit
  induction fuel with
  | zero => exact fun _ _ _ => rfl
  | succ fuel ih =>
    intro pos hpos hmod hsame
    rw [hbuf] at hmod
    rw [cmpLoop, if_pos (by omega)]
    rcases Nat.lt_or_eq_of_le hpos with hlt | rfl
    · have hnext : pos + cmpBuf ≤ cmpLimit := by omega
      have hblock₁ : (windowText chunks₁ (off₁ + pos) cmpBuf).length = cmpBuf :=
        length_windowText (by omega)
      have hblock₂ : (windowText chunks₂ (off₂ + pos) cmpBuf).length = cmpBuf :=
        length_windowText (by omega)
      rw [take_limit_drop (by omega : pos + cmpBuf ≤ len₁) hnext hblock₁,
        take_limit_drop (by omega : pos + cmpBuf ≤ len₂) hnext hblock₂] at hsame
      obtain ⟨hblocks, hrest⟩ := List.append_inj hsame (hblock₁.trans hblock₂.symm)
      simp only [add32_of_lt (show pos + cmpBuf < 2 ^ 32 by omega),
        if_neg (show ¬ len < pos + cmpBuf by omega),
        shtringStrat_eq hs₁ (by omega : pos + cmpBuf ≤ len₁),
        shtringStrat_eq hs₂ (by omega : pos + cmpBuf ≤ len₂), Option.bind_some, hblocks]
      rw [if_neg (List.lt_irrefl _), if_neg (List.lt_irrefl _)]
      exact ih hnext (by rw [hbuf]; omega) hrest
    · have hsum : ¬ len < add32 cmpLimit cmpBuf := by
        unfold add32
        omega
      have hnone : shtringStrat words p₁ cmpLimit cmpBuf = none :=
        shtringStrat_wrapped hs₁ (by omega) (by omega) (Nat.le_refl _) (by omega)
      simp only [if_neg hsum, hnone, Option.bind_none]

/-- The assertion of `shtring_strat` fails for texts that are longer than the limit and
agree up to it. -/
theorem shtringCmpWithoutAllocating_stuck (hs₁ : ShtringAt words S₁ p₁ chunks₁ off₁ len₁)
    (hs₂ : ShtringAt words S₂ p₂ chunks₂ off₂ len₂) (hlong : cmpLimit < min len₁ len₂)
    (hsame : (windowText chunks₁ off₁ len₁).take cmpLimit =
      (windowText chunks₂ off₂ len₂).take cmpLimit) :
    shtringCmpWithoutAllocating words p₁ p₂ = none := by
  have hlen : (if len₁ < len₂ then len₁ else len₂) = min len₁ len₂ := by
    split <;> omega
  have hstuck := @cmpLoop_stuck words S₁ S₂ p₁ p₂ off₁ off₂ len₁ len₂ chunks₁ chunks₂ hs₁ hs₂ _
    rfl hlong (min len₁ len₂ / cmpBuf + 2) 0 (Nat.zero_le _) rfl hsame
  unfold shtringCmpWithoutAllocating
  simp only [hs₁.length, hs₂.length, hlen, hstuck]

/-- `shtring_cmp_without_allocating` gives the order of the texts unless both are
longer than the limit and agree up to it. -/
theorem shtring_cmp_order (hs₁ : ShtringAt words S₁ p₁ chunks₁ off₁ len₁)
    (hs₂ : ShtringAt words S₂ p₂ chunks₂ off₂ len₂) :
    shtringCmpWithoutAllocating words p₁ p₂ =
        some (textCmp (windowText chunks₁ off₁ len₁) (windowText chunks₂ off₂ len₂)) ↔
      min len₁ len₂ ≤ cmpLimit ∨ (windowText chunks₁ off₁ len₁).take cmpLimit ≠
        (windowText chunks₂ off₂ len₂).take cmpLimit := by
  constructor
  · intro hcmp
    by_contra hnot
    rw [not_or, not_not, Nat.not_le] at hnot
    rw [shtringCmpWithoutAllocating_stuck hs₁ hs₂ hnot.1 hnot.2] at hcmp
    cases hcmp
  · exact shtringCmpWithoutAllocating_eq hs₁ hs₂

end cmp

/-- "abcd" and "bc". -/
theorem shtring_cmp_order_abcd_bc :
    shtringCmpWithoutAllocating twoChunks.words 40 50 = some .less :=
  (shtring_cmp_order twoChunks_abcd twoChunks_bc).mpr (.inl (by decide))

/-! ## a long shtring -/

/-- A chunk of 32 zeros at `16`, and nodes that have the same child many times.
The node at `16 * b` with `b` from 2 to 9 has eight times the tree before it.  The
node at `16 * (20 + k)` with `k` from 3 to 9 has seven full trees of height `k` and
the node before it, but for the first, which has nothing else.  At `640` is the
shtring with everything below the last one. -/
def longWords (a : Nat) : Nat :=
  let b := a / 16
  let i := a % 16
  if b = 1 then if i = 0 then CellType.shtringChunk.header + 32 else 0
  else if b < 10 then
    if i = 0 then CellType.shtringNode.header + 8
    else if i = 1 then 32 * 8 ^ (b - 1)
    else if i = 2 then b
    else ptrToWord (16 * (b - 1))
  else if b = 40 then
    if i = 0 then CellType.shtring.header
    else if i = 1 then 0
    else if i = 2 then 32 * 8 ^ 9 - 2048
    else if i = 3 then 10
    else ptrToWord (16 * 29)
  else
    if i = 0 then CellType.shtringNode.header + if b = 23 then 7 else 8
    else if i = 1 then 32 * 8 ^ (b - 20) - 2048
    else if i = 2 then b - 19
    else if i < 10 then ptrToWord (16 * (b - 20))
    else ptrToWord (16 * (b - 1))

/-- The chunks of the full tree of height `k + 1`. -/
def fullChunks : Nat → List Chunk
  | 0 => [(16, List.replicate 32 0)]
  | k + 1 => (List.replicate 8 (fullChunks k)).flatten

/-- The chunks of the tree of height `k + 4` that lacks 64 chunks. -/
def longChunks : Nat → List Chunk
  | 0 => (List.replicate 7 (fullChunks 2)).flatten
  | k + 1 => (List.replicate 7 (fullChunks (k + 3)) ++ [longChunks k]).flatten

theorem length_fullChunks (k : Nat) : (textOf (fullChunks k)).length = 32 * 8 ^ k := by
  induction k with
  | zero => rfl
  | succ k ih =>
    rw [fullChunks, textOf_flatten, List.map_replicate, List.length_flatten, List.map_replicate, ih,
      List.sum_replicate_nat, Nat.pow_succ]
    omega

theorem length_longChunks (k : Nat) :
    (textOf (longChunks k)).length = 32 * 8 ^ (k + 3) - 2048 := by
  induction k with
  | zero =>
    rw [longChunks, textOf_flatten, List.map_replicate, List.length_flatten, List.map_replicate,
      length_fullChunks, List.sum_replicate_nat]
    rfl
  | succ k ih =>
    have hpow : 0 < 8 ^ k := Nat.pow_pos (by decide)
    rw [longChunks, textOf_flatten, List.map_append, List.map_replicate, List.length_flatten,
      List.map_append, List.map_replicate, length_fullChunks, List.sum_append,
      List.sum_replicate_nat, List.map_singleton, List.map_singleton, List.sum_singleton,
      ih]
    rw [show k + 1 + 3 = k + 4 by omega, Nat.pow_add, Nat.pow_add]
    omega

section long

variable {S : Nat → Prop}

theorem longWords_chunk (hS : ∀ a < 656, S a) : TreeAt longWords S 1 16 (fullChunks 0) :=
  .chunk
    { ne_null := by decide
      type := by decide
      length := by decide
      pos := by decide
      le_max := by decide
      region := fun i hi => hS _ (by
        unfold shtringChunkWordsNeeded at hi
        simp only [List.length_replicate] at hi
        omega)
      word_lt := by decide
      bytes_eq := by decide }

theorem longWords_full (hS : ∀ a < 656, S a) {k : Nat} (hk : k ≤ 8) :
    TreeAt longWords S (k + 1) (16 * (k + 1)) (fullChunks k) := by
  induction k with
  | zero => exact longWords_chunk hS
  | succ k ih =>
    have hword : ∀ i < 16, longWords (16 * (k + 2) + i) =
        if i = 0 then CellType.shtringNode.header + 8
        else if i = 1 then 32 * 8 ^ (k + 1)
        else if i = 2 then k + 2
        else ptrToWord (16 * (k + 1)) := by
      intro i hi
      unfold longWords
      simp only [show (16 * (k + 2) + i) / 16 = k + 2 by omega,
        show (16 * (k + 2) + i) % 16 = i by omega, if_neg (show k + 2 ≠ 1 by omega),
        if_pos (show k + 2 < 10 by omega)]
      rfl
    have hkids : ((List.replicate 8 (16 * (k + 1), fullChunks k)).map Prod.snd).flatten =
        fullChunks (k + 1) := by
      rw [List.map_replicate, fullChunks]
    have hword0 : longWords (16 * (k + 2)) = CellType.shtringNode.header + 8 := hword 0 (by decide)
    have hpow : 8 ^ (k + 1) ≤ 8 ^ 8 := Nat.pow_le_pow_right (by decide) (by omega)
    have hnode : ShtringNodeAt longWords S (k + 1) (16 * (k + 2))
        (List.replicate 8 (16 * (k + 1), fullChunks k)) :=
      { ne_null := by unfold nullPtr; omega
        type := by rw [hword0]; decide
        ne_nil := by simp
        le_max := by simp [maxShtringNodeChildren]
        count := by rw [shtringNodeChildren, hword0, List.length_replicate]; decide
        height := hword 2 (by decide)
        length := by
          rw [hkids, length_fullChunks]
          exact hword 1 (by decide)
        fit := by
          rw [hkids, length_fullChunks]
          omega
        region := fun i hi => hS _ (by
          rw [List.length_replicate] at hi
          omega)
        ptrs := by
          have hchild : ∀ i ∈ List.range 8,
              shtringNodeChild longWords (16 * (k + 2)) (i + 1) = 16 * (k + 1) := by
            intro i hi
            have hi := List.mem_range.mp hi
            rw [shtringNodeChild, Nat.add_assoc, hword _ (by omega), if_neg (by omega),
              if_neg (by omega), if_neg (by omega), wordToPtr_ptrToWord]
          rw [List.length_replicate, List.map_replicate, List.map_congr_left hchild]
          rfl }
    have htree := TreeAt.node hnode fun kid hkid => by
      obtain rfl := List.eq_of_mem_replicate hkid
      exact ih (by omega)
    rwa [hkids] at htree

/-- The words of the nodes from `368` on. -/
theorem longWords_node {k i : Nat} (hk : k ≤ 6) (hi : i < 16) : longWords (16 * (23 + k) + i) =
    if i = 0 then CellType.shtringNode.header + if k = 0 then 7 else 8
    else if i = 1 then 32 * 8 ^ (k + 3) - 2048
    else if i = 2 then k + 4
    else if i < 10 then ptrToWord (16 * (k + 3))
    else ptrToWord (16 * (k + 22)) := by
  unfold longWords
  simp only [show (16 * (23 + k) + i) / 16 = 23 + k by omega,
    show (16 * (23 + k) + i) % 16 = i by omega, if_neg (show 23 + k ≠ 1 by omega),
    if_neg (show ¬ 23 + k < 10 by omega), if_neg (show 23 + k ≠ 40 by omega),
    show 23 + k - 20 = k + 3 by omega, show 23 + k - 19 = k + 4 by omega,
    show 23 + k - 1 = k + 22 by omega, show 23 + k = 23 ↔ k = 0 by omega]

theorem longWords_long (hS : ∀ a < 656, S a) {k : Nat} (hk : k ≤ 6) :
    TreeAt longWords S (k + 4) (16 * (23 + k)) (longChunks k) := by
  have hpow : 8 ^ (k + 3) ≤ 8 ^ 9 := Nat.pow_le_pow_right (by decide) (by omega)
  have hfield := fun i (hi : i < 16) => longWords_node hk hi
  have hchild : ∀ i < 7, shtringNodeChild longWords (16 * (23 + k)) (i + 1) = 16 * (k + 3) := by
    intro i hi
    rw [shtringNodeChild, Nat.add_assoc, hfield _ (by omega), if_neg (by omega), if_neg (by omega),
      if_neg (by omega), if_pos (by omega), wordToPtr_ptrToWord]
  have hword0 := hfield 0 (by decide)
  rw [Nat.add_zero, if_pos rfl] at hword0
  cases k with
  | zero =>
    have hkids : ((List.replicate 7 (16 * 3, fullChunks 2)).map Prod.snd).flatten =
        longChunks 0 := by
      rw [List.map_replicate, longChunks]
    rw [if_pos rfl] at hword0
    have hnode : ShtringNodeAt longWords S 3 (16 * 23)
        (List.replicate 7 (16 * 3, fullChunks 2)) :=
      { ne_null := by decide
        type := by rw [hword0]; decide
        ne_nil := by simp
        le_max := by simp [maxShtringNodeChildren]
        count := by rw [shtringNodeChildren, hword0, List.length_replicate]; decide
        height := hfield 2 (by decide)
        length := by
          rw [hkids, length_longChunks]
          exact hfield 1 (by decide)
        fit := by
          rw [hkids, length_longChunks]
          decide
        region := fun i hi => hS _ (by
          rw [List.length_replicate] at hi
          omega)
        ptrs := by
          rw [List.length_replicate, List.map_replicate,
            List.map_congr_left fun i hi => hchild i (List.mem_range.mp hi)]
          rfl }
    have htree := TreeAt.node hnode fun kid hkid => by
      obtain rfl := List.eq_of_mem_replicate hkid
      exact longWords_full hS (by decide)
    rwa [hkids] at htree
  | succ k =>
    have ih : TreeAt longWords S (k + 4) (16 * (23 + k)) (longChunks k) :=
      longWords_long hS (by omega)
    have hkids : ((List.replicate 7 (16 * (k + 4), fullChunks (k + 3)) ++
        [(16 * (23 + k), longChunks k)]).map Prod.snd).flatten = longChunks (k + 1) := by
      rw [List.map_append, List.map_replicate, longChunks]
      rfl
    have hlast : shtringNodeChild longWords (16 * (23 + (k + 1))) (7 + 1) = 16 * (23 + k) := by
      rw [shtringNodeChild, Nat.add_assoc, hfield _ (by decide), if_neg (by decide),
        if_neg (by decide), if_neg (by decide), if_neg (by decide), wordToPtr_ptrToWord]
      omega
    rw [if_neg (Nat.succ_ne_zero k)] at hword0
    have hnode : ShtringNodeAt longWords S (k + 4) (16 * (23 + (k + 1)))
        (List.replicate 7 (16 * (k + 4), fullChunks (k + 3)) ++ [(16 * (23 + k), longChunks k)]) :=
      { ne_null := by unfold nullPtr; omega
        type := by rw [hword0]; decide
        ne_nil := by simp
        le_max := by simp [maxShtringNodeChildren]
        count := by
          rw [shtringNodeChildren, hword0, List.length_append, List.length_replicate,
            List.length_singleton]
          decide
        height := hfield 2 (by decide)
        length := by
          rw [hkids, length_longChunks]
          exact hfield 1 (by decide)
        fit := by
          rw [hkids, length_longChunks]
          omega
        region := fun i hi => hS _ (by
          simp only [List.length_append, List.length_replicate, List.length_singleton] at hi
          omega)
        ptrs := by
          rw [List.length_append, List.length_replicate, List.length_singleton, List.range_succ,
            List.map_append, List.map_append, List.map_replicate,
            List.map_congr_left fun i hi => hchild i (List.mem_range.mp hi), List.map_singleton,
            hlast]
          rfl }
    have htree := TreeAt.node hnode fun kid hkid => by
      rcases List.mem_append.mp hkid with hkid | hkid
      · obtain rfl := List.eq_of_mem_replicate hkid
        exact longWords_full hS (by omega)
      · obtain rfl := List.mem_singleton.mp hkid
        exact ih
    rwa [hkids] at htree

theorem longWords_shtring (hS : ∀ a < 656, S a) :
    ShtringAt longWords S 640 (longChunks 6) 0 (32 * 8 ^ 9 - 2048) where
  ne_null := by decide
  type := by decide
  offset := by decide
  length := by decide
  region := fun i hi => hS _ (by unfold shtringWords at hi; omega)
  window := by rw [length_longChunks]; decide
  fit := by rw [length_longChunks]; decide
  tree := .inr (longWords_long hS (by decide))

end long

/-- The comparison of a shtring of `2 ^ 32 - 2048` zeros with itself fails. -/
theorem shtring_cmp_long :
    ShtringAt longWords (fun _ => True) 640 (longChunks 6) 0 (32 * 8 ^ 9 - 2048) ∧
    shtringCmpWithoutAllocating longWords 640 640 ≠
      some (textCmp (windowText (longChunks 6) 0 (32 * 8 ^ 9 - 2048))
        (windowText (longChunks 6) 0 (32 * 8 ^ 9 - 2048))) := by
  have hlong : ShtringAt longWords (fun _ => True) 640 (longChunks 6) 0 (32 * 8 ^ 9 - 2048) :=
    longWords_shtring fun _ _ => trivial
  refine ⟨hlong, fun hcmp => ?_⟩
  have hstuck : ∀ fuel, cmpLoop longWords 640 640 (32 * 8 ^ 9 - 2048) fuel cmpBuf 0 = none :=
    fun _ => cmpLoop_stuck hlong hlong (Nat.min_self _).symm (by decide)
      (Nat.zero_le cmpLimit) (Nat.zero_mod cmpBuf) rfl
  unfold shtringCmpWithoutAllocating at hcmp
  simp only [hlong.length, ite_self, hstuck] at hcmp
  cases hcmp

end Shades
